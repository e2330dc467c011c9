import ParserGenerator.Proofs.Collection.Attempt
import ParserGenerator.Proofs.LR.Digraph
import ParserGenerator.Proofs.LR.Follow
import ParserGenerator.Proofs.LR.Survey
import ParserGenerator.Proofs.LR.Transitions

/-!
# What can be read behind a transition

Collected over the transitions that may vanish, the terminals that can be read right behind a transition
are those that can begin what stands behind its nonterminal in some item; behind the start symbol there is
the end marker besides.
-/

namespace ParserGenerator.Grammar

variable {g : Grammar} {marker start : Int} {states : Array State} {q r n m : Nat} {id a t u : Int}
  {it : Item} {p : Production}

/-! ## What items promise -/

/-- The terminal can begin what stands behind the dot. -/
def Promises (g : Grammar) (it : Item) (t : Int) : Prop :=
  ∃ p, g.byNumber.get? it.production = some p ∧ g.Begins (p.right.drop it.position) t

theorem Expects.drop_eq (h : g.Expects it id) (hp : g.byNumber.get? it.production = some p) :
    p.right.drop it.position = id :: p.right.drop it.advance.position := by
  obtain ⟨p', hp', at_id⟩ := h
  rw [hp] at hp'
  cases hp'
  obtain ⟨inside, rfl⟩ := List.getElem?_eq_some_iff.1 at_id
  exact (List.getElem_cons_drop ..).symm

theorem Promises.skip (expects : g.Expects it id) (vanishes : g.Vanishes id)
    (h : g.Promises it.advance t) : g.Promises it t := by
  obtain ⟨p, hp, begins⟩ := h
  refine ⟨p, hp, ?_⟩
  rw [expects.drop_eq hp]
  exact .skip vanishes begins

theorem Promises.rule {k : Int} (expects : g.Expects it p.left) (hp : g.byNumber.get? k = some p)
    (h : g.Promises ⟨k, 0⟩ t) : g.Promises it t := by
  obtain ⟨p', hp', begins⟩ := h
  rw [hp] at hp'
  cases hp'
  obtain ⟨p', hp', at_id⟩ := id expects
  refine ⟨p', hp', ?_⟩
  rw [expects.drop_eq hp']
  exact .rule hp begins

theorem promises_of_expects (expects : g.Expects it t) (input : g.isInput t = true) :
    g.Promises it t := by
  obtain ⟨p, hp, at_t⟩ := id expects
  refine ⟨p, hp, ?_⟩
  rw [expects.drop_eq hp]
  exact .read input

/-- What an item of a closed set promises an item of the kernel promises. -/
theorem Closure.promised {kernel : Item → Prop} (h : g.Closure kernel it) (promises : g.Promises it t) :
    ∃ it', kernel it' ∧ g.Promises it' t := by
  induction h with
  | kernel mem => exact ⟨_, mem, promises⟩
  | expand _ expects hp ih => exact ih (promises.rule expects hp)
  | skip _ expects action ih => exact ih (promises.skip expects (.action action))

/-- Behind a transition the terminal can begin what an item promises. -/
def Behind (g : Grammar) (states : Array State) (q : Nat) (id t : Int) : Prop :=
  ∃ it, Holds states q it ∧ g.Expects it id ∧ g.Promises it.advance t

theorem Automaton.behind (auto : g.Automaton states) (step : goto? states q id = some r)
    (holds : Holds states r it) (promises : g.Promises it t) : g.Behind states q id t := by
  obtain ⟨it', ⟨it₀, holds, expects, rfl⟩, promises⟩ := ((auto.target step).1 holds).promised promises
  exact ⟨it₀, holds, expects, promises⟩

theorem drop_of_right {α γ : List Int} (right : p.right = α ++ id :: γ) :
    p.right.drop (α.length + 1) = γ := by
  have split : p.right = (α ++ [id]) ++ γ := by simp [right]
  rw [split, List.drop_left' (by simp)]

theorem behind_iff (sound : g.Lawful) : g.Behind states q id t ↔
    ∃ k α γ p, Holds states q ⟨k, α.length⟩ ∧ g.byNumber.get? k = some p ∧ p.right = α ++ id :: γ ∧
      g.First γ t := by
  constructor
  · rintro ⟨it, holds, expects, p, hp, begins⟩
    obtain ⟨k, p', α, γ, rfl, hp', right⟩ := expects.split
    cases hp'.symm.trans hp
    refine ⟨k, α, γ, p, holds, hp', right, sound.first_iff.2 ?_⟩
    rwa [← drop_of_right right]
  · rintro ⟨k, α, γ, p, holds, hp, right, first⟩
    refine ⟨_, holds, expects_of_right hp right, p, hp, ?_⟩
    have begins := sound.first_iff.1 first
    rwa [← drop_of_right right] at begins

/-! ## Relations between transitions -/

theorem mem_afterTransition {t : Transition} : id ∈ afterTransition states t ↔
    ∃ r, goto? states t.1 t.2 = some r ∧ ∃ r', goto? states r id = some r' := by
  rw [afterTransition]
  cases goto? states t.1 t.2 with
  | none => simp
  | some r =>
    have rows : ∀ r', goto? states r id = some r' ↔
        ∃ s, states[r]? = some s ∧ s.transitions.get? id = some r' := fun _ => goto?_eq_some
    cases at_r : states[r]? with
    | none => simp [at_r, rows]
    | some s => simp [at_r, rows, OrderedMap.mem_keys]

theorem mem_directReads {t : Transition} : u ∈ g.directReads states t ↔
    ∃ r, goto? states t.1 t.2 = some r ∧
      (g.isInput u = true ∧ (∃ r', goto? states r u = some r') ∨
        u = endMarkerId ∧ Holds states r .accepting) := by
  have own : u ∈ OrderedSet.ofList ((afterTransition states t).filter g.isInput) ↔
      ∃ r, goto? states t.1 t.2 = some r ∧
        g.isInput u = true ∧ ∃ r', goto? states r u = some r' := by
    rw [OrderedSet.mem_ofList, List.mem_filter, mem_afterTransition]
    grind
  have accepts : ((goto? states t.1 t.2).bind (states[·]?)).any State.accepts = true ↔
      ∃ r, goto? states t.1 t.2 = some r ∧ Holds states r .accepting := by
    rw [Option.any_eq_true]
    simp only [Option.bind_eq_some_iff, State.accepts, List.contains_iff_mem, Holds]
    grind
  rw [directReads]
  split
  · rename_i accepting
    rw [accepts] at accepting
    rw [OrderedSet.mem_insert, own]
    grind
  · rename_i accepting
    rw [accepts] at accepting
    rw [own]
    grind

/-- A transition leads to the state of another one, and the symbol of that one vanishes. -/
def ReadsOver (g : Grammar) (states : Array State) (t t' : Transition) : Prop :=
  goto? states t.1 t.2 = some t'.1 ∧ (∃ r, goto? states t'.1 t'.2 = some r) ∧ g.Vanishes t'.2

section Relations

variable (settled : g.Settled marker start) (auto : g.Automaton states)
include settled auto

theorem shows_readsThrough (truthful : g.Truthful g.facts.nullable) (t : Transition) :
    g.Shows (g.readsThrough states t) fun ts => ∀ t', t' ∈ ts ↔ g.ReadsOver states t t' := by
  rw [readsThrough]
  cases step : goto? states t.1 t.2 with
  | none =>
    refine shows_pure fun t' => ?_
    simp [ReadsOver, step]
  | some r =>
    have after : ∀ id, id ∈ (afterTransition states t).filter (!g.isInput ·) ↔
        (∃ r', goto? states r id = some r') ∧ g.isInput id = false := by
      intro id
      simp [mem_afterTransition, step]
    have registered : ∀ id ∈ (afterTransition states t).filter (!g.isInput ·),
        ∃ s, g.symbols.at? id = some s := by
      intro id mem
      obtain ⟨⟨r', step'⟩, -⟩ := (after id).1 mem
      exact (auto.kind_of_goto settled step').1
    refine shows_bind (shows_vanishing truthful registered) fun ids found => shows_pure fun t' => ?_
    rw [List.mem_map, ReadsOver, step]
    constructor
    · rintro ⟨id, mem, rfl⟩
      rw [found, after] at mem
      exact ⟨rfl, mem.1.1, mem.2⟩
    · rintro ⟨eq, target, vanishes⟩
      cases eq
      refine ⟨t'.2, (found _).2 ⟨(after _).2 ⟨target, ?_⟩, vanishes⟩, rfl⟩
      exact Bool.eq_false_iff.2 fun input => settled.not_vanishes input vanishes

omit settled auto in
/-- The relation with numbers, as far as there are such. -/
theorem mem_edges {x : TransitionIndex} {targets : List (List Transition)}
    {R : Transition → Transition → Prop}
    (related : List.Forall₂ (fun t ts => ∀ t', t' ∈ ts ↔ R t t') x.all.toList targets)
    {n : Nat} {o : Option Nat} :
    (n, o) ∈ (targets.zipIdx.flatMap fun (ts, n) => ts.map fun t => (n, x.number? t)) ↔
      ∃ t t', x.all[n]? = some t ∧ R t t' ∧ x.number? t' = o := by
  rw [List.mem_flatMap]
  constructor
  · rintro ⟨⟨ts, n'⟩, listed, mem⟩
    obtain ⟨t', among, eq⟩ := List.mem_map.1 mem
    cases eq
    obtain ⟨t, at_n, eq⟩ :=
      (Attempt.related_getElem? related).2 ts (List.mk_mem_zipIdx_iff_getElem?.1 listed)
    rw [Array.getElem?_toList] at at_n
    exact ⟨t, t', at_n, (eq t').1 among, rfl⟩
  · rintro ⟨t, t', at_n, holds, rfl⟩
    rw [← Array.getElem?_toList] at at_n
    obtain ⟨ts, listed, eq⟩ := (Attempt.related_getElem? related).1 t at_n
    exact ⟨(ts, n), List.mk_mem_zipIdx_iff_getElem?.2 listed, List.mem_map.2 ⟨t', (eq t').2 holds, rfl⟩⟩

/-- The relation as numbers: each transition that is read has one. -/
theorem shows_relateReads (truthful : g.Truthful g.facts.nullable) :
    g.Shows (g.relateReads states (g.nonterminalTransitions states)) fun edges =>
      ∀ n m, (n, m) ∈ edges ↔ ∃ t t', (g.nonterminalTransitions states).all[n]? = some t ∧
        (g.nonterminalTransitions states).all[m]? = some t' ∧ g.ReadsOver states t t' := by
  rw [relateReads]
  refine shows_bind (shows_mapM fun t _ => shows_readsThrough settled auto truthful t) fun targets h => ?_
  have numbered : ∀ e ∈ (targets.zipIdx.flatMap fun (ts, n) =>
      ts.map fun t => (n, (g.nonterminalTransitions states).number? t)),
        ∃ e' : Nat × Nat, e.2.map (e.1, ·) = some e' := by
    rintro ⟨n, o⟩ mem
    obtain ⟨t, t', -, ⟨-, ⟨r, step⟩, vanishes⟩, rfl⟩ := (mem_edges h).1 mem
    have other : g.isInput t'.2 = false :=
      Bool.eq_false_iff.2 fun input => settled.not_vanishes input vanishes
    obtain ⟨m, at_m⟩ := exists_number.2 ⟨(auto.kind_of_goto settled step).2 other, r, step⟩
    exact ⟨(n, m), by rw [number?_eq_some.2 at_m]; rfl⟩
  obtain ⟨es, eq, mem⟩ := Attempt.exists_mapM_option numbered
  dsimp only
  rw [eq]
  refine shows_pure fun n m => ?_
  rw [mem]
  constructor
  · rintro ⟨⟨n', o⟩, listed, eq⟩
    obtain ⟨m', at_m, eq⟩ := Option.map_eq_some_iff.1 eq
    cases eq
    obtain ⟨t, t', at_n, reads, number⟩ := (mem_edges h).1 listed
    exact ⟨t, t', at_n, number?_eq_some.1 (number.trans at_m), reads⟩
  · rintro ⟨t, t', at_n, at_m, reads⟩
    refine ⟨(n, some m), (mem_edges h).2 ⟨t, t', at_n, reads, number?_eq_some.2 at_m⟩, rfl⟩

end Relations

/-! ## What is collected -/

theorem mem_getD_map {ts : Array Transition} {f : Transition → TerminalSet} :
    u ∈ (ts.map f).getD n ∅ ↔ ∃ t, ts[n]? = some t ∧ u ∈ f t := by
  rw [Array.getD_eq_getD_getElem?, Array.getElem?_map]
  cases ts[n]? <;> simp

theorem expects_of_drop {δ : List Int} (hp : g.byNumber.get? it.production = some p)
    (rest : p.right.drop it.position = id :: δ) :
    g.Expects it id ∧ p.right.drop it.advance.position = δ := by
  have expects : g.Expects it id := by
    refine ⟨p, hp, ?_⟩
    have head := congrArg (·[0]?) rest
    simpa using head
  rw [expects.drop_eq hp] at rest
  exact ⟨expects, (List.cons.inj rest).2⟩

section Collected

variable {edges : List (Nat × Nat)}
  (related : ∀ n m, (n, m) ∈ edges ↔ ∃ t t', (g.nonterminalTransitions states).all[n]? = some t ∧
    (g.nonterminalTransitions states).all[m]? = some t' ∧ g.ReadsOver states t t')

/-- The sets that are collected from what can be read right behind the transitions. -/
def collected (g : Grammar) (states : Array State) (edges : List (Nat × Nat)) : Array TerminalSet :=
  Digraph.saturate edges ((g.nonterminalTransitions states).all.map (g.directReads states))

include related in
theorem sources_inside : ∀ e ∈ edges,
    e.1 < ((g.nonterminalTransitions states).all.map (g.directReads states)).size := by
  rintro ⟨n, m⟩ edge
  obtain ⟨t, -, at_n, -⟩ := (related n m).1 edge
  rw [Array.size_map]
  exact (Array.getElem?_eq_some_iff.1 at_n).1

variable (settled : g.Settled marker start) (auto : g.Automaton states)
include related settled auto

theorem Automaton.behind_of_mem_collected (mem : u ∈ (g.collected states edges).getD n ∅)
    (at_n : (g.nonterminalTransitions states).all[n]? = some (q, id)) :
    g.Behind states q id u ∨ q = 0 ∧ id = start ∧ u = endMarkerId := by
  revert q id at_n
  refine Digraph.saturate_induction (sources_inside related) (P := fun n => ∀ {q : Nat} {id : Int},
    (g.nonterminalTransitions states).all[n]? = some (q, id) →
      g.Behind states q id u ∨ q = 0 ∧ id = start ∧ u = endMarkerId) ?_ ?_ mem
  · intro n own q id at_n
    obtain ⟨t, at_n', own⟩ := mem_getD_map.1 own
    rw [at_n] at at_n'
    cases at_n'
    obtain ⟨r, step, ⟨input, r', next⟩ | ⟨rfl, accepts⟩⟩ := mem_directReads.1 own
    · obtain ⟨-, it, holds, expects⟩ := auto.moves next
      exact .inl (auto.behind step holds (promises_of_expects expects input))
    · have accepts : Holds states r (Item.initial).advance := accepts
      have expects : g.Expects .initial start := ⟨_, settled.zero, rfl⟩
      have plain := isAction_of_isNonterminal (isNonterminal_iff.2 settled.start_kind)
      obtain ⟨rfl, holds⟩ := auto.traced.before_symbol step accepts expects plain
      exact .inr ⟨auto.eq_zero_of_initial settled holds, rfl, rfl⟩
  · intro n m edge ih q id at_n
    obtain ⟨t, ⟨r, a⟩, at_n', at_m, step, -, vanishes⟩ := (related n m).1 edge
    rw [at_n] at at_n'
    cases at_n'
    rcases ih at_m with ⟨it, holds, expects, promises⟩ | ⟨zero, -, -⟩
    · exact .inl (auto.behind step holds (promises.skip expects vanishes))
    · obtain rfl : r = 0 := zero
      exact absurd auto.holds_initial (auto.not_initial settled step)

theorem Automaton.mem_collected_of_promises (promises : g.Promises it u) (holds : Holds states r it)
    (at_n : (g.nonterminalTransitions states).all[n]? = some (q, id))
    (step : goto? states q id = some r) : u ∈ (g.collected states edges).getD n ∅ := by
  obtain ⟨p, hp, begins⟩ := promises
  generalize rest : p.right.drop it.position = δ at begins
  induction begins generalizing it p q r id n with
  | read input =>
    obtain ⟨expects, -⟩ := expects_of_drop hp rest
    obtain ⟨r', next⟩ := auto.total holds expects (isAction_of_isInput input)
    refine Digraph.mem_saturate_own (sources_inside related) (mem_getD_map.2 ⟨_, at_n, ?_⟩)
    exact mem_directReads.2 ⟨r, step, .inl ⟨input, r', next⟩⟩
  | skip vanishes _ ih =>
    rename_i a u δ _
    obtain ⟨expects, rest⟩ := expects_of_drop hp rest
    by_cases action : g.isAction a = true
    · exact ih (auto.skip holds expects action) at_n step _ hp rest
    · obtain ⟨r', next⟩ := auto.total holds expects (by simpa using action)
      have other : g.isInput a = false :=
        Bool.eq_false_iff.2 fun input => settled.not_vanishes input vanishes
      have nonterminal := (auto.kind_of_goto settled next).2 other
      obtain ⟨m, at_m⟩ := exists_number.2 ⟨nonterminal, r', next⟩
      have edge : (n, m) ∈ edges := (related n m).2 ⟨_, _, at_n, at_m, step, ⟨r', next⟩, vanishes⟩
      refine Digraph.mem_saturate_edge (sources_inside related) edge ?_
      exact ih (auto.shift holds expects next) at_m next _ hp rest
  | rule hp' _ ih =>
    obtain ⟨expects, -⟩ := expects_of_drop hp rest
    exact ih (auto.expand holds expects hp') at_n step _ hp' rfl

/-- What is collected at a transition is what can come behind it. -/
theorem Automaton.mem_collected (at_n : (g.nonterminalTransitions states).all[n]? = some (q, id)) :
    u ∈ (g.collected states edges).getD n ∅ ↔
      g.Behind states q id u ∨ q = 0 ∧ id = start ∧ u = endMarkerId := by
  constructor
  · exact fun mem => auto.behind_of_mem_collected related settled mem at_n
  · obtain ⟨-, r, step⟩ := exists_number.1 ⟨n, at_n⟩
    rintro (⟨it, holds, expects, promises⟩ | ⟨rfl, rfl, rfl⟩)
    · exact auto.mem_collected_of_promises related settled promises (auto.shift holds expects step)
        at_n step
    · have accepts := auto.shift auto.holds_initial ⟨_, settled.zero, rfl⟩ step
      refine Digraph.mem_saturate_own (sources_inside related) (mem_getD_map.2 ⟨_, at_n, ?_⟩)
      exact mem_directReads.2 ⟨r, step, .inr ⟨rfl, accepts⟩⟩

end Collected

end ParserGenerator.Grammar
