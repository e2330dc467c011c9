import ParserGenerator.Proofs.Analysis.Frame
import ParserGenerator.Proofs.Grammar.Calls
import ParserGenerator.Proofs.LR.Reads
import ParserGenerator.Proofs.LR.Relations

/-!
# Lookahead sets

The sets that are collected along the ends of productions hold what follows the transitions, and the
lookahead set of a production in a state holds what follows the transitions from which it ends there. The
computation succeeds whether or not the questions about vanishing symbols were settled before.
-/

namespace ParserGenerator.Grammar

variable {g : Grammar} {marker start : Int} {states : Array State} {q n m : Nat} {id t k : Int}

/-- The terminals on which a completed production is reduced in a state. -/
def Looks (g : Grammar) (states : Array State) (start : Int) (q : Nat) (k t : Int) : Prop :=
  ∃ p o, g.byNumber.get? k = some p ∧ Holds states o ⟨k, 0⟩ ∧ Trail states o (g.erased p.right) q ∧
    Follow g states start o p.left t

theorem Follow.isInput (settled : g.Settled marker start) (h : Follow g states start q id t) :
    g.isInput t = true := by
  induction h with
  | ends => exact isInput_endMarker settled.toLawful
  | first _ _ _ _ first => exact first.1
  | includes _ _ _ _ _ _ _ _ ih => exact ih

section Followed

variable {edges : List (Nat × Nat)} {rel : Relations}
  (related : ∀ n m, (n, m) ∈ edges ↔ ∃ t t', (g.nonterminalTransitions states).all[n]? = some t ∧
    (g.nonterminalTransitions states).all[m]? = some t' ∧ g.ReadsOver states t t')
  (entered : g.Entered states (fun d => ∃ t p, (g.nonterminalTransitions states).all[d.1]? = some t ∧
    g.byNumber.get? d.2 = some p ∧ p.left = t.2) rel)

include related entered in
theorem includes_inside : ∀ e ∈ rel.includes, e.1 < (g.collected states edges).size := by
  rintro ⟨m, n⟩ edge
  obtain ⟨k, p, t, o, a, -, -, -, at_m, -⟩ := (entered.includes m n).1 edge
  rw [collected, Digraph.size_saturate (sources_inside related), Array.size_map]
  exact (Array.getElem?_eq_some_iff.1 at_m).1

variable (settled : g.Settled marker start) (auto : g.Automaton states)
include related entered settled auto

theorem Automaton.mem_followed (at_n : (g.nonterminalTransitions states).all[n]? = some (q, id)) :
    t ∈ (Digraph.saturate rel.includes (g.collected states edges)).getD n ∅ ↔
      Follow g states start q id t := by
  constructor
  · intro mem
    revert q id at_n
    refine Digraph.saturate_induction (includes_inside related entered)
      (P := fun n => ∀ {q : Nat} {id : Int}, (g.nonterminalTransitions states).all[n]? = some (q, id) →
        Follow g states start q id t) ?_ ?_ mem
    · intro n own q id at_n
      rcases (auto.mem_collected related settled at_n).1 own with behind | ⟨rfl, rfl, rfl⟩
      · obtain ⟨k, α, γ, p, holds, hp, right, first⟩ := (behind_iff settled.toLawful).1 behind
        exact .first holds hp right (exists_number.1 ⟨n, at_n⟩).1 first
      · exact .ends
    · intro m n edge ih q id at_m
      obtain ⟨k, p, ⟨o, b⟩, q', a, ⟨t', p', at_n, hp, left⟩, hp', at_n', at_m', β, γ, right,
        nonterminal, vanish, trail⟩ := (entered.includes m n).1 edge
      dsimp only at at_n hp left trail
      rw [hp] at hp'
      cases hp'
      rw [at_n] at at_n'
      cases at_n'
      rw [at_m] at at_m'
      cases at_m'
      obtain rfl : p.left = b := left
      obtain ⟨-, r, step⟩ := exists_number.1 ⟨n, at_n⟩
      obtain ⟨-, it, holds, expects⟩ := auto.moves step
      have ne : k ≠ 0 := by
        rintro rfl
        rw [settled.zero] at hp
        cases hp
        exact settled.marker_ne expects
      exact .includes (auto.expand holds expects hp) trail hp ne right nonterminal
        (settled.nullable_iff.2 vanish) (ih at_n)
  · intro follow
    induction follow generalizing n with
    | ends =>
      refine Digraph.mem_saturate_own (includes_inside related entered) ?_
      exact (auto.mem_collected related settled at_n).2 (.inr ⟨rfl, rfl, rfl⟩)
    | first holds hp right _ first =>
      refine Digraph.mem_saturate_own (includes_inside related entered) ?_
      refine (auto.mem_collected related settled at_n).2 (.inl ?_)
      exact (behind_iff settled.toLawful).2 ⟨_, _, _, _, holds, hp, right, first⟩
    | includes holds trail hp ne right nonterminal nullable _ ih =>
      obtain ⟨r, -, step, -⟩ := auto.goto_left settled.toLawful holds hp ne
      obtain ⟨m, at_m⟩ := exists_number.2 ⟨settled.isNonterminal_left hp, r, step⟩
      refine Digraph.mem_saturate_edge (includes_inside related entered) ?_ (ih at_m)
      exact (entered.includes n m).2 ⟨_, _, _, _, _, ⟨_, _, at_m, hp, rfl⟩, hp, at_m, at_n, _, _, right,
        nonterminal, settled.nullable_iff.1 nullable, trail⟩

end Followed

/-! ## Lookahead sets -/

theorem mem_at_map {rows : Array (OrderedMap Int (List Nat))} {sets : Array TerminalSet} :
    t ∈ Lookaheads.at (rows.map fun row => row.mapValues fun _ sources =>
        sources.foldl (fun (s : TerminalSet) n => s.union (sets.getD n ∅)) ∅) q k ↔
      ∃ n ∈ (rows.getD q ∅).getD k [], t ∈ sets.getD n ∅ := by
  have union : ∀ ns : List Nat, t ∈ ns.foldl (fun (s : TerminalSet) n => s.union (sets.getD n ∅)) ∅ ↔
      ∃ n ∈ ns, t ∈ sets.getD n ∅ := by
    intro ns
    have mapped : ns.foldl (fun (s : TerminalSet) n => s.union (sets.getD n ∅)) ∅ =
        (ns.map fun n => sets.getD n ∅).foldl OrderedSet.union ∅ := List.foldl_map.symm
    rw [mapped, Digraph.mem_foldl_union]
    simp
  rw [Lookaheads.at, Array.getD_eq_getD_getElem?, Array.getElem?_map, Array.getD_eq_getD_getElem?]
  cases rows[q]? with
  | none => simp [OrderedMap.getD]
  | some row =>
    simp only [Option.map_some, Option.getD_some, OrderedMap.getD, OrderedMap.get?_mapValues]
    cases row.get? k with
    | none => simp
    | some ns => exact union ns

section Lookaheads

variable (settled : g.Settled marker start) (auto : g.Automaton states)
include settled auto

/-- Only behind symbols that are expected there is something that follows. -/
theorem Follow.expected (h : Follow g states start q id t) :
    ∃ it, Holds states q it ∧ g.Expects it id := by
  cases h with
  | ends => exact ⟨.initial, auto.holds_initial, _, settled.zero, rfl⟩
  | first holds hp right _ _ => exact ⟨_, holds, expects_of_right hp right⟩
  | includes holds trail hp _ right _ _ _ =>
    obtain ⟨r, trail', inside⟩ := auto.walk (α := []) hp right holds
    obtain rfl := trail'.unique trail
    exact ⟨_, inside, expects_of_right hp right⟩

/-- A survey of the lookahead sets shows those of the definition. -/
theorem shows_lookaheads (truthful : g.Truthful g.facts.nullable) :
    g.Shows (g.lookaheads states) fun la => ∀ q k t, t ∈ la.at q k ↔ g.Looks states start q k t := by
  rw [lookaheads]
  refine shows_bind (shows_relateReads settled auto truthful) fun edges related => ?_
  refine shows_bind (shows_relate settled auto truthful) fun rel entered => ?_
  refine shows_pure fun q k t => ?_
  rw [mem_at_map]
  constructor
  · rintro ⟨n, mem, followed⟩
    obtain ⟨⟨⟨o, a⟩, p, at_n, hp, left⟩, p', t', hp', at_n', trail⟩ := (entered.lookback q k n).1 mem
    dsimp only at at_n hp left
    rw [hp] at hp'
    cases hp'
    rw [at_n] at at_n'
    cases at_n'
    obtain rfl : p.left = a := left
    obtain ⟨-, r, step⟩ := exists_number.1 ⟨n, at_n⟩
    obtain ⟨-, it, holds, expects⟩ := auto.moves step
    exact ⟨p, o, hp, auto.expand holds expects hp, trail,
      (auto.mem_followed related entered settled at_n).1 followed⟩
  · rintro ⟨p, o, hp, holds, trail, follow⟩
    obtain ⟨it, holds', expects⟩ := follow.expected settled auto
    have nonterminal := settled.isNonterminal_left hp
    obtain ⟨r, step⟩ := auto.total holds' expects (isAction_of_isNonterminal nonterminal)
    obtain ⟨n, at_n⟩ := exists_number.2 ⟨nonterminal, r, step⟩
    refine ⟨n, (entered.lookback q k n).2 ⟨⟨_, p, at_n, hp, rfl⟩, p, _, hp, at_n, trail⟩, ?_⟩
    exact (auto.mem_followed related entered settled at_n).2 follow

end Lookaheads

theorem Ahead.having {γ : List Int} {u : Int} (h : g.Ahead γ t u) (f : Facts) :
    (g.having f).Ahead γ t u := by
  rcases h with ⟨input, δ, derives⟩ | ⟨nullable, eq⟩
  · exact .inl ⟨input, δ, derives.having f⟩
  · exact .inr ⟨Derives.having nullable f, eq⟩

theorem Canonical.having {γ : List Int} {it : Item} (h : g.Canonical γ it t) (f : Facts) :
    (g.having f).Canonical γ it t := by
  induction h with
  | first => exact .first
  | expand _ hp right hp' ahead ih => exact ih.expand hp right hp' (ahead.having f)
  | skip _ hp right action ih => exact ih.skip hp right action
  | move _ hp right plain ih => exact ih.move hp right plain

theorem Follow.having (h : Follow g states start q id t) (f : Facts) :
    Follow (g.having f) states start q id t := by
  induction h with
  | ends => exact .ends
  | first holds hp right nonterminal first =>
    obtain ⟨input, δ, derives⟩ := first
    exact .first holds hp right nonterminal ⟨input, δ, derives.having f⟩
  | includes holds trail hp ne right nonterminal nullable _ ih =>
    exact .includes holds trail hp ne right nonterminal (Derives.having nullable f) ih

theorem Looks.having (h : g.Looks states start q k t) (f : Facts) :
    (g.having f).Looks states start q k t := by
  obtain ⟨p, o, hp, holds, trail, follow⟩ := h
  exact ⟨p, o, hp, holds, trail, follow.having f⟩

theorem looks_having {f : Facts} :
    (g.having f).Looks states start q k t ↔ g.Looks states start q k t :=
  ⟨fun h => h.having g.facts, fun h => h.having f⟩

/-- The lookahead sets of the states are computed from what is settled, or after all is settled. -/
theorem Settled.ends_computeLookaheads (settled : g.Settled marker start)
    (truthful : g.Truthful g.facts.nullable) :
    Build.Ends (computeLookaheads g.explore) g
      (fun la g' => (∃ f, g' = g.having f) ∧
        ∀ q k t, t ∈ la.at q k ↔ g.Looks g.explore start q k t)
      (fun _ => False) := by
  rw [computeLookaheads]
  apply Build.ends_get_bind
  rcases shows_lookaheads settled settled.automaton truthful with
    ⟨la, eq, exact_sets⟩ | ⟨id, eq, unsettled, s, at_s⟩
  · rw [eq]
    exact Build.ends_pure ⟨⟨g.facts, rfl⟩, exact_sets⟩
  · rw [eq]
    apply Build.ends_bind (settled.ends_isNullable truthful at_s unsettled)
    rintro - g' ⟨answers, rfl, answered⟩
    have settled' := settled.having { g.facts with nullable := answers }
    have answered' := Answered.having (f := { g.facts with nullable := answers }) answered
    have shows_all := shows_lookaheads settled' settled'.automaton answered'.truthful
    obtain ⟨la, shown, exact_sets⟩ := shows_all.exists_ok answered'
    have answer : ((g.knowing answers).lookaheads g.explore).mapError Obstacle.cause = .ok la := by
      have shown : (g.knowing answers).lookaheads g.explore = .ok la := shown
      rw [shown]
      rfl
    rw [Build.Ends, Build.query_of_ok answer]
    refine ⟨⟨_, rfl⟩, fun q k t => ?_⟩
    rw [exact_sets, explore_having]
    exact looks_having

/-- With a lookahead with which it is canonical behind a path to a state a production is reduced there. -/
theorem Canonical.looks (settled : g.Settled marker start) (auto : g.Automaton states) {p : Production}
    {γ : List Int} (hp : g.byNumber.get? k = some p) (ne : k ≠ 0) (trail : Trail states 0 γ q)
    (h : g.Canonical γ ⟨k, p.right.length⟩ t) : g.Looks states start q k t := by
  obtain ⟨p', δ, o, hp', rfl, before, holds, ⟨zero, -⟩ | ⟨-, follow⟩⟩ := h.follow settled auto
  · exact absurd zero ne
  · dsimp only at hp' trail
    rw [hp] at hp'
    cases hp'
    rw [List.take_length] at trail
    obtain ⟨o', before', along⟩ := trail.split
    obtain rfl := before'.unique before
    exact ⟨p, o', hp, holds, along, follow⟩

/-- In a productive grammar a completed production is reduced on a terminal exactly if it is canonical with
it behind some path to the state. -/
theorem Settled.looks_iff_canonical (settled : g.Settled marker start) (auto : g.Automaton states)
    (productive : g.Productive) {p : Production} (hp : g.byNumber.get? k = some p) (ne : k ≠ 0) :
    g.Looks states start q k t ↔
      ∃ γ, Trail states 0 γ q ∧ g.Canonical γ ⟨k, p.right.length⟩ t := by
  constructor
  · rintro ⟨p', o, hp', holds, along, follow⟩
    rw [hp] at hp'
    cases hp'
    obtain ⟨γ, trail, all⟩ := follow.canonical settled productive auto
    have right : p.right = [] ++ (p.right ++ []) := by simp
    exact ⟨γ ++ g.erased p.right, trail.append along, (all hp rfl).walk (α := []) hp right⟩
  · rintro ⟨γ, trail, canonical⟩
    exact canonical.looks settled auto hp ne trail

theorem Declared.settled_at (declared : Declared g) (closed : g.closed = true)
    (started : g.idOfStart = .ok start) : (∃ marker, g.Settled marker start) ∧ g.facts = {} := by
  obtain ⟨⟨marker, start', settled⟩, untouched⟩ := declared.complete closed
  obtain rfl : start = start' := Except.ok.inj (started.symm.trans (settled.idOfStart_eq g.facts))
  exact ⟨⟨marker, settled⟩, untouched⟩

/-- For a closed grammar that was made by calls the lookahead sets are computed as they are defined: a
completed production has in its state what follows the transitions over its left-hand side from where it
began. If every nonterminal derives a word, these are the terminals with which it is canonical, and with
which it is valid in rightmost derivations, behind a path to the state. -/
theorem Declared.lookahead_sets (declared : Declared g) (closed : g.closed = true)
    (started : g.idOfStart = .ok start) :
    ∃ states la g', g.states = .ok states ∧ computeLookaheads states g = .ok la g' ∧
      ∀ {q n p}, g.byNumber.get? n = some p → n ≠ 0 → Holds states q ⟨n, p.right.length⟩ →
        (∀ t, t ∈ la.at q n ↔ ∃ o, Holds states o ⟨n, 0⟩ ∧ Trail states o (g.erased p.right) q ∧
          Follow g states start o p.left t) ∧
        (g.Productive → ∀ t,
          (t ∈ la.at q n ↔ ∃ γ, Trail states 0 γ q ∧ g.Canonical γ ⟨n, p.right.length⟩ t) ∧
          (t ∈ la.at q n ↔ ∃ γ, Trail states 0 γ q ∧ g.ValidFor start γ ⟨n, p.right.length⟩ t)) := by
  obtain ⟨⟨marker, settled⟩, untouched⟩ := declared.settled_at closed started
  have truthful : g.Truthful g.facts.nullable := by
    intro id b given
    rw [untouched] at given
    cases given
  obtain ⟨la, g', ended, -, exact_sets⟩ := (settled.ends_computeLookaheads truthful).exists_ok
  refine ⟨g.explore, la, g', settled.states_eq, ended, ?_⟩
  intro q n p hp ne holds
  refine ⟨fun t => ?_, fun productive t => ?_⟩
  · rw [exact_sets]
    constructor
    · rintro ⟨p', o, hp', rest⟩
      rw [hp] at hp'
      cases hp'
      exact ⟨o, rest⟩
    · rintro ⟨o, rest⟩
      exact ⟨p, o, hp, rest⟩
  · have canonical := settled.looks_iff_canonical (q := q) (t := t) settled.automaton productive hp ne
    have valid : ∀ γ, g.Canonical γ ⟨n, p.right.length⟩ t ↔
        g.ValidFor start γ ⟨n, p.right.length⟩ t :=
      fun γ => settled.canonical_iff_validFor productive ne
    rw [exact_sets, canonical]
    simp only [valid, and_self]

theorem productive_pointers : pointers.Productive := by
  have known : ∀ s ∈ pointers.symbols.symbols, s.kind = .nonterminal →
      s.id = 7 ∨ s.id = 8 ∨ s.id = 9 ∨ s.id = 11 := by decide +kernel
  have place : pointers.Yields [8] [5] :=
    .replace (n := 4) (by decide +kernel) (.read (by decide +kernel) .nil) .nil
  have value : pointers.Yields [9] [5] := .replace (n := 5) (by decide +kernel) place .nil
  have statement : pointers.Yields [7] [5] := .replace (n := 2) (by decide +kernel) value .nil
  have whole : pointers.Yields [11] [5] := .replace (n := 0) (by decide +kernel) statement .nil
  intro id nonterminal
  have yields : pointers.Yields [id] [5] := by
    obtain ⟨⟨_, _, settled⟩, -⟩ := declared_pointers.complete closed_pointers
    obtain ⟨s, at_s, kind⟩ := isNonterminal_iff.1 nonterminal
    have listed := known s (SymbolTable.mem_symbols.2 ⟨id, at_s⟩) kind
    rw [settled.table.id_eq at_s] at listed
    rcases listed with rfl | rfl | rfl | rfl <;> assumption
  obtain ⟨ns, derivation⟩ := yields.rightmost
  exact ⟨[5], yields.terminals, derivation.derives⟩

/-- The places that are read as values, in the state behind a place that an assignment can begin with. -/
theorem lookahead_sets_pointers :
    ∃ states la g', pointers.states = .ok states ∧ computeLookaheads states pointers = .ok la g' ∧
      (∀ t, t ∈ la.at 2 5 ↔ ∃ o, Holds states o ⟨5, 0⟩ ∧ Trail states o [8] 2 ∧
        Follow pointers states 7 o 9 t) ∧
      ∀ t, (t ∈ la.at 2 5 ↔ ∃ γ, Trail states 0 γ 2 ∧ pointers.Canonical γ ⟨5, 2⟩ t) ∧
        (t ∈ la.at 2 5 ↔ ∃ γ, Trail states 0 γ 2 ∧ pointers.ValidFor 7 γ ⟨5, 2⟩ t) := by
  obtain ⟨states, la, g', found, computed, exact_sets⟩ :=
    declared_pointers.lookahead_sets closed_pointers idOfStart_pointers
  obtain ⟨⟨_, _, settled⟩, -⟩ := declared_pointers.complete closed_pointers
  obtain rfl := Except.ok.inj (found.symm.trans settled.states_eq)
  have replaces : pointers.Replaces 5 9 [8] := by decide +kernel
  have lengths : (pointers.byNumber.get? 5).map (·.right.length) = some 2 := by decide +kernel
  have holds : Holds pointers.explore 2 ⟨5, 2⟩ := by decide +kernel
  obtain ⟨p, hp, left, erased⟩ := replaces
  rw [hp, Option.map_some, Option.some.injEq] at lengths
  have sets := exact_sets hp (by decide) (by rwa [lengths])
  rw [left, lengths, erased] at sets
  exact ⟨_, la, g', found, computed, sets.1, sets.2 productive_pointers⟩

end ParserGenerator.Grammar
