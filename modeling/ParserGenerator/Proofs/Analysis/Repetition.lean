import ParserGenerator.Proofs.LR.Contents

/-!
# The analysis repeated

The passes for FOLLOW climb: no set ever shrinks, every pass but the last lets some set grow, and the last
one finds all sets as they are. A second analysis starts from the facts that the first one left. It writes
only what is there already, so each of its passes is the last one, and the facts stay the same as data.
-/

namespace ParserGenerator

namespace IdMap

variable {β : Type} {id : Int}

/-- Writing a value where it is changes nothing. -/
theorem insert_eq_self {m : IdMap β} {b : β} (h : m.get? id = some b) : m.insert id b = m := by
  obtain ⟨places⟩ := m
  have inside : place id < places.size := by
    by_contra outside
    rw [get?, Array.getD_eq_getD_getElem?, Array.getElem?_eq_none (Nat.not_lt.1 outside)] at h
    cases h
  have at_id : places[place id] = some b := by
    rw [get?, Array.getD_eq_getD_getElem?, Array.getElem?_eq_getElem inside] at h
    exact h
  have full : place id + 1 - places.size = 0 := by omega
  rw [insert, grown, full, Array.replicate_zero, Array.append_empty, ← at_id, Array.setIfInBounds,
    dif_pos inside, Array.set_getElem_self]

theorem contains_insert {m : IdMap β} {b : β} {a : Int} :
    (m.insert id b).contains a = true ↔ id = a ∨ m.contains a = true := by
  rw [contains, get?_insert]
  split
  · exact iff_of_true rfl (.inl ‹_›)
  · exact ⟨.inr, fun h => h.resolve_left ‹_›⟩

/-- Members that are there may be added again. -/
theorem insert_union_eq_self {m : IdMap TerminalSet} {s : TerminalSet} (there : m.contains id = true)
    (sub : ∀ t ∈ s, t ∈ m.getD id ∅) : m.insert id ((m.getD id ∅).union s) = m := by
  obtain ⟨set, at_id⟩ := Option.isSome_iff_exists.1 there
  have own : m.getD id ∅ = set := by rw [getD, at_id, Option.getD_some]
  have same : (m.getD id ∅).union s = set := (OrderedSet.insertAll_eq_self sub).trans own
  rw [same, insert_eq_self at_id]

end IdMap

namespace Grammar

open Build

variable {g : Grammar} {marker start id a t : Int} {f f' : Facts} {s : TerminalSet}

/-! ## Facts that are there -/

theorem contains_addFirst : (f.addFirst id s).first.contains a = true ↔
    id = a ∨ f.first.contains a = true := IdMap.contains_insert

theorem contains_addFollow : (f.addFollow id s).follow.contains a = true ↔
    id = a ∨ f.follow.contains a = true := IdMap.contains_insert

theorem addFirst_eq_self (there : f.first.contains id = true) (sub : ∀ t ∈ s, t ∈ f.firstOf id) :
    f.addFirst id s = f :=
  congrArg (fun first => { f with first := first }) (IdMap.insert_union_eq_self there sub)

theorem addFollow_eq_self (there : f.follow.contains id = true) (sub : ∀ t ∈ s, t ∈ f.followOf id) :
    f.addFollow id s = f :=
  congrArg (fun follow => { f with follow := follow }) (IdMap.insert_union_eq_self there sub)

/-! ## Symbols that vanish -/

/-- Where every symbol has its answer, the call leaves the grammar as it is. -/
def Idle {α : Type} (x : Build α) (g : Grammar) : Prop := ∀ a g', x g = .ok a g' → g' = g

section Idle

variable {α β : Type} {x : Build α}

theorem idle_pure (a : α) : Idle (pure a) g := by
  intro b g' done
  cases done
  rfl

theorem idle_query (look : Grammar → Except Error α) : Idle (query look) g :=
  fun _ _ done => (query_eq_ok.1 done).2

theorem idle_bind {h : α → Build β} (first : Idle x g) (second : ∀ a, x g = .ok a g → Idle (h a) g) :
    Idle (x >>= h) g := by
  intro b g' done
  obtain ⟨a, g₁, done, rest⟩ := bind_eq_ok.1 done
  obtain rfl := first a g₁ done
  exact second a done b g' rest

theorem idle_get_bind {h : Grammar → Build β} (rest : Idle (h g) g) : Idle (get >>= h) g := rest

theorem idle_foldlM {step : β → α → Build β} {as : List α} (each : ∀ a ∈ as, ∀ b, Idle (step b a) g)
    (b : β) : Idle (as.foldlM step b) g := by
  induction as generalizing b with
  | nil => exact idle_pure b
  | cons a as ih =>
    obtain ⟨first, rest⟩ := List.forall_mem_cons.1 each
    rw [List.foldlM_cons]
    exact idle_bind (first b) fun b' _ => ih rest b'

theorem idle_forM {step : α → Build Unit} {as : List α} (each : ∀ a ∈ as, Idle (step a) g) :
    Idle (as.forM step) g := by
  induction as with
  | nil => exact idle_pure ()
  | cons a as ih =>
    obtain ⟨first, rest⟩ := List.forall_mem_cons.1 each
    exact idle_bind first fun _ _ => ih rest

variable (total : ∀ {id s}, g.symbols.at? id = some s → g.facts.isSettled id = true)
include total

theorem idle_markVanishing (found : List Int) (id : Int) : Idle (markVanishing found id) g := by
  refine idle_bind (idle_query _) fun s queried => idle_get_bind ?_
  rw [if_pos (total (SymbolTable.at?_of_symbol (query_eq_ok.1 queried).1))]
  exact idle_pure found

theorem idle_settleByKind (found : List Int) (s : Symbol) : Idle (settleByKind found s) g := by
  refine idle_bind (idle_query _) fun kind queried => idle_get_bind ?_
  obtain ⟨x, registered, -⟩ := Attempt.bind_eq_ok.1 (query_eq_ok.1 queried).1
  rw [if_pos (total (SymbolTable.at?_of_symbol registered))]
  split
  · exact idle_pure _
  · exact idle_pure _

theorem idle_await (state : List Int × List Waiting) (p : Production) : Idle (await state p) g := by
  refine idle_bind (idle_forM fun id _ => ?_) fun _ _ => idle_get_bind ?_
  · exact idle_bind (idle_query _) fun _ _ => idle_pure _
  · dsimp only
    split
    · exact idle_bind (idle_markVanishing total _ _) fun _ _ => idle_pure _
    · exact idle_pure _

theorem idle_spread (found : List Int) (waiting : List Waiting) : Idle (spread found waiting) g := by
  induction found, waiting using spread.induct with
  | case1 found waiting next quiet =>
    rw [spread, if_pos quiet]
    exact idle_pure ()
  | case2 found waiting next some ih =>
    rw [spread, if_neg some]
    exact idle_bind (idle_foldlM (fun w _ found => idle_markVanishing total found w.left) _)
      fun more _ => ih more

theorem idle_settleNullable (lawful : g.symbols.Lawful) : Idle settleNullable g := by
  refine idle_get_bind (idle_bind (idle_foldlM (fun s _ found => idle_settleByKind total found s) _)
    fun found _ => idle_get_bind (idle_bind (idle_foldlM (fun p _ state => idle_await total state p) _)
      fun state _ => idle_bind (idle_spread total _ _) fun _ _ => idle_forM fun s mem => idle_get_bind ?_))
  obtain ⟨id, at_s⟩ := SymbolTable.mem_symbols.1 mem
  rw [lawful.id_eq at_s, total at_s]
  exact idle_pure _

end Idle

/-! ## What a pass for FOLLOW writes -/

/-- FOLLOW got entries at some symbols, and their sets grew at the end; all else is as it was. -/
structure Widens (at_ : Int → Prop) (f f' : Facts) : Prop where
  first : f'.first = f.first
  kept : ∀ a, f.follow.contains a = true → f'.follow.contains a = true
  made : ∀ a, at_ a → f'.follow.contains a = true
  grown : ∀ a, (f.followOf a).toList <+: (f'.followOf a).toList
  others : ∀ a, ¬ at_ a → f'.followOf a = f.followOf a

namespace Widens

variable {P Q : Int → Prop} {f'' : Facts}

theorem refl (f : Facts) : Widens (fun _ => False) f f :=
  ⟨rfl, fun _ h => h, fun _ h => h.elim, fun _ => List.prefix_rfl, fun _ _ => rfl⟩

theorem trans (h : Widens P f f') (h' : Widens Q f' f'') : Widens (fun a => P a ∨ Q a) f f'' where
  first := h'.first.trans h.first
  kept a there := h'.kept a (h.kept a there)
  made a := fun o => o.elim (fun p => h'.kept a (h.made a p)) (h'.made a)
  grown a := (h.grown a).trans (h'.grown a)
  others a none := (h'.others a fun q => none (.inr q)).trans (h.others a fun p => none (.inl p))

theorem congr (h : Widens P f f') (same : ∀ a, P a ↔ Q a) : Widens Q f f' where
  first := h.first
  kept := h.kept
  made a q := h.made a ((same a).2 q)
  grown := h.grown
  others a none := h.others a fun p => none ((same a).1 p)

theorem size_le (h : Widens P f f') (a : Int) : (f.followOf a).size ≤ (f'.followOf a).size :=
  (h.grown a).length_le

/-- A set that is no larger is the same. -/
theorem followOf_eq (h : Widens P f f') (size : ¬ (f.followOf a).size < (f'.followOf a).size) :
    f'.followOf a = f.followOf a := by
  have same := (h.grown a).eq_of_length_le (Nat.not_lt.1 size)
  cases old : f.followOf a
  cases new : f'.followOf a
  rw [old, new] at same
  cases same
  rfl

end Widens

theorem widens_addFollow (f : Facts) (id : Int) (s : TerminalSet) :
    Widens (· = id) f (f.addFollow id s) := by
  have own : ∀ a, (f.addFollow id s).followOf a =
      if id = a then (f.followOf id).union s else f.followOf a := by
    intro a
    rw [Facts.followOf, Facts.addFollow, IdMap.getD, IdMap.get?_insert]
    split <;> rfl
  refine ⟨rfl, fun a there => contains_addFollow.2 (.inr there),
    fun a same => contains_addFollow.2 (.inl same.symm), fun a => ?_, fun a other => ?_⟩
  · rw [own]
    split
    · rename_i same
      rw [same]
      exact OrderedSet.prefix_insertAll _ _
    · exact List.prefix_rfl
  · rw [own, if_neg fun same => other same.symm]

theorem widens_occur (isNonterminal : Int → Bool) (left : Int) (f : Facts) (id : Int) (ids : List Int) :
    Widens (fun a => a = id ∧ isNonterminal a = true) f (occur isNonterminal left f id ids) := by
  rw [occur]
  split
  · rename_i nonterminal
    have here : ∀ a, a = id ↔ a = id ∧ isNonterminal a = true :=
      fun a => ⟨fun same => ⟨same, same ▸ nonterminal⟩, And.left⟩
    dsimp only
    split
    · exact ((widens_addFollow f id _).trans (widens_addFollow _ id _)).congr fun a =>
        (or_self_iff).trans (here a)
    · exact (widens_addFollow f id _).congr here
  · rename_i terminal
    refine (Widens.refl f).congr fun a => iff_of_false not_false ?_
    rintro ⟨rfl, nonterminal⟩
    exact terminal nonterminal

theorem widens_widenFollow (isNonterminal : Int → Bool) (left : Int) (f : Facts) (ids : List Int) :
    Widens (fun a => a ∈ ids ∧ isNonterminal a = true) f (widenFollow isNonterminal left f ids) := by
  induction ids generalizing f with
  | nil => exact (Widens.refl f).congr fun a => iff_of_false not_false fun h => List.not_mem_nil h.1
  | cons id ids ih =>
    rw [widenFollow_cons]
    refine ((widens_occur isNonterminal left f id ids).trans (ih _)).congr fun a => ?_
    rw [List.mem_cons, or_and_right]

theorem widens_followPass (g : Grammar) (f : Facts) :
    Widens (fun a => (∃ p ∈ g.sortedProductions, a ∈ p.right) ∧ g.isNonterminal a = true) f
      (g.followPass g.sortedProductions f).1 := by
  rw [followPass]
  generalize g.sortedProductions = ps
  induction ps generalizing f with
  | nil =>
    refine (Widens.refl f).congr fun a => iff_of_false not_false ?_
    rintro ⟨⟨p, mem, -⟩, -⟩
    cases mem
  | cons p ps ih =>
    refine ((widens_widenFollow g.isNonterminal p.left f p.right).trans (ih _)).congr fun a => ?_
    rw [← or_and_right, List.exists_mem_cons_iff]

/-! ## The first analysis -/

/-- Passes for FOLLOW from some facts to others, with the sizes behind each of them: no set shrinks, every
pass but the last lets some set grow, and the last changes no set. -/
inductive Rises (g : Grammar) : Facts → List (List (Int × Nat)) → Facts → Prop
  | last {f f' : Facts} (passed : (g.followPass g.sortedProductions f).1 = f')
      (still : ∀ a, f'.followOf a = f.followOf a) : Rises g f [g.followSizes f'] f'
  | next {f f₁ f' : Facts} {sizes : List (List (Int × Nat))}
      (passed : (g.followPass g.sortedProductions f).1 = f₁)
      (grows : ∀ a, (f.followOf a).size ≤ (f₁.followOf a).size)
      (some : ∃ a ∈ g.nonterminalIds, (f.followOf a).size < (f₁.followOf a).size)
      (later : Rises g f₁ sizes f') : Rises g f (g.followSizes f₁ :: sizes) f'

/-- Facts as an analysis leaves them, with an entry for everything that it looked at. -/
structure Established (g : Grammar) (marker start : Int) (f : Facts) : Prop extends g.Analysed start f where
  justified : ∀ {a t}, t ∈ f.firstOf a → g.Begins [a] t
  inputs : ∀ {t}, g.isInput t = true → f.first.contains t = true
  lefts : ∀ {n p}, g.byNumber.get? n = some p → f.first.contains p.left = true
  marker : f.follow.contains marker = true
  start : f.follow.contains start = true
  occurs : ∀ {n p id}, g.byNumber.get? n = some p → id ∈ p.right → g.isNonterminal id = true →
    f.follow.contains id = true

theorem Settled.mem_nonterminalIds (settled : g.Settled marker start) (nonterminal : g.isNonterminal a = true) :
    a ∈ g.nonterminalIds := by
  obtain ⟨s, at_s, kind⟩ := isNonterminal_iff.1 nonterminal
  exact List.mem_map.2 ⟨s, List.mem_filter.2 ⟨SymbolTable.mem_symbols.2 ⟨a, at_s⟩, decide_eq_true kind⟩,
    settled.table.id_eq at_s⟩

/-- Whether a pass let a set grow is told by its report. -/
theorem exists_grown_iff : (∃ a, (f.followOf a).size < ((g.followPass g.sortedProductions f).1.followOf a).size) ↔
    (g.followPass g.sortedProductions f).2 = true := by
  have widens := widens_followPass g f
  rw [followPass_grew]
  constructor
  · rintro ⟨a, size⟩
    by_contra none
    refine absurd (widens.others a fun there => none ?_) fun same => ?_
    · obtain ⟨⟨p, mem, occurs⟩, -⟩ := there
      exact ⟨p, mem, a, occurs, size⟩
    · rw [same] at size
      exact Nat.lt_irrefl _ size
  · rintro ⟨-, -, a, -, size⟩
    exact ⟨a, size⟩

/-- The passes rise until one changes nothing. -/
theorem Settled.rises_iterate (settled : g.Settled marker start) {f₀ f : Facts} (grounded : g.Grounded f₀)
    (h : g.Following start f₀ f) : ∃ f' passes,
      iterate (fun state => openPairs g.ids state.1.followOf) g.followStep (f, []) = (f', passes) ∧
      g.Rises f passes f' := by
  have rises : ∃ passes, (iterate (fun state => openPairs g.ids state.1.followOf) g.followStep (f, [])).2 =
      [] ++ passes ∧ g.Rises f passes
        (iterate (fun state => openPairs g.ids state.1.followOf) g.followStep (f, [])).1 := by
    refine iterate_induct (s := (f, []))
      (I := fun state => g.Following start f₀ state.1)
      (P := fun state last => ∃ passes, last.2 = state.2 ++ passes ∧ g.Rises state.1 passes last.1)
      (fun state h => h.followPass grounded) (fun state h => settled.followPass_falls grounded h)
      (fun state h still => ?_) (fun state last h grown later => ?_) h
    · refine ⟨_, rfl, .last rfl fun a => (widens_followPass g state.1).followOf_eq fun size => ?_⟩
      exact Bool.false_ne_true (still.symm.trans (exists_grown_iff.1 ⟨a, size⟩))
    · obtain ⟨passes, noted, rises⟩ := later
      have widens := widens_followPass g state.1
      obtain ⟨a, size⟩ := exists_grown_iff.2 grown
      have nonterminal : g.isNonterminal a = true := by
        by_contra other
        rw [widens.others a fun there => other there.2] at size
        exact Nat.lt_irrefl _ size
      refine ⟨g.followSizes (g.followStep state).1.1 :: passes, ?_,
        .next rfl widens.size_le ⟨a, settled.mem_nonterminalIds nonterminal, size⟩ rises⟩
      rw [noted]
      exact List.append_assoc _ _ _
  obtain ⟨passes, noted, rises⟩ := rises
  exact ⟨_, passes, Prod.ext rfl noted, rises⟩

theorem Rises.widens {passes : List (List (Int × Nat))} (h : g.Rises f passes f') :
    Widens (fun a => (∃ p ∈ g.sortedProductions, a ∈ p.right) ∧ g.isNonterminal a = true) f f' := by
  induction h with
  | last passed => exact passed ▸ widens_followPass g _
  | next passed _ _ _ ih =>
    exact ((passed ▸ widens_followPass g _ : Widens _ _ _).trans ih).congr fun a => or_self_iff

theorem contains_foldl_widenFirst {ps : List Production} (there : f.first.contains a = true) :
    (ps.foldl widenFirst f).first.contains a = true :=
  List.foldlRecOn (motive := fun f : Facts => f.first.contains a = true) ps widenFirst there
    fun _ there _ _ => contains_addFirst.2 (.inr there)

/-- Every symbol that can be read and every left-hand side has an entry in the FIRST sets. -/
theorem Settled.contains_iterate (settled : g.Settled marker start) (f : Facts) {f' : Facts}
    (passed : iterate (fun f => openPairs g.ids f.firstOf) (firstPass g.sortedProductions)
      (g.symbols.symbols.foldl seedFirst f) = f') :
    (∀ {t}, g.isInput t = true → f'.first.contains t = true) ∧
      ∀ {n p}, g.byNumber.get? n = some p → f'.first.contains p.left = true := by
  have seeded : ∀ s ∈ g.symbols.symbols, s.isInput = true →
      (g.symbols.symbols.foldl seedFirst f).first.contains s.id = true := by
    refine foldl_makes (P := fun (s : Symbol) (f : Facts) => s.isInput = true → f.first.contains s.id = true)
      (fun s s' f there input => ?_) fun s f input => ?_
    · rw [seedFirst]
      split
      · exact contains_addFirst.2 (.inr (there input))
      · exact there input
    · rw [seedFirst, if_pos input]
      exact contains_addFirst.2 (.inl rfl)
  obtain ⟨last, kept, eq⟩ : ∃ last : Facts,
      (∀ s ∈ g.symbols.symbols, s.isInput = true → last.first.contains s.id = true) ∧
      iterate (fun f => openPairs g.ids f.firstOf) (firstPass g.sortedProductions)
        (g.symbols.symbols.foldl seedFirst f) = (firstPass g.sortedProductions last).1 :=
    exists_iterate_eq (fun f kept s mem input => contains_foldl_widenFirst (kept s mem input)) seeded
  rw [← passed, eq]
  constructor
  · intro t input
    obtain ⟨s, at_t, input⟩ := isInput_iff.1 input
    rw [← settled.table.id_eq at_t]
    exact contains_foldl_widenFirst (kept s (SymbolTable.mem_symbols.2 ⟨t, at_t⟩) input)
  · intro n p hp
    refine foldl_makes (P := fun (p : Production) (f : Facts) => f.first.contains p.left = true)
      (fun p q f there => contains_addFirst.2 (.inr there)) (fun p f => ?_) p (mem_sortedProductions.2 ⟨n, hp⟩)
    exact contains_addFirst.2 (.inl rfl)

/-- The analysis of a settled grammar of which nothing was computed, pass by pass. -/
theorem Settled.exists_rises (settled : g.Settled marker start) (untouched : g.facts = {}) :
    ∃ f₀ passes f, analyze g = .ok passes (g.having f) ∧
      (∀ a t, t ∈ f₀.followOf a ↔ t = endMarkerId ∧ (a = marker ∨ a = start)) ∧
      g.Rises f₀ passes f ∧ g.Established marker start f := by
  have truthful : g.Truthful g.facts.nullable := by
    intro id b given
    rw [untouched] at given
    cases given
  obtain ⟨⟨⟩, _, answers_eq, answers, rfl, answered⟩ := (settled.ends_settleNullable truthful).exists_ok
  have empty : ({ g.facts with nullable := answers } : Facts).first = ∅ := by rw [untouched]
  have bare : ({ g.facts with nullable := answers } : Facts).follow = ∅ := by rw [untouched]
  obtain ⟨f₁, passed, seeded, closed⟩ :=
    settled.firstClosed_iterate answered.truthful (settled.seeded_foldl empty)
  have grounded : g.Grounded (ended f₁ marker start) := by
    refine ⟨?_, fun {a t} mem => ?_⟩
    · rw [(frame_ended f₁).1, seeded.nullable]
      exact answered.truthful
    · rw [Facts.firstOf, (frame_ended f₁).2] at mem
      exact seeded.members mem
  obtain ⟨f, passes, risen, rises⟩ :=
    settled.rises_iterate grounded (settled.following_ended (seeded.follow.trans bare))
  have analyzed : analyze g = .ok passes (g.having f) := by
    have closed : (!g.closed) = false := by rw [settled.closed]; rfl
    refine (guarded_eq closed).trans ((bind_of_ok answers_eq).trans ?_)
    refine (bind_of_ok (settled.computeFirst_eq _)).trans ?_
    rw [passed]
    exact settled.computeFollow_eq f₁ risen
  refine ⟨_, passes, f, analyzed, fun a t => ?_, rises, ?_⟩
  · rw [mem_ended, Facts.followOf, seeded.follow, bare]
    exact or_iff_right (OrderedSet.not_mem_empty t)
  · obtain ⟨f', same, analysed⟩ := (settled.ends_analyze untouched).of_ok analyzed
    obtain rfl : f = f' := congrArg Grammar.facts same
    obtain ⟨inputs, lefts⟩ := settled.contains_iterate _ passed
    have widens := rises.widens
    have first : f.first = f₁.first := widens.first.trans (frame_ended f₁).2
    exact {
      toAnalysed := analysed
      justified := fun mem => seeded.members (by rwa [Facts.firstOf, first] at mem)
      inputs := fun input => first ▸ inputs input
      lefts := fun hp => first ▸ lefts hp
      marker := widens.kept marker (contains_addFollow.2 (.inr (contains_addFollow.2 (.inl rfl))))
      start := widens.kept start (contains_addFollow.2 (.inl rfl))
      occurs := fun hp occurs nonterminal =>
        widens.made _ ⟨⟨_, mem_sortedProductions.2 ⟨_, hp⟩, occurs⟩, nonterminal⟩ }

/-! ## Every further analysis -/

section Established

variable (settled : g.Settled marker start) (h : g.Established marker start f)
include settled h

theorem Established.seedFirst_eq : g.symbols.symbols.foldl seedFirst f = f := by
  refine foldl_eq_self fun s mem => ?_
  rw [seedFirst]
  split
  · rename_i input
    obtain ⟨id, at_s⟩ := SymbolTable.mem_symbols.1 mem
    have at_s : g.symbols.at? s.id = some s := by rw [settled.table.id_eq at_s, at_s]
    have isInput := isInput_iff.2 ⟨s, at_s, input⟩
    refine addFirst_eq_self (h.inputs isInput) fun t own => ?_
    rw [OrderedSet.mem_ofList, List.mem_singleton] at own
    rw [own]
    exact (h.firsts ⟨s, at_s⟩).2 (.read isInput)
  · rfl

theorem Established.firstPass_eq : firstPass g.sortedProductions f = (f, false) := by
  have still : g.sortedProductions.foldl widenFirst f = f := by
    refine foldl_eq_self fun p mem => ?_
    obtain ⟨n, hp⟩ := mem_sortedProductions.1 mem
    obtain ⟨s, at_s, -⟩ := settled.left hp
    refine addFirst_eq_self (h.lefts hp) fun t own => (h.firsts ⟨s, at_s⟩).2 (.rule hp ?_)
    exact begins_of_mem_firstOfSequence h.answered.truthful h.justified own
  rw [firstPass, still]
  simp

theorem Established.ended_eq : ended f marker start = f := by
  have closes : endMarkerId ∈ f.followOf marker := h.closes settled.zero
  have only : ∀ {a}, endMarkerId ∈ f.followOf a → ∀ t ∈ OrderedSet.ofList [endMarkerId], t ∈ f.followOf a := by
    intro a mem t own
    rwa [List.mem_singleton.1 (OrderedSet.mem_ofList.1 own)]
  rw [ended, addFollow_eq_self h.marker (only closes), addFollow_eq_self h.start (only h.ends)]

omit settled in
theorem Established.widenFollow_eq {n : Int} {p : Production} (hp : g.byNumber.get? n = some p)
    {ids : List Int} (α : List Int) (right : p.right = α ++ ids) :
    widenFollow g.isNonterminal p.left f ids = f := by
  induction ids generalizing α with
  | nil => rfl
  | cons id ids ih =>
    have still : occur g.isNonterminal p.left f id ids = f := by
      rw [occur]
      split
      · rename_i nonterminal
        have there := h.occurs hp (right ▸ List.mem_append_right _ List.mem_cons_self) nonterminal
        have first : f.addFollow id (f.firstOfSequence ids).1 = f :=
          addFollow_eq_self there fun t own => h.begins hp right nonterminal
            (begins_of_mem_firstOfSequence h.answered.truthful h.justified own)
        dsimp only
        rw [first]
        split
        · rename_i vanishes
          exact addFollow_eq_self there fun t own => h.passes hp right nonterminal
            (vanish_of_firstOfSequence h.answered.truthful vanishes) own
        · rfl
      · rfl
    rw [widenFollow_cons, still]
    exact ih (α ++ [id]) (by rw [right, List.append_assoc]; rfl)

omit settled in
theorem Established.followPass_eq : g.followPass g.sortedProductions f = (f, false) := by
  have still : g.sortedProductions.foldl (fun f p => widenFollow g.isNonterminal p.left f p.right) f = f := by
    refine foldl_eq_self fun p mem => ?_
    obtain ⟨n, hp⟩ := mem_sortedProductions.1 mem
    exact h.widenFollow_eq hp [] rfl
  rw [followPass, still]
  simp

/-- A further analysis makes one pass for FOLLOW and leaves the facts as they are. -/
theorem Established.analyze_eq : analyze (g.having f) = .ok [g.followSizes f] (g.having f) := by
  have settled' := settled.having f
  have closed : (!(g.having f).closed) = false := by rw [settled'.closed]; rfl
  have answered := Answered.having (g := g) h.answered
  obtain ⟨⟨⟩, g', answers_eq, -⟩ := (settled'.ends_settleNullable answered.truthful).exists_ok
  obtain rfl : g' = g.having f := idle_settleNullable (fun at_s => isSettled_iff.2 (answered.total at_s))
    settled'.table _ _ answers_eq
  have step : g.followStep (f, []) = ((f, [g.followSizes f]), false) := by
    rw [followStep, h.followPass_eq]
    rfl
  refine (guarded_eq closed).trans ((bind_of_ok answers_eq).trans ?_)
  have firsts := settled.computeFirst_eq f
  rw [h.seedFirst_eq settled, iterate_eq_of_still (by rw [h.firstPass_eq settled]), h.firstPass_eq settled] at firsts
  refine (bind_of_ok firsts).trans (settled.computeFollow_eq f ?_)
  rw [h.ended_eq settled, iterate_eq_of_still (by rw [step]), step]

end Established

/-! ## Requests in any order -/

/-- What can be asked of a closed grammar. -/
inductive Request where
  | analysis
  | tables (m : Method)

/-- The sizes of the FOLLOW sets after each pass, or tables. -/
inductive Answer where
  | passes (sizes : List (List (Int × Nat)))
  | tables (t : Tables)

def Request.perform : Request → Build Answer
  | analysis => do return .passes (← analyze)
  | tables m => do return .tables (← buildTables m.name)

/-- What a request gives once the facts are there. -/
def Request.answer (sizes : List (Int × Nat)) (built : Method → Tables) : Request → Answer
  | analysis => .passes [sizes]
  | tables m => .tables (built m)

/-- Tables depend on nothing but what the analysis leaves. -/
theorem exists_buildTables_eq (m : Method) : ∃ rest : Build Tables, ∀ {g g' : Grammar}
    {passes : List (List (Int × Nat))}, g.closed = true → analyze g = .ok passes g' →
      buildTables m.name g = rest g' := by
  cases m with
  | slr => exact ⟨_, fun closed analyzed => (guarded_eq (by rw [closed]; rfl)).trans (bind_of_ok analyzed)⟩
  | lalr => exact ⟨_, fun closed analyzed => (guarded_eq (by rw [closed]; rfl)).trans (bind_of_ok analyzed)⟩

theorem mapM_eq_ok {α β : Type} {act : α → Build β} {answer : α → β}
    (each : ∀ a, act a g = .ok (answer a) g) (as : List α) : as.mapM act g = .ok (as.map answer) g := by
  induction as with
  | nil => rfl
  | cons a as ih =>
    rw [List.mapM_cons]
    exact (bind_of_ok (each a)).trans ((bind_of_ok ih).trans rfl)

/-- The first analysis or construction on a closed grammar that was made by calls puts down facts that
no later one changes, in whatever order and by whichever methods they come. The passes for FOLLOW rise from
the end marker behind the start marker and the start symbol; a later analysis makes one pass, and a later
construction by a method gives the same tables. -/
theorem Declared.repeatable (declared : Declared g) (closed : g.closed = true) :
    ∃ marker start f₀ passes f built, g.idOfStartMarker = .ok marker ∧ g.idOfStart = .ok start ∧
      (∀ a t, t ∈ f₀.followOf a ↔ t = endMarkerId ∧ (a = marker ∨ a = start)) ∧ g.Rises f₀ passes f ∧
      analyze g = .ok passes (g.having f) ∧
      (∀ m : Method, buildTables m.name g = .ok (built m) (g.having f)) ∧
      ∀ requests : List Request, requests.mapM Request.perform (g.having f) =
        .ok (requests.map (Request.answer (g.followSizes f) built)) (g.having f) := by
  obtain ⟨⟨marker, start, settled⟩, untouched⟩ := declared.complete closed
  obtain ⟨f₀, passes, f, analyzed, seeds, rises, h⟩ := settled.exists_rises untouched
  obtain ⟨passes', f', la, analyzed', -, -, -, build⟩ := settled.exists_contents untouched
  have same : g.having f = g.having f' := by
    rw [analyzed] at analyzed'
    cases analyzed'
    rfl
  rw [← same] at build
  choose built build _ using build
  have again := h.analyze_eq settled
  refine ⟨marker, start, f₀, passes, f, built, settled.idOf_marker, settled.idOfStart_eq g.facts, seeds, rises,
    analyzed, build, mapM_eq_ok fun request => ?_⟩
  cases request with
  | analysis => exact (bind_of_ok again).trans rfl
  | tables m =>
    obtain ⟨rest, eq⟩ := exists_buildTables_eq m
    have rebuilt := ((eq (g := g.having f) closed again).trans (eq closed analyzed).symm).trans (build m)
    exact (bind_of_ok rebuilt).trans rfl

/-- Both methods may take turns on the grammar of pointers. -/
theorem repeatable_pointers : ∃ passes f slr lalr, analyze pointers = .ok passes (pointers.having f) ∧
    [.tables .lalr, .analysis, .tables .slr, .tables .lalr].mapM Request.perform (pointers.having f) =
      .ok [.tables lalr, .passes [pointers.followSizes f], .tables slr, .tables lalr] (pointers.having f) := by
  obtain ⟨-, -, -, passes, f, built, -, -, -, -, analyzed, -, again⟩ :=
    declared_pointers.repeatable closed_pointers
  exact ⟨passes, f, built .slr, built .lalr, analyzed, again _⟩

end Grammar

end ParserGenerator
