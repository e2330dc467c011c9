import ParserGenerator.Proofs.LR.Contents
import ParserGenerator.Proofs.LR.Soundness

/-!
# The two methods compared

What follows a transition can stand behind its nonterminal anywhere, so the lookahead sets of the states
are parts of FOLLOW. The candidates for a cell by smaller sets are among those by larger ones, in the same
order. So what is in conflict by the smaller sets is in conflict by the larger ones too.
-/

namespace ParserGenerator.Grammar

variable {g : Grammar} {marker start : Int} {states : Array State} {q : Nat} {s : State}
  {x id t k : Int} {p : Production} {f : Facts} {la : Lookaheads}

/-! ## Lookahead sets are parts of FOLLOW -/

theorem Follow.succeeds (settled : g.Settled marker start) (h : Follow g states start q id t) :
    g.Succeeds start id t := by
  induction h with
  | ends => exact .ends
  | first _ hp right nonterminal first => exact .begins hp right nonterminal (settled.first_iff.1 first)
  | includes _ _ hp _ right nonterminal nullable _ ih =>
    exact .passes hp right nonterminal (settled.nullable_iff.1 nullable) ih

theorem Looks.mem_followOf (settled : g.Settled marker start) (analysed : g.Analysed start f)
    (hp : g.byNumber.get? k = some p) (h : g.Looks states start q k t) : t ∈ f.followOf p.left := by
  obtain ⟨p', o, hp', -, -, follow⟩ := h
  rw [hp] at hp'
  cases hp'
  exact analysed.mem_followOf.2 (follow.succeeds settled)

theorem Settled.lookOf_slr (settled : g.Settled marker start) {it : Item}
    (hp : g.byNumber.get? it.production = some p) :
    g.lookOf .slr la q it = .ok (g.facts.followOf p.left) := by
  obtain ⟨s, at_s, -⟩ := settled.left hp
  show g.followLookaheads it = _
  rw [followLookaheads, settled.coherent.productionAt?_eq hp]
  refine Attempt.bind_eq_ok.2 ⟨s, SymbolTable.symbol_eq_ok at_s, ?_⟩
  rw [settled.table.id_eq at_s]
  rfl

/-! ## Candidates by smaller sets -/

variable {look look' : Item → Except Error TerminalSet} {a : Action}

theorem mem_candidates_reduce (mem : a ∈ g.candidates s look x) (reduce : a.kind = .reduce) :
    ∃ it ts, it ∈ s.completed g ∧ it.production ≠ 0 ∧ look it = .ok ts ∧ x ∈ ts ∧
      a.argument = it.production := by
  rcases List.mem_append.1 mem with shift | completed
  · obtain ⟨r, -, rfl⟩ := Option.map_eq_some_iff.1 (Option.mem_toList.1 shift)
    cases reduce
  · obtain ⟨it, listed, asked⟩ := List.mem_filterMap.1 completed
    rcases demanded_eq_some.1 asked with ⟨-, same⟩ | ⟨other, ts, x', found, inside, same⟩
    · cases same
      cases reduce
    · cases same
      exact ⟨it, ts, listed, other, found, inside, rfl⟩

/-- What is demanded by a set is demanded by a larger one. -/
theorem demanded_mono {it : Item}
    (wider : it.production ≠ 0 → ∀ ts, look it = .ok ts → ∃ ts', look' it = .ok ts' ∧ ∀ x ∈ ts, x ∈ ts')
    (asked : demanded look x it = some a) : demanded look' x it = some a := by
  rw [demanded_eq_some] at asked ⊢
  rcases asked with accept | ⟨other, ts, x', found, inside, same⟩
  · exact .inl accept
  · obtain ⟨ts', found', within⟩ := wider other ts found
    exact .inr ⟨other, ts', x', found', within x' inside, same⟩

theorem candidates_sublist (wider : ∀ it ∈ s.completed g, it.production ≠ 0 →
      ∀ ts, look it = .ok ts → ∃ ts', look' it = .ok ts' ∧ ∀ x ∈ ts, x ∈ ts') :
    (g.candidates s look x).Sublist (g.candidates s look' x) := by
  rw [candidates, candidates]
  refine (List.Sublist.refl _).append ?_
  generalize s.completed g = its at wider
  induction its with
  | nil => exact .slnil
  | cons it its ih =>
    obtain ⟨own, rest⟩ := List.forall_mem_cons.1 wider
    cases asked : demanded look x it with
    | none =>
      rw [List.filterMap_cons_none asked, List.filterMap_cons]
      split
      · exact ih rest
      · exact (ih rest).cons _
    | some a =>
      rw [List.filterMap_cons_some asked, List.filterMap_cons_some (demanded_mono own asked)]
      exact (ih rest).cons_cons a

/-! ## Tables by smaller sets -/

theorem Permits.exists_state (h : g.Permits states q x a) : ∃ s, states[q]? = some s := by
  cases h with
  | shift step => exact ⟨_, (goto?_eq_some.1 step).choose_spec.1⟩
  | reduce _ _ holds => exact ⟨_, holds.choose_spec.1⟩
  | nonassoc _ _ holds => exact ⟨_, holds.choose_spec.1⟩
  | accept _ holds => exact ⟨_, holds.choose_spec.1⟩

section Refined

variable {look look' : Nat → Item → Except Error TerminalSet} {t t' : Tables}
  (fine : g.Contents states look t) (coarse : g.Contents states look' t')
  (wider : ∀ {q : Nat} {s : State}, states[q]? = some s → ∀ it ∈ s.completed g, it.production ≠ 0 →
    ∀ ts, look q it = .ok ts → ∃ ts', look' q it = .ok ts' ∧ ∀ x ∈ ts, x ∈ ts')
include fine coarse wider

/-- Where the larger sets make no conflict, the smaller ones make none either, and every cell by the
smaller sets is one by the larger sets. -/
theorem Contents.refine (clean : t'.conflicts = []) : t.conflicts = [] ∧
    ∀ k a, t.action.get? k = some a → t'.action.get? k = some a := by
  have single : ∀ {q : Nat} {s : State}, states[q]? = some s → ∀ x,
      (g.candidates s (look' q) x).length ≤ 1 := coarse.conflicts_eq_nil_iff.1 clean
  refine ⟨fine.conflicts_eq_nil_iff.2 fun at_q x => ?_, ?_⟩
  · exact (candidates_sublist (wider at_q)).length_le.trans (single at_q x)
  · rintro ⟨i, x⟩ a cell
    obtain ⟨q, same, -, permits⟩ := fine.permits cell
    obtain rfl : i = q := same
    obtain ⟨s, at_q⟩ := permits.exists_state
    rw [fine.cell at_q] at cell
    rw [coarse.cell at_q]
    have filled : g.candidates s (look q) x ≠ [] := by
      intro none
      rw [outcome_eq_none.2 none] at cell
      cases cell
    have same : g.candidates s (look q) x = g.candidates s (look' q) x :=
      (candidates_sublist (wider at_q)).eq_of_length_le
        ((single at_q x).trans (List.length_pos_iff.2 filled))
    rwa [← same]

end Refined

/-! ## Both methods -/

section Methods

variable (settled : g.Settled marker start) (analysed : g.Analysed start f)
  (sets : ∀ q k x, x ∈ la.at q k ↔ g.Looks g.explore start q k x)
include settled

/-- The number of a completed item is one of a production. -/
theorem Settled.exists_completed {it : Item} (at_q : g.explore[q]? = some s) (mem : it ∈ s.completed g) :
    ∃ p, g.byNumber.get? it.production = some p := by
  rw [State.completed, mem_sortBy, List.mem_filter] at mem
  obtain ⟨n, p, hp, rfl⟩ := settled.completed_eq settled.automaton ⟨s, at_q, mem.1⟩ mem.2
  exact ⟨p, hp⟩

include analysed sets

theorem Settled.lookOf_within (at_q : g.explore[q]? = some s) {it : Item} (mem : it ∈ s.completed g)
    {ts : TerminalSet} (found : (g.having f).lookOf .lalr la q it = .ok ts) :
    ∃ ts', (g.having f).lookOf .slr la q it = .ok ts' ∧ ∀ x ∈ ts, x ∈ ts' := by
  obtain ⟨p, hp⟩ := settled.exists_completed at_q mem
  refine ⟨_, (settled.having f).lookOf_slr hp, ?_⟩
  cases found
  exact fun x inside => ((sets q _ x).1 inside).mem_followOf settled analysed hp

/-- Candidates to reduce are in FOLLOW of the left-hand side, by either method. -/
theorem Settled.fits_candidates (m : Method) (at_q : g.explore[q]? = some s) :
    ∀ x, ∀ a ∈ (g.having f).candidates s ((g.having f).lookOf m la q) x, (g.having f).Fits x a := by
  intro x a mem reduce p hp
  obtain ⟨it, ts, listed, -, found, inside, argument⟩ := mem_candidates_reduce mem reduce
  rw [argument] at hp
  obtain ⟨ts', found', within⟩ : ∃ ts', (g.having f).lookOf .slr la q it = .ok ts' ∧ x ∈ ts' := by
    cases m with
    | slr => exact ⟨ts, found, inside⟩
    | lalr =>
      obtain ⟨ts', found', within⟩ := settled.lookOf_within analysed sets at_q listed found
      exact ⟨ts', found', within x inside⟩
  cases ((settled.having f).lookOf_slr hp).symm.trans found'
  exact within

end Methods

/-- The lookahead sets of a closed grammar that was made by calls are parts of FOLLOW. So no conflict is
with a terminal that cannot follow, both methods have the same states and the same goto cells, and where
FOLLOW makes no conflict the lookahead sets make none, and no cell that is not by FOLLOW too. -/
theorem Declared.lalr_within_slr (declared : Declared g) (closed : g.closed = true) :
    ∃ passes g₁ states la g₂ s g₃ t g₄, analyze g = .ok passes g₁ ∧ g₁.states = .ok states ∧
      computeLookaheads states g₁ = .ok la g₂ ∧
      buildTables Method.slr.name g = .ok s g₃ ∧ buildTables Method.lalr.name g = .ok t g₄ ∧
      (∀ (q : Nat) (n : Int) (p : Production), g.byNumber.get? n = some p → n ≠ 0 →
        Holds states q ⟨n, p.right.length⟩ → ∀ x ∈ la.at q n, x ∈ g₁.facts.followOf p.left) ∧
      (∀ c ∈ s.conflicts ++ t.conflicts, c.resolvedBy ≠ Conflict.byFollow) ∧
      s.stateCount = t.stateCount ∧ s.stateItems = t.stateItems ∧ s.goto = t.goto ∧
      (s.conflicts = [] → t.conflicts = [] ∧
        ∀ k a, t.action.get? k = some a → s.action.get? k = some a) := by
  obtain ⟨⟨marker, start, settled⟩, untouched⟩ := declared.complete closed
  obtain ⟨passes, f, la, analyzed, analysed, computed, sets, build⟩ := settled.exists_contents untouched
  obtain ⟨s, built_s, coarse⟩ := build .slr
  obtain ⟨t, built_t, fine⟩ := build .lalr
  refine ⟨passes, _, g.explore, la, _, s, _, t, _, analyzed, (settled.having f).states_eq, computed,
    built_s, built_t, ?_, ?_, ?_, ?_, ?_, ?_⟩
  · exact fun q n p hp _ _ x inside => ((sets q n x).1 inside).mem_followOf settled analysed hp
  · intro c mem
    rcases List.mem_append.1 mem with mem | mem
    · exact coarse.cause (settled.fits_candidates analysed sets .slr) c mem
    · exact fine.cause (settled.fits_candidates analysed sets .lalr) c mem
  · rw [coarse.count, fine.count]
  · exact Except.ok.inj (coarse.items.symm.trans fine.items)
  · rw [coarse.gotos, fine.gotos]
  · refine fine.refine coarse fun at_q it listed _ ts found => ?_
    exact settled.lookOf_within analysed sets at_q listed found

/-- Sequences of terms that are set off by commas, one of which may be left out. -/
def sequenceCalls : List Call :=
  [.declareTerminal ",", .declareTerminal "term",
    .addProduction "S" [.name "S", .name ",", .name "T"] none none,
    .addProduction "S" [.name "T"] none none,
    .addProduction "T" [.name "term"] none none,
    .addProduction "T" [] none none,
    .close none]

def sequences : Grammar := sequenceCalls.foldl Call.after .fresh

/-- For assignments FOLLOW makes a conflict where the lookahead sets make none, and for sequences neither
makes one. -/
theorem lalr_within_slr_pointers :
    (∃ s g₃ t g₄, buildTables Method.slr.name pointers = .ok s g₃ ∧
      buildTables Method.lalr.name pointers = .ok t g₄ ∧ s.conflicts.length = 1 ∧ t.conflicts = [] ∧
      (∀ c ∈ s.conflicts ++ t.conflicts, c.resolvedBy ≠ Conflict.byFollow) ∧
      s.stateItems = t.stateItems ∧ s.goto = t.goto) ∧
    ∃ s g₃ t g₄, buildTables Method.slr.name sequences = .ok s g₃ ∧
      buildTables Method.lalr.name sequences = .ok t g₄ ∧ s.conflicts = [] ∧ t.conflicts = [] ∧
      ∀ k a, t.action.get? k = some a → s.action.get? k = some a := by
  have declared : Declared sequences :=
    Declared.fresh.calls (by simp [sequenceCalls, Call.Fits, RightSymbol.Fits, startMarkerName])
  constructor
  · obtain ⟨-, -, -, -, -, s, g₃, t, g₄, -, -, -, built_s, built_t, -, causes, -, items, gotos, -⟩ :=
      declared_pointers.lalr_within_slr closed_pointers
    have tried : pointers.trial .slr assignment 8 = some (1, .accepted, [4, 4, 5, 1]) := by
      decide +kernel
    have tried' : pointers.trial .lalr assignment 8 = some (0, .accepted, [4, 4, 5, 1]) := by
      decide +kernel
    simp only [trial_eq built_s, Option.some.injEq, Prod.mk.injEq] at tried
    simp only [trial_eq built_t, Option.some.injEq, Prod.mk.injEq, List.length_eq_zero_iff] at tried'
    exact ⟨s, g₃, t, g₄, built_s, built_t, tried.1, tried'.1, causes, items, gotos⟩
  · obtain ⟨-, -, -, -, -, s, g₃, t, g₄, -, -, -, built_s, built_t, -, -, -, -, -, clean⟩ :=
      declared.lalr_within_slr (by decide +kernel)
    have tried : (sequences.trial .slr [] 0).map (·.1) = some 0 := by decide +kernel
    simp only [trial_eq built_s, Option.map_some, Option.some.injEq, List.length_eq_zero_iff] at tried
    obtain ⟨clean', cells⟩ := clean tried
    exact ⟨s, g₃, t, g₄, built_s, built_t, tried, clean', cells⟩

end ParserGenerator.Grammar
