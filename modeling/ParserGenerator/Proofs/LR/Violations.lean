import ParserGenerator.Proofs.LR.Cells

/-!
# Cells that refuse chains

The list of the cells that refuse a chain of operators tells the truth. A cell that refuses stays as it is,
since what comes up for it later is a reduction by a larger number: the completed items of a state are
entered in the order of their productions, and production 0, which overwrites, comes first.
-/

namespace ParserGenerator.Grammar

variable {g : Grammar} {marker start : Int} {states : Array State} {q : Nat} {s : State} {t n m : Int}
  {p : Production} {kind : ActionKind} {r r' : Row} {it : Item}

/-- The cells of a row that refuse are listed, each once, when all productions up to one have been
entered. -/
structure Refusing (q : Nat) (n : Int) (r : Row) : Prop where
  nodup : r.violations.Nodup
  listed : ∀ v, v ∈ r.violations ↔
    v.state = q ∧ r.cells.get? v.terminal = some ⟨.nonassoc, v.production⟩
  bound : ∀ {t k}, r.cells.get? t = some ⟨.nonassoc, k⟩ → 0 < k ∧ k ≤ n

namespace Refusing

theorem mono (h : Refusing q n r) (le : n ≤ m) : Refusing q m r :=
  ⟨h.nodup, h.listed, fun cell => (h.bound cell).imp_right (·.trans le)⟩

theorem report (h : Refusing q n r) (c : Conflict) : Refusing q n (r.report c) :=
  ⟨h.nodup, h.listed, h.bound⟩

/-- A cell is entered that does not refuse and did not refuse before. -/
theorem put (h : Refusing q n r) (before : ∀ k, r.cells.get? t ≠ some ⟨.nonassoc, k⟩)
    (after : kind ≠ .nonassoc) : Refusing q n (r.put t ⟨kind, m⟩) := by
  have same : ∀ {x k}, (r.put t ⟨kind, m⟩).cells.get? x = some ⟨.nonassoc, k⟩ ↔
      r.cells.get? x = some ⟨.nonassoc, k⟩ := by
    intro x k
    rw [Row.put, OrderedMap.get?_insert]
    by_cases here : t = x
    · subst here
      rw [if_pos rfl]
      exact iff_of_false (fun eq => after (congrArg Action.kind (Option.some.inj eq))) (before k)
    · rw [if_neg here]
  exact ⟨h.nodup, fun v => (h.listed v).trans (and_congr_right fun _ => same.symm),
    fun cell => h.bound (same.1 cell)⟩

/-- A shift gives way to a refusal, which is listed. -/
theorem refuse (h : Refusing q n r) {target : Int} (held : r.cells.get? t = some ⟨.shift, target⟩)
    (positive : 0 < n) :
    Refusing q n { r.put t ⟨.nonassoc, n⟩ with violations := r.violations ++ [⟨q, t, n⟩] } := by
  have cell : ∀ {x k}, (r.put t ⟨.nonassoc, n⟩).cells.get? x = some ⟨.nonassoc, k⟩ ↔
      x = t ∧ k = n ∨ r.cells.get? x = some ⟨.nonassoc, k⟩ := by
    intro x k
    rw [Row.put, OrderedMap.get?_insert]
    by_cases here : t = x
    · subst here
      simp [held, eq_comm]
    · simp [here, Ne.symm here]
  refine ⟨?_, fun v => ?_, fun inside => ?_⟩
  · refine List.nodup_append.2 ⟨h.nodup, List.nodup_singleton _, ?_⟩
    rintro v mem _ last rfl
    rw [List.mem_singleton.1 last] at mem
    have refused := ((h.listed _).1 mem).2
    rw [held] at refused
    cases refused
  · rw [List.mem_append, List.mem_singleton, h.listed, cell]
    obtain ⟨state, terminal, production⟩ := v
    simp only [Violation.mk.injEq]
    constructor
    · rintro (⟨state, refused⟩ | ⟨state, terminal, production⟩)
      · exact ⟨state, .inr refused⟩
      · exact ⟨state, .inl ⟨terminal, production⟩⟩
    · rintro ⟨state, ⟨terminal, production⟩ | refused⟩
      · exact .inr ⟨state, terminal, production⟩
      · exact .inl ⟨state, refused⟩
  · rcases cell.1 inside with ⟨-, rfl⟩ | old
    · exact ⟨positive, le_refl _⟩
    · exact h.bound old

theorem putReduce (h : Refusing q n r) (positive : 0 < n) (named : it.production = n)
    (entered : Row.putReduce g q it p r t = .ok r') : Refusing q n r' := by
  subst named
  -- A cell that holds something else does not refuse.
  have other : ∀ {kind m}, r.cells.get? t = some ⟨kind, m⟩ → kind ≠ .nonassoc →
      ∀ k, r.cells.get? t ≠ some ⟨.nonassoc, k⟩ := by
    rintro kind m held plain k refused
    exact plain (congrArg Action.kind (Option.some.inj (held.symm.trans refused)))
  cases reducedTo entered with
  | vacant new => exact h.put (fun k held => by cases new.symm.trans held) (by decide)
  | kept _ _ => exact h.report _
  | won held _ => exact (h.report _).put (other held (by decide)) (by decide)
  | refused held _ => exact (h.report _).refuse held positive
  | @least kind _ _ held _ _ =>
    apply Refusing.report
    split
    · exact h
    · rename_i smaller
      -- The number in a cell that refuses is not larger.
      have plain : kind ≠ .nonassoc := by
        rintro rfl
        exact smaller (min_eq_left (h.bound held).2)
      exact h.put (other held plain) plain

/-- As long as only shifts are entered nothing is refused. -/
theorem none_refuses (h : Refusing q 0 r) (k : Int) : r.cells.get? t ≠ some ⟨.nonassoc, k⟩ := by
  intro refused
  have := h.bound refused
  omega

theorem putAccept (h : Refusing q 0 r) (entered : Row.putAccept g q r = .ok r') : Refusing q 0 r' := by
  cases acceptedTo entered with
  | plain _ => exact h.put h.none_refuses (by decide)
  | reported _ _ _ => exact (h.report _).put h.none_refuses (by decide)

theorem putCompleted {look : Item → Except Error TerminalSet} (h : Refusing q n r)
    (le : n ≤ it.production) (natural : 0 ≤ n)
    (entered : Row.putCompleted g q look r it = .ok r') : Refusing q it.production r' := by
  rw [Row.putCompleted] at entered
  split at entered
  · rename_i zero
    rw [zero] at le ⊢
    exact (h.mono le).putAccept entered
  · rename_i other
    split at entered
    · cases entered
    · obtain ⟨ts, -, entered⟩ := Attempt.bind_eq_ok.1 entered
      refine Attempt.foldlM_keeps ?_ (h.mono le) entered
      exact fun t _ _ _ h step => h.putReduce (by omega) rfl step

theorem foldlM_putCompleted {look : Item → Except Error TerminalSet} {its : List Item}
    (h : Refusing q n r) (natural : 0 ≤ n) (increasing : (its.map Item.production).Pairwise (· < ·))
    (above : ∀ it ∈ its, n ≤ it.production)
    (entered : its.foldlM (Row.putCompleted g q look) r = .ok r') : ∃ m, Refusing q m r' := by
  induction its generalizing n r with
  | nil =>
    cases entered
    exact ⟨n, h⟩
  | cons it its ih =>
    rw [List.map_cons, List.pairwise_cons] at increasing
    obtain ⟨r₁, first, rest⟩ := Attempt.bind_eq_ok.1 (List.foldlM_cons.symm.trans entered)
    have le := above it List.mem_cons_self
    refine ih (h.putCompleted le natural first) (natural.trans le) increasing.2 ?_ rest
    exact fun it' mem => le_of_lt (increasing.1 _ (List.mem_map_of_mem mem))

end Refusing

/-- The row of a state refuses where it says so. -/
theorem Settled.refusing_row (settled : g.Settled marker start) (auto : g.Automaton states)
    (at_q : states[q]? = some s) {look : Item → Except Error TerminalSet}
    (built : Row.build g q s look = .ok r) : ∃ n, Refusing q n r := by
  have shifts : Refusing q 0 ((s.transitions.toList.filter fun t => g.isInput t.1).foldl
      (fun (r : Row) t => r.put t.1 ⟨.shift, t.2⟩) {}) := by
    refine List.foldlRecOn _ _ ⟨List.nodup_nil, ?_, ?_⟩ fun r h _ _ => h.put h.none_refuses (by decide)
    · simp
    · intro t k cell
      rw [OrderedMap.get?_empty] at cell
      cases cell
  refine shifts.foldlM_putCompleted (le_refl 0) (settled.completed_increasing auto at_q) ?_ built
  intro it mem
  obtain ⟨n, p, hp, rfl, -⟩ := (settled.mem_completed auto at_q).1 mem
  obtain ⟨i, rfl⟩ := settled.natural hp
  exact Int.natCast_nonneg i

/-! ## All rows -/

section Rows

variable {rows : List Row} (refusing : ∀ {q row}, rows[q]? = some row → ∃ n, Refusing q n row)
include refusing

theorem nodup_flatMap_violations : (rows.flatMap Row.violations).Nodup := by
  refine List.nodup_flatMap.2 ⟨fun row mem => ?_, List.pairwise_iff_getElem.2 ?_⟩
  · obtain ⟨q, at_q⟩ := List.mem_iff_getElem?.1 mem
    obtain ⟨n, h⟩ := refusing at_q
    exact h.nodup
  · intro i j hi hj lt v mem mem'
    -- The states tell the rows apart.
    obtain ⟨n, h⟩ := refusing (List.getElem?_eq_getElem hi)
    obtain ⟨n', h'⟩ := refusing (List.getElem?_eq_getElem hj)
    have state := ((h.listed v).1 mem).1
    have state' := ((h'.listed v).1 mem').1
    omega

/-- Put together, the lists tell all cells that refuse. -/
theorem mem_flatMap_violations (v : Violation) : v ∈ rows.flatMap Row.violations ↔
    (OrderedMap.ofRows (rows.map Row.cells)).get? (v.state, v.terminal) =
      some ⟨.nonassoc, v.production⟩ := by
  rw [← OrderedMap.mem_toList, List.mem_flatMap]
  constructor
  · rintro ⟨row, mem, listed⟩
    obtain ⟨q, at_q⟩ := List.mem_iff_getElem?.1 mem
    obtain ⟨n, h⟩ := refusing at_q
    obtain ⟨state, cell⟩ := (h.listed v).1 listed
    rw [OrderedMap.mem_toList, state, OrderedMap.get?_ofRows, List.getElem?_map, at_q]
    exact cell
  · intro refused
    obtain ⟨q, cells, state, at_q, mem⟩ := OrderedMap.mem_numbered.1 refused
    rw [List.getElem?_map, Option.map_eq_some_iff] at at_q
    obtain ⟨row, at_q, rfl⟩ := at_q
    obtain ⟨n, h⟩ := refusing at_q
    refine ⟨row, List.mem_of_getElem? at_q, (h.listed v).2 ⟨by omega, ?_⟩⟩
    exact OrderedMap.mem_toList.1 mem

end Rows

end ParserGenerator.Grammar
