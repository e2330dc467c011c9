import ParserGenerator.Proofs.LR.Cells
import ParserGenerator.Proofs.LR.Tables
import ParserGenerator.Proofs.LR.Violations

/-!
# The contents of tables

Every cell of freshly built tables holds what comes of its candidates. All but one of the candidates are
reported, and the cells that refuse are listed. The states and the analysis are the same for both methods,
and so are the goto cells.
-/

namespace ParserGenerator.Grammar

open Build

variable {g : Grammar} {marker start : Int} {states : Array State} {q : Nat} {s : State} {t : Tables}
  {look : Nat → Item → Except Error TerminalSet} {m : Method} {la : Lookaheads}

/-- Tables with the cells and the reports that the candidates in the states give rise to. -/
structure Contents (g : Grammar) (states : Array State) (look : Nat → Item → Except Error TerminalSet)
    (t : Tables) : Prop extends Tabled g states t where
  cell : ∀ {q : Nat} {s : State}, states[q]? = some s → ∀ x,
    t.action.get? ((q : Int), x) = outcome (g.verdict x) (g.candidates s (look q) x)
  listed : ∀ {q : Nat} {s : State}, states[q]? = some s → ∀ x,
    (t.conflicts.filter fun c => c.state = (q : Int) ∧ c.terminal = x).map .ok =
      g.disputes q x (g.candidates s (look q) x)
  sources : ∀ c ∈ t.conflicts, ∃ (q : Nat) (s : State), states[q]? = some s ∧ c.state = q
  cause : (∀ {q : Nat} {s : State}, states[q]? = some s → ∀ x, ∀ a ∈ g.candidates s (look q) x,
    g.Fits x a) → ∀ c ∈ t.conflicts, c.resolvedBy ≠ Conflict.byFollow
  count : t.stateCount = states.size
  gotos : t.goto = OrderedMap.ofRows (states.toList.map g.gotoCells)
  items : states.toList.mapM (fun s => s.items.mapM (Item.format g)) = .ok t.stateItems
  once : t.violations.Nodup
  refused : ∀ v, v ∈ t.violations ↔
    t.action.get? (v.state, v.terminal) = some ⟨.nonassoc, v.production⟩

/-- The reports on one state are those of its row. -/
theorem filter_flatMap_conflicts {rows : List Row} {first : Nat}
    (state : ∀ {i row}, rows[i]? = some row → ∀ c ∈ row.conflicts, c.state = ((first + i : Nat) : Int))
    {i : Nat} {row : Row} (at_i : rows[i]? = some row) (x : Int) :
    (rows.flatMap Row.conflicts).filter (fun c => c.state = ((first + i : Nat) : Int) ∧ c.terminal = x) =
      row.conflicts.filter (·.terminal = x) := by
  induction rows generalizing first i with
  | nil => cases at_i
  | cons head rows ih =>
    have head_state : ∀ c ∈ head.conflicts, c.state = (first : Int) := state (i := 0) rfl
    have later : ∀ {i row}, rows[i]? = some row → ∀ c ∈ row.conflicts,
        c.state = ((first + 1 + i : Nat) : Int) := by
      intro i row at_i c mem
      rw [state (i := i + 1) at_i c mem]
      omega
    rw [List.flatMap_cons, List.filter_append]
    cases i with
    | zero =>
      cases at_i
      have others : (rows.flatMap Row.conflicts).filter
          (fun c => c.state = ((first + 0 : Nat) : Int) ∧ c.terminal = x) = [] := by
        refine List.filter_eq_nil_iff.2 fun c mem => ?_
        obtain ⟨row, listed, mem⟩ := List.mem_flatMap.1 mem
        obtain ⟨i, at_i⟩ := List.mem_iff_getElem?.1 listed
        have := later at_i c mem
        simp only [decide_eq_true_eq]
        omega
      rw [others, List.append_nil]
      refine List.filter_congr fun c mem => ?_
      simp [head_state c mem]
    | succ i =>
      have others : head.conflicts.filter
          (fun c => c.state = ((first + (i + 1) : Nat) : Int) ∧ c.terminal = x) = [] := by
        refine List.filter_eq_nil_iff.2 fun c mem => ?_
        have := head_state c mem
        simp only [decide_eq_true_eq]
        omega
      have same : first + (i + 1) = first + 1 + i := by omega
      rw [others, List.nil_append, same]
      exact ih later at_i

/-! ## Rows of all states -/

/-- Rows for all states in their order, each settled for its candidates, with its refusals listed. -/
structure Rowed (g : Grammar) (states : Array State) (look : Nat → Item → Except Error TerminalSet)
    (rows : List Row) : Prop where
  exists_row : ∀ {q : Nat} {s : State}, states[q]? = some s → ∃ row, rows[q]? = some row
  source : ∀ {q : Nat} {row : Row}, rows[q]? = some row → ∃ s, states[q]? = some s ∧
    g.Weighs q (g.candidates s (look q)) row ∧ ∃ n, Refusing q n row

namespace Rowed

variable {rows : List Row} (h : g.Rowed states look rows)
include h

theorem weighed (at_q : states[q]? = some s) :
    ∃ row, rows[q]? = some row ∧ g.Weighs q (g.candidates s (look q)) row := by
  obtain ⟨row, at_row⟩ := h.exists_row at_q
  obtain ⟨s', at_q', weighs, -⟩ := h.source at_row
  cases at_q.symm.trans at_q'
  exact ⟨row, at_row, weighs⟩

theorem refusing {row : Row} (at_row : rows[q]? = some row) : ∃ n, Refusing q n row := by
  obtain ⟨-, -, -, refusing⟩ := h.source at_row
  exact refusing

theorem cell (at_q : states[q]? = some s) (x : Int) :
    (OrderedMap.ofRows (rows.map Row.cells)).get? ((q : Int), x) =
      outcome (g.verdict x) (g.candidates s (look q) x) := by
  obtain ⟨row, at_row, weighs⟩ := h.weighed at_q
  rw [OrderedMap.get?_ofRows, List.getElem?_map, at_row]
  exact weighs.cell x

theorem listed (at_q : states[q]? = some s) (x : Int) :
    ((rows.flatMap Row.conflicts).filter fun c => c.state = (q : Int) ∧ c.terminal = x).map .ok =
      g.disputes q x (g.candidates s (look q) x) := by
  have state : ∀ {q row}, rows[q]? = some row → ∀ c ∈ row.conflicts, c.state = ((0 + q : Nat) : Int) := by
    intro q row at_row c mem
    obtain ⟨s, -, weighs, -⟩ := h.source at_row
    rw [weighs.state c mem, Nat.zero_add]
  obtain ⟨row, at_row, weighs⟩ := h.weighed at_q
  have kept := filter_flatMap_conflicts state at_row x
  rw [Nat.zero_add] at kept
  exact (congrArg (List.map Except.ok) kept).trans (weighs.listed x)

/-- A report belongs to the row of a state. -/
theorem exists_state {c : Conflict} (mem : c ∈ rows.flatMap Row.conflicts) :
    ∃ (q : Nat) (s : State) (row : Row), states[q]? = some s ∧
      g.Weighs q (g.candidates s (look q)) row ∧ c ∈ row.conflicts := by
  obtain ⟨row, listed, mem⟩ := List.mem_flatMap.1 mem
  obtain ⟨q, at_row⟩ := List.mem_iff_getElem?.1 listed
  obtain ⟨s, at_q, weighs, -⟩ := h.source at_row
  exact ⟨q, s, row, at_q, weighs, mem⟩

end Rowed

section Contents

variable (settled : g.Settled marker start) (auto : g.Automaton states)
  (looks : g.Suffices states (g.lookOf m la))
include settled auto looks

theorem Settled.weighed_row (at_q : states[q]? = some s) {row : Row}
    (built : Row.build g q s (g.lookOf m la q) = .ok row) :
    g.Weighs q (g.candidates s (g.lookOf m la q)) row := by
  obtain ⟨row', built', weighs⟩ := settled.exists_weighed_row auto at_q
    fun it holds complete ne => by
      obtain ⟨n, p, hp, rfl⟩ := settled.completed_eq auto holds complete
      obtain ⟨ts, found, inputs, -⟩ := looks hp ne holds
      exact ⟨ts, found, inputs⟩
  cases built.symm.trans built'
  exact weighs

theorem Settled.rowed {rows : List Row} (made : List.Forall₂
    (fun (sq : State × Nat) row => Row.build g sq.2 sq.1 (g.lookOf m la sq.2) = .ok row)
      states.toList.zipIdx rows) : g.Rowed states (g.lookOf m la) rows where
  exists_row := by
    intro q s at_q
    obtain ⟨row, at_row, -⟩ := (Attempt.related_getElem? made (i := q)).1 (s, q) (by
      rw [List.getElem?_zipIdx, Array.getElem?_toList, at_q, Nat.zero_add]
      rfl)
    exact ⟨row, at_row⟩
  source := by
    intro q row at_row
    obtain ⟨⟨s, q'⟩, listed, built⟩ := (Attempt.related_getElem? made).2 row at_row
    rw [List.getElem?_zipIdx, Array.getElem?_toList, Option.map_eq_some_iff] at listed
    obtain ⟨_, at_q, eq⟩ := listed
    cases eq
    rw [Nat.zero_add] at built
    exact ⟨s, at_q, settled.weighed_row auto looks at_q built, settled.refusing_row auto at_q built⟩

theorem Settled.contents (assembled : g.assemble m states la = .ok t) :
    g.Contents states (g.lookOf m la) t := by
  obtain ⟨t', assembled', tabled, -⟩ := settled.exists_assemble auto looks
  cases assembled.symm.trans assembled'
  obtain ⟨rows, made, rest⟩ := Attempt.bind_eq_ok.1 assembled
  obtain ⟨items, shown, rest⟩ := Attempt.bind_eq_ok.1 rest
  obtain ⟨lengths, -, rest⟩ := Attempt.bind_eq_ok.1 rest
  cases rest
  have rowed : g.Rowed states (g.lookOf m la) rows :=
    settled.rowed auto looks (Attempt.mapM_eq_ok.1 made)
  exact {
    toTabled := tabled
    cell := rowed.cell
    listed := rowed.listed
    sources := by
      intro c mem
      obtain ⟨q, s, row, at_q, weighs, mem⟩ := rowed.exists_state mem
      exact ⟨q, s, at_q, weighs.state c mem⟩
    cause := by
      intro fits c mem
      obtain ⟨q, s, row, at_q, weighs, mem⟩ := rowed.exists_state mem
      exact weighs.cause (fits at_q) c mem
    count := rfl
    gotos := rfl
    items := shown
    once := nodup_flatMap_violations rowed.refusing
    refused := mem_flatMap_violations rowed.refusing }

end Contents

namespace Contents

variable (h : g.Contents states look t)
include h

theorem reports (at_q : states[q]? = some s) (x : Int) :
    t.conflicts.countP (fun c => c.state = (q : Int) ∧ c.terminal = x) =
      (g.candidates s (look q) x).length - 1 := by
  rw [← length_disputes (g := g) (q := q) (t := x), ← h.listed at_q x, List.length_map,
    List.countP_eq_length_filter]

/-- Nothing is reported exactly if no cell has two candidates. -/
theorem conflicts_eq_nil_iff : t.conflicts = [] ↔ ∀ {q : Nat} {s : State}, states[q]? = some s →
    ∀ x, (g.candidates s (look q) x).length ≤ 1 := by
  constructor
  · intro clean q s at_q x
    have := h.reports at_q x
    rw [clean, List.countP_nil] at this
    omega
  · intro single
    refine List.eq_nil_iff_forall_not_mem.2 fun c mem => ?_
    obtain ⟨q, s, at_q, state⟩ := h.sources c mem
    have none := h.reports at_q c.terminal
    have := single at_q c.terminal
    rw [Nat.sub_eq_zero_of_le this, List.countP_eq_zero] at none
    exact none c mem (by simp [state])

end Contents

/-! ## Both methods -/

section Build

variable (settled : g.Settled marker start)
include settled

/-- Where all answers are known, the lookahead sets are computed without a further question. -/
theorem Settled.computeLookaheads_eq (answered : g.Answered g.facts.nullable) :
    ∃ la, computeLookaheads g.explore g = .ok la g ∧
      ∀ q k x, x ∈ la.at q k ↔ g.Looks g.explore start q k x := by
  obtain ⟨la, shown, sets⟩ :=
    (shows_lookaheads settled settled.automaton answered.truthful).exists_ok answered
  refine ⟨la, ?_, sets⟩
  have got : (get : Build Grammar) g = .ok g g := rfl
  rw [computeLookaheads]
  refine (bind_of_ok got).trans ?_
  rw [shown]
  rfl

omit settled in
/-- A closed grammar passes the check in front of a call. -/
theorem guarded_eq {α : Type} {e : Error} {rest : Build α} (closed : (!g.closed) = false) :
    (do
      if !(← get).closed then throw e
      rest : Build α) g = rest g := by
  show (if (!g.closed) = true then (throw e : Build PUnit) >>= fun _ => rest else rest) g = rest g
  rw [closed, if_neg Bool.false_ne_true]

/-- What the analysis finds, and the contents of the tables that are built from it by either method. -/
theorem Settled.exists_contents (untouched : g.facts = {}) :
    ∃ passes f la, analyze g = .ok passes (g.having f) ∧ g.Analysed start f ∧
      computeLookaheads g.explore (g.having f) = .ok la (g.having f) ∧
      (∀ q k x, x ∈ la.at q k ↔ g.Looks g.explore start q k x) ∧
      ∀ m : Method, ∃ t, buildTables m.name g = .ok t (g.having f) ∧
        (g.having f).Contents g.explore ((g.having f).lookOf m la) t := by
  obtain ⟨passes, -, analyzed, f, rfl, analysed⟩ := (settled.ends_analyze untouched).exists_ok
  have settled' := settled.having f
  have auto : (g.having f).Automaton g.explore := settled'.automaton
  obtain ⟨la, computed, sets⟩ := settled'.computeLookaheads_eq (Answered.having analysed.answered)
  have sets : ∀ q k x, x ∈ la.at q k ↔ g.Looks g.explore start q k x :=
    fun q k x => (sets q k x).trans looks_having
  refine ⟨passes, f, la, analyzed, analysed, computed, sets, fun m => ?_⟩
  have closed : (!g.closed) = false := by rw [settled.closed]; rfl
  have states : (g.having f).states = .ok g.explore := settled'.states_eq
  cases m with
  | slr =>
    have looks : (g.having f).Suffices g.explore ((g.having f).lookOf .slr la) :=
      settled.suffices_slr analysed
    obtain ⟨t, assembled, -⟩ := settled'.exists_assemble auto looks
    refine ⟨t, ?_, settled'.contents auto looks assembled⟩
    have assembled : (g.having f).assemble .slr g.explore #[] = .ok t := assembled
    refine (guarded_eq closed).trans ((bind_of_ok analyzed).trans ?_)
    refine (bind_of_ok (query_of_ok states)).trans ((bind_of_ok (a := #[]) rfl).trans ?_)
    exact query_of_ok assembled
  | lalr =>
    have looks : (g.having f).Suffices g.explore ((g.having f).lookOf .lalr la) :=
      settled.suffices_lalr sets
    obtain ⟨t, assembled, -⟩ := settled'.exists_assemble auto looks
    refine ⟨t, ?_, settled'.contents auto looks assembled⟩
    refine (guarded_eq closed).trans ((bind_of_ok analyzed).trans ?_)
    refine (bind_of_ok (query_of_ok states)).trans ((bind_of_ok computed).trans ?_)
    exact query_of_ok assembled

end Build

end ParserGenerator.Grammar
