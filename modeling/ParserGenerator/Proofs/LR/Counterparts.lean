import ParserGenerator.Proofs.LR.Mirrored
import ParserGenerator.Proofs.LR.Transparency

/-!
# Cells of grammars with other identifiers

In states that are the same the candidates for the cells of terminals that correspond are the same. They are
settled in the same way, and the reports on them differ in nothing but the terminal and its name. No verdict
is asked for on the end marker, since nothing shifts it.
-/

namespace ParserGenerator

/-- The report on the cell of the same state for the terminal that corresponds. Its words are the same where
the terminals have one name. -/
structure Conflict.Renamed (σ : Int → Int) (name name' : Int → String) (c c' : Conflict) : Prop where
  kind : c'.kind = c.kind
  state : c'.state = c.state
  terminal : c'.terminal = σ c.terminal
  productions : c'.productions = c.productions
  resolution : c'.resolution = c.resolution
  resolvedBy : c'.resolvedBy = c.resolvedBy
  message : name' (σ c.terminal) = name c.terminal → c'.message = c.message

/-- The same of reports that may fail to be written. -/
def ReportsRenamed (σ : Int → Int) (name name' : Int → String) (e e' : Except Error Conflict) : Prop :=
  ∀ c c', e = .ok c → e' = .ok c' → Conflict.Renamed σ name name' c c'

namespace Grammar

variable {g h : Grammar} {σ τ : Int → Int} {marker start x n : Int} {q : Nat} {s s' : State}
  {states states' : Array State} {p p' : Production} {v v' : Int → Decision} {held a : Action}
  {as : List Action} {c c' : Conflict}

/-! ## Verdicts on shifts only -/

theorem contend_congr (agree : held.kind = .shift → v' = v) : contend v' held a = contend v held a := by
  by_cases shift : held.kind = .shift
  · rw [agree shift]
  · simp only [contend, if_neg shift]

/-- A cell holds a shift as long as it did from the first. -/
theorem shift_of_contend (plain : a.kind ≠ .shift) (shift : (contend v held a).kind = .shift) :
    held.kind = .shift := by
  by_contra other
  rw [contend] at shift
  split at shift
  · exact plain shift
  · exact other shift

theorem foldl_contend_congr (agree : held.kind = .shift → v' = v) (others : ∀ a ∈ as, a.kind ≠ .shift) :
    as.foldl (contend v') held = as.foldl (contend v) held := by
  induction as generalizing held with
  | nil => rfl
  | cons a as ih =>
    obtain ⟨first, later⟩ := List.forall_mem_cons.1 others
    rw [List.foldl_cons, List.foldl_cons, contend_congr agree]
    exact ih (fun shift => agree (shift_of_contend first shift)) later

/-- What becomes of candidates depends on the verdicts only if the first one shifts. -/
theorem outcome_congr (agree : (∃ a ∈ as, a.kind = .shift) → v' = v) (others : ∀ a ∈ as.tail, a.kind ≠ .shift) :
    outcome v' as = outcome v as := by
  cases as with
  | nil => rfl
  | cons a as =>
    exact congrArg some (foldl_contend_congr (fun shift => agree ⟨a, List.mem_cons_self, shift⟩) others)

/-! ## Reports -/

theorem nameOf_eq_nameAt {s : Symbol} (at_x : g.symbols.at? x = some s) :
    g.symbols.nameOf x = .ok (g.nameAt x) := by
  rw [SymbolTable.nameOf, SymbolTable.symbol_eq_ok at_x, nameAt_eq at_x]
  rfl

theorem byNumber_of_production (found : g.production n = .ok p) : g.byNumber.get? n = some p := by
  rw [production] at found
  cases hp : g.byNumber.get? n with
  | none =>
    rw [hp] at found
    cases found
  | some p' =>
    rw [hp] at found
    cases found
    rfl

section Reports

/-- FOLLOW has the same members, by other identifiers. -/
def FollowsAlike (g : Grammar) (σ : Int → Int) (h : Grammar) : Prop :=
  ∀ a ∈ g.ids, ∀ x ∈ g.ids, σ x ∈ h.facts.followOf (σ a) ↔ x ∈ g.facts.followOf a

variable (mirrored : g.Mirrored σ τ h) (follows : g.FollowsAlike σ h)
include mirrored

/-- Terminals that correspond have one precedence. -/
theorem Mirrored.precedence {s s' : Symbol} (at_x : g.symbols.at? x = some s)
    (at_x' : h.symbols.at? (σ x) = some s') (input : g.isInput x = true) (other : x ≠ endMarkerId) :
    s'.precedence = s.precedence := by
  obtain ⟨s₀, at_x₀, -, precedence⟩ := mirrored.symbol at_x
  cases at_x'.symm.trans at_x₀
  refine precedence ?_
  rw [isInput_eq at_x, Symbol.isInput] at input
  rcases mirrored.lawful.kinds at_x with ⟨-, ended⟩ | ⟨declarable, -⟩
  · exact absurd ended other
  · generalize s.kind = kind at input declarable
    cases kind with
    | terminal => rfl
    | endMarker => exact absurd rfl declarable.1
    | _ => cases input

include follows in
theorem Mirrored.verdict (input : g.isInput x = true) (other : x ≠ endMarkerId) :
    h.verdict (σ x) = g.verdict x := by
  funext n
  obtain ⟨s, at_x, -⟩ := isInput_iff.1 input
  obtain ⟨s', at_x', -⟩ := mirrored.symbol at_x
  have mem : x ∈ g.ids := (mem_ids mirrored.lawful).2 ⟨s, at_x⟩
  cases hp : g.byNumber.get? n with
  | none =>
    have rules := mirrored.there.rules n
    rw [hp, Option.map_none, Option.map_eq_none_iff] at rules
    simp only [Grammar.verdict, hp, rules]
  | some p =>
    obtain ⟨p', hp', left, -⟩ := mirrored.there.rule hp
    obtain ⟨level, leveled⟩ := mirrored.lawful.exists_levelOf hp
    rw [mirrored.lawful.verdict_eq hp at_x leveled,
      mirrored.lawful'.verdict_eq hp' at_x' ((mirrored.levelOf hp hp').trans leveled),
      mirrored.precedence at_x at_x' input other]
    simp only [left, follows p.left (mirrored.lawful.left_mem_ids hp) x mem]

include follows in
/-- Decisions between a shift and a production are reported alike. -/
theorem Mirrored.decide_renamed (input : g.isInput x = true) (other : x ≠ endMarkerId)
    (hp : g.byNumber.get? n = some p) (hp' : h.byNumber.get? n = some p') {d d' : Decision}
    (decided : g.decide x p q = .ok (d, c)) (decided' : h.decide (σ x) p' q = .ok (d', c')) :
    c.Renamed σ g.nameAt h.nameAt c' := by
  obtain ⟨s, at_x, -⟩ := isInput_iff.1 input
  obtain ⟨s', at_x', -⟩ := mirrored.symbol at_x
  have mem : x ∈ g.ids := (mem_ids mirrored.lawful).2 ⟨s, at_x⟩
  obtain ⟨left, at_left, -⟩ := mirrored.lawful.left hp
  obtain ⟨left', at_left', -⟩ := mirrored.lawful'.left hp'
  obtain ⟨level, leveled⟩ := mirrored.lawful.exists_levelOf hp
  have leveled' := (mirrored.levelOf hp hp').trans leveled
  have lefts : p'.left = σ p.left := by
    obtain ⟨p₀, hp₀, left, -⟩ := mirrored.there.rule hp
    cases hp'.symm.trans hp₀
    exact left
  have number : p'.number = p.number :=
    (mirrored.lawful'.number_eq hp').trans (mirrored.lawful.number_eq hp).symm
  have named : h.nameAt (σ x) = g.nameAt x → s'.name = s.name := by
    rw [nameAt_eq at_x, nameAt_eq at_x']
    exact id
  have agree := follows p.left (mirrored.lawful.left_mem_ids hp) x mem
  rw [← lefts] at agree
  simp only [Grammar.decide, SymbolTable.symbol_eq_ok at_x, SymbolTable.symbol_eq_ok at_left,
    mirrored.lawful.table.id_eq at_left, leveled, bind, Except.bind] at decided
  simp only [Grammar.decide, SymbolTable.symbol_eq_ok at_x', SymbolTable.symbol_eq_ok at_left',
    mirrored.lawful'.table.id_eq at_left', leveled', number, agree,
    mirrored.precedence at_x at_x' input other, bind, Except.bind] at decided'
  by_cases inside : x ∈ g.facts.followOf p.left
  · simp only [inside, not_true_eq_false, if_false] at decided decided'
    cases precedence : s.precedence with
    | none =>
      rw [precedence] at decided decided'
      cases decided
      cases decided'
      exact ⟨rfl, rfl, rfl, rfl, rfl, rfl, fun same => by simp only [named same]⟩
    | some level' =>
      rw [precedence] at decided decided'
      dsimp only at decided decided'
      by_cases nonassoc : level'.associativity = .nonassoc
      · rw [if_pos nonassoc] at decided decided'
        cases decided
        cases decided'
        exact ⟨rfl, rfl, rfl, rfl, rfl, rfl, fun same => by simp only [named same]⟩
      · rw [if_neg nonassoc] at decided decided'
        cases decided
        cases decided'
        exact ⟨rfl, rfl, rfl, rfl, rfl, rfl, fun same => by simp only [named same]⟩
  · simp only [inside, not_false_eq_true, if_true] at decided decided'
    cases decided
    cases decided'
    exact ⟨rfl, rfl, rfl, rfl, rfl, rfl, fun same => by simp only [named same]⟩

include follows in
/-- Candidates for a cell that come up against what it holds are reported alike. -/
theorem Mirrored.dispute_renamed (mem : x ∈ g.ids)
    (shifts : held.kind = .shift → g.isInput x = true ∧ x ≠ endMarkerId)
    (disputed : g.dispute q x held a = .ok c) (disputed' : h.dispute q (σ x) held a = .ok c') :
    c.Renamed σ g.nameAt h.nameAt c' := by
  obtain ⟨s, at_x⟩ := (mem_ids mirrored.lawful).1 mem
  obtain ⟨s', at_x', -⟩ := mirrored.symbol at_x
  simp only [dispute, nameOf_eq_nameAt at_x, bind, Except.bind] at disputed
  simp only [dispute, nameOf_eq_nameAt at_x', bind, Except.bind] at disputed'
  by_cases accepts : a.kind = .accept
  · rw [if_pos accepts] at disputed disputed'
    cases disputed
    cases disputed'
    exact ⟨rfl, rfl, rfl, rfl, rfl, rfl, fun same => by simp only [same]⟩
  · rw [if_neg accepts] at disputed disputed'
    by_cases shift : held.kind = .shift
    · rw [if_pos shift] at disputed disputed'
      obtain ⟨input, other⟩ := shifts shift
      obtain ⟨p, found, disputed⟩ := Attempt.bind_eq_ok.1 disputed
      obtain ⟨p', found', disputed'⟩ := Attempt.bind_eq_ok.1 disputed'
      obtain ⟨d, decided, made⟩ := Attempt.bind_eq_ok.1 disputed
      obtain ⟨d', decided', made'⟩ := Attempt.bind_eq_ok.1 disputed'
      cases made
      cases made'
      exact mirrored.decide_renamed follows input other (byNumber_of_production found)
        (byNumber_of_production found') decided decided'
    · rw [if_neg shift] at disputed disputed'
      cases disputed
      cases disputed'
      exact ⟨rfl, rfl, rfl, rfl, rfl, rfl, fun same => by simp only [same]⟩

include follows in
theorem Mirrored.disputesFrom_renamed (mem : x ∈ g.ids)
    (shifts : held.kind = .shift → g.isInput x = true ∧ x ≠ endMarkerId) (others : ∀ a ∈ as, a.kind ≠ .shift) :
    List.Forall₂ (ReportsRenamed σ g.nameAt h.nameAt)
      (g.disputesFrom q x held as) (h.disputesFrom q (σ x) held as) := by
  induction as generalizing held with
  | nil => exact .nil
  | cons a as ih =>
    obtain ⟨first, later⟩ := List.forall_mem_cons.1 others
    have agree : held.kind = .shift → h.verdict (σ x) = g.verdict x := fun shift =>
      mirrored.verdict follows (shifts shift).1 (shifts shift).2
    rw [disputesFrom, disputesFrom, contend_congr agree]
    refine .cons (fun c c' => mirrored.dispute_renamed follows mem shifts) (ih (fun shift => ?_) later)
    exact shifts (shift_of_contend first shift)

include follows in
/-- Candidates that are the same, of which only the first one may shift a terminal, are reported alike. -/
theorem Mirrored.disputes_renamed (mem : x ∈ g.ids)
    (shifts : (∃ a ∈ as, a.kind = .shift) → g.isInput x = true ∧ x ≠ endMarkerId)
    (others : ∀ a ∈ as.tail, a.kind ≠ .shift) {cs cs' : List Conflict}
    (listed : cs.map Except.ok = g.disputes q x as) (listed' : cs'.map Except.ok = h.disputes q (σ x) as) :
    List.Forall₂ (Conflict.Renamed σ g.nameAt h.nameAt) cs cs' := by
  have related : List.Forall₂ (ReportsRenamed σ g.nameAt h.nameAt) (cs.map .ok) (cs'.map .ok) := by
    rw [listed, listed']
    cases as with
    | nil => exact .nil
    | cons a as =>
      exact mirrored.disputesFrom_renamed follows mem (fun shift => shifts ⟨a, List.mem_cons_self, shift⟩) others
  rw [List.forall₂_map_left_iff, List.forall₂_map_right_iff] at related
  exact related.imp fun c c' renamed => renamed c c' rfl rfl

end Reports

/-! ## Candidates -/

/-- The terminals on which completed items are reduced are the same, by other identifiers. -/
def LooksAlike (g : Grammar) (σ : Int → Int) (look look' : Nat → Item → Except Error TerminalSet) : Prop :=
  ∀ q n p, n ≠ 0 → g.byNumber.get? n = some p → ∃ ts ts', look q ⟨n, p.right.length⟩ = .ok ts ∧
    look' q ⟨n, p.right.length⟩ = .ok ts' ∧ ∀ x ∈ g.ids, (σ x ∈ ts' ↔ x ∈ ts)

section Candidates

variable {marker' start' : Int} {look look' : Nat → Item → Except Error TerminalSet}
  (mirrored : g.Mirrored σ τ h) (settled : g.Settled marker start) (settled' : h.Settled marker' start')
include mirrored

theorem Mirrored.eq_endMarker (mem : x ∈ g.ids) : σ x = endMarkerId ↔ x = endMarkerId := by
  constructor
  · intro ended
    have back := mirrored.undone x mem
    rw [ended, mirrored.back.endMarker] at back
    exact back.symm
  · rintro rfl
    exact mirrored.there.endMarker

include settled

include settled' in
theorem Mirrored.completed (state : g.SameState σ s s') : s'.completed h = s.completed g := by
  rw [State.completed, State.completed, state.items, funext (mirrored.isComplete settled settled')]

variable (auto : g.Automaton states) (at_q : states[q]? = some s) (looks : g.LooksAlike σ look look')
include auto at_q

include looks in
theorem Mirrored.demanded (mem : x ∈ g.ids) {it : Item} (completed : it ∈ s.completed g) :
    demanded (look' q) (σ x) it = demanded (look q) x it := by
  obtain ⟨n, p, hp, rfl, -⟩ := (settled.mem_completed auto at_q).1 completed
  unfold Grammar.demanded
  dsimp only
  by_cases zero : n = 0
  · simp only [if_pos zero, mirrored.eq_endMarker mem]
  · obtain ⟨ts, ts', found, found', agree⟩ := looks q n p zero hp
    rw [if_neg zero, if_neg zero, found, found']
    simp only [agree x mem]

include settled' looks in
/-- The candidates for the cells of terminals that correspond are the same. -/
theorem Mirrored.candidates (state : g.SameState σ s s') (mem : x ∈ g.ids) :
    h.candidates s' (look' q) (σ x) = g.candidates s (look q) x := by
  rw [Grammar.candidates, Grammar.candidates, mirrored.isInput mem, state.transitions x mem,
    mirrored.completed settled settled' state]
  exact congrArg _ (List.filterMap_congr fun it completed =>
    mirrored.demanded settled auto at_q looks mem completed)

omit mirrored in
/-- Only a terminal other than the end marker is shifted. -/
theorem Settled.shifts_terminal (shift : ∃ a ∈ g.candidates s (look q) x, a.kind = .shift) :
    g.isInput x = true ∧ x ≠ endMarkerId := by
  obtain ⟨a, mem, kind⟩ := shift
  rcases List.mem_append.1 mem with own | asked
  · obtain ⟨r, step, rfl⟩ := Option.map_eq_some_iff.1 (Option.mem_toList.1 own)
    split at step
    · rename_i input
      refine ⟨input, ?_⟩
      rintro rfl
      exact auto.no_goto_endMarker settled (goto?_eq_some.2 ⟨s, at_q, step⟩)
    · cases step
  · exact absurd kind (ne_shift_of_demanded a asked)

end Candidates

end Grammar

end ParserGenerator
