import ParserGenerator.LR.Construction
import ParserGenerator.Proofs.Analysis.FirstFollow
import ParserGenerator.Proofs.Collection.Attempt
import ParserGenerator.Proofs.Collection.OrderedMap
import ParserGenerator.Proofs.Collection.Sorted
import ParserGenerator.Proofs.LR.Paths

/-!
# Rows of the action table

Whatever conflicts there are, a cell only says what the items of its state permit. In a row without
conflicts every candidate is in its cell, and nothing else is in a cell.
-/

namespace ParserGenerator.Grammar

variable {g : Grammar} {marker start : Int} {states : Array State} {q : Nat} {t n : Int} {p : Production}
  {a : Action} {r : Row}

/-- What the items of a state permit on a terminal. -/
inductive Permits (g : Grammar) (states : Array State) (q : Nat) (t : Int) : Action → Prop
  | shift {r : Nat} : goto? states q t = some r → Permits g states q t ⟨.shift, r⟩
  | reduce {n : Int} {p : Production} : g.byNumber.get? n = some p → n ≠ 0 →
      Holds states q ⟨n, p.right.length⟩ → Permits g states q t ⟨.reduce, n⟩
  | nonassoc {n : Int} {p : Production} : g.byNumber.get? n = some p → n ≠ 0 →
      Holds states q ⟨n, p.right.length⟩ → Permits g states q t ⟨.nonassoc, n⟩
  | accept : t = endMarkerId → Holds states q .accepting → Permits g states q t ⟨.accept, 0⟩

/-- A row in which the given cells have been entered. -/
structure Filled (g : Grammar) (states : Array State) (q : Nat) (entered : Int × Action → Prop) (r : Row) :
    Prop where
  permits : ∀ {t a}, r.cells.get? t = some a → g.isInput t = true ∧ g.Permits states q t a
  covers : r.conflicts = [] → ∀ {t a}, entered (t, a) ↔ r.cells.get? t = some a

variable {entered : Int × Action → Prop}

/-- The cells of a row are on inputs and say what the items of the state permit. -/
def Permitted (g : Grammar) (states : Array State) (q : Nat) (r : Row) : Prop :=
  ∀ t a, r.cells.get? t = some a → g.isInput t = true ∧ g.Permits states q t a

theorem Permitted.put (h : g.Permitted states q r) (input : g.isInput t = true)
    (permits : g.Permits states q t a) : g.Permitted states q (r.put t a) := by
  intro t' a' cell
  rw [Row.put, OrderedMap.get?_insert] at cell
  split at cell
  · rename_i same
    cases cell
    cases same
    exact ⟨input, permits⟩
  · exact h t' a' cell

theorem Filled.permitted (h : g.Filled states q entered r) : g.Permitted states q r := fun _ _ => h.permits

theorem Filled.covers_put (h : g.Filled states q entered r) (new : r.cells.get? t = none)
    (clean : (r.put t a).conflicts = []) {t' : Int} {a' : Action} :
    entered (t', a') ∨ (t', a') = (t, a) ↔ (r.put t a).cells.get? t' = some a' := by
  have old := h.covers clean (t := t') (a := a')
  rw [Row.put, OrderedMap.get?_insert, old, Prod.mk.injEq]
  by_cases same : t = t'
  · subst same
    simp [new, eq_comm]
  · simp [same, Ne.symm same]

theorem report_ne_nil (r : Row) (c : Conflict) : (r.report c).conflicts ≠ [] := by simp [Row.report]

/-! ## Look-ups -/

theorem symbol_of_isInput (input : g.isInput t = true) : ∃ s, g.symbols.symbol t = .ok s := by
  obtain ⟨s, at_s, -⟩ := isInput_iff.1 input
  exact ⟨s, SymbolTable.symbol_eq_ok at_s⟩

theorem nameOf_of_isInput (input : g.isInput t = true) : ∃ name, g.symbols.nameOf t = .ok name := by
  obtain ⟨s, known⟩ := symbol_of_isInput input
  exact ⟨s.name, by rw [SymbolTable.nameOf, known]; rfl⟩

theorem exists_lastTerminal {ids : List Int} (registered : ∀ id ∈ ids, ∃ s, g.symbols.at? id = some s) :
    ∃ o, precedenceOf.lastTerminal g ids = .ok o := by
  induction ids with
  | nil => exact ⟨none, rfl⟩
  | cons id ids ih =>
    obtain ⟨⟨s, at_s⟩, rest⟩ := List.forall_mem_cons.1 registered
    have known : g.symbols.symbol id = .ok s := SymbolTable.symbol_eq_ok at_s
    rw [precedenceOf.lastTerminal]
    by_cases kind : s.kind = .terminal
    · refine ⟨s.precedence, Attempt.bind_eq_ok.2 ⟨s, known, ?_⟩⟩
      rw [if_pos kind]
    · obtain ⟨o, found⟩ := ih rest
      refine ⟨o, Attempt.bind_eq_ok.2 ⟨s, known, ?_⟩⟩
      rw [if_neg kind, found]

theorem Lawful.exists_levelOf (sound : g.Lawful) (hp : g.byNumber.get? n = some p) :
    ∃ level, g.levelOf p = .ok level := by
  have registered : ∀ id ∈ p.right.reverse, ∃ s, g.symbols.at? id = some s :=
    fun id mem => (sound.right hp id (List.mem_reverse.1 mem)).2
  have found : ∃ o, g.precedenceOf p = .ok o := by
    rw [precedenceOf]
    cases p.label with
    | some label => exact ⟨_, rfl⟩
    | none => exact exists_lastTerminal registered
  obtain ⟨o, found⟩ := found
  exact ⟨_, Attempt.bind_eq_ok.2 ⟨o, found, rfl⟩⟩

theorem Lawful.exists_decide (sound : g.Lawful) (input : g.isInput t = true)
    (hp : g.byNumber.get? n = some p) (state : Int) : ∃ d, g.decide t p state = .ok d := by
  obtain ⟨s, known⟩ := symbol_of_isInput input
  obtain ⟨left, at_left, -⟩ := sound.left hp
  have known_left : g.symbols.symbol p.left = .ok left := SymbolTable.symbol_eq_ok at_left
  obtain ⟨level, leveled⟩ := sound.exists_levelOf hp
  simp only [Grammar.decide, known, known_left, leveled, bind, Except.bind]
  split
  · exact ⟨_, rfl⟩
  · split
    · exact ⟨_, rfl⟩
    · split
      · exact ⟨_, rfl⟩
      · exact ⟨_, rfl⟩

/-! ## Entering a cell -/

/-- The report on a candidate for the cell of a terminal that comes up against what the cell holds. -/
def dispute (g : Grammar) (q : Nat) (t : Int) (held new : Action) : Except Error Conflict := do
  if new.kind = .accept then
    let name ← g.symbols.nameOf t
    let message := s!"accept conflicts with {held.kind.name} {held.argument} on {name} in state {q}"
    return ⟨Conflict.reduceReduce, q, t, [0, held.argument], "accept", Conflict.byDefault, message⟩
  else if held.kind = .shift then
    return (← g.decide t (← g.production new.argument) q).2
  else
    let kept := min held.argument new.argument
    let other := max held.argument new.argument
    let name ← g.symbols.nameOf t
    let message := s!"reduce/reduce conflict on {name} in state {q} " ++
      s!"between reductions {kept} and {other}; using {kept}"
    return ⟨Conflict.reduceReduce, q, t, [kept, other], Decision.reduce.name, Conflict.byDefault, message⟩

/-- All that can become of a row when a reduction is entered on a terminal. -/
inductive ReducedTo (g : Grammar) (q : Nat) (n : Int) (p : Production) (t : Int) (r : Row) : Row → Prop
  | vacant : r.cells.get? t = none → ReducedTo g q n p t r (r.put t ⟨.reduce, n⟩)
  | kept {target : Int} {c : Conflict} : r.cells.get? t = some ⟨.shift, target⟩ →
      g.decide t p q = .ok (.shift, c) → ReducedTo g q n p t r (r.report c)
  | won {target : Int} {c : Conflict} : r.cells.get? t = some ⟨.shift, target⟩ →
      g.decide t p q = .ok (.reduce, c) → ReducedTo g q n p t r ((r.report c).put t ⟨.reduce, n⟩)
  | refused {target : Int} {c : Conflict} : r.cells.get? t = some ⟨.shift, target⟩ →
      g.decide t p q = .ok (.nonassoc, c) → ReducedTo g q n p t r
        { (r.report c).put t ⟨.nonassoc, n⟩ with violations := r.violations ++ [⟨q, t, n⟩] }
  | least {kind : ActionKind} {taken : Int} {c : Conflict} : r.cells.get? t = some ⟨kind, taken⟩ →
      kind ≠ .shift → g.dispute q t ⟨kind, taken⟩ ⟨.reduce, n⟩ = .ok c →
      ReducedTo g q n p t r
        ((if min taken n = taken then r else r.put t ⟨kind, min taken n⟩).report c)

theorem reducedTo {it : Item} {r' : Row} (entered : Row.putReduce g q it p r t = .ok r') :
    g.ReducedTo q it.production p t r r' := by
  cases cell : r.cells.get? t with
  | none =>
    rw [Row.putReduce, cell] at entered
    cases entered
    exact .vacant cell
  | some held =>
    obtain ⟨kind, taken⟩ := held
    rw [Row.putReduce, cell] at entered
    cases kind with
    | shift =>
      obtain ⟨⟨d, c⟩, decided, entered⟩ := Attempt.bind_eq_ok.1 entered
      cases d with
      | shift =>
        cases entered
        exact .kept cell decided
      | reduce =>
        cases entered
        exact .won cell decided
      | nonassoc =>
        cases entered
        exact .refused cell decided
    | _ =>
      obtain ⟨name, named, entered⟩ := Attempt.bind_eq_ok.1 entered
      cases entered
      refine .least cell (fun same => by cases same) ?_
      simp only [dispute, named, bind, Except.bind, reduceCtorEq, if_false]
      rfl

/-- The smaller of two numbers stays, under the kind that the cell had. -/
theorem ReducedTo.permitted {r' : Row} (entered : g.ReducedTo q n p t r r') (h : g.Permitted states q r)
    (input : g.isInput t = true) (hp : g.byNumber.get? n = some p) (natural : 0 ≤ n) (ne : n ≠ 0)
    (holds : Holds states q ⟨n, p.right.length⟩) : g.Permitted states q r' := by
  have reduce : g.Permits states q t ⟨.reduce, n⟩ := .reduce hp ne holds
  have nonassoc : g.Permits states q t ⟨.nonassoc, n⟩ := .nonassoc hp ne holds
  cases entered with
  | vacant _ => exact h.put input reduce
  | kept _ _ => exact h
  | won _ _ => exact h.put input reduce
  | refused _ _ => exact h.put input nonassoc
  | @least kind taken _ held shifts _ =>
    have kept : min taken n = taken ∨ min taken n = n ∧ g.Permits states q t ⟨kind, n⟩ := by
      cases (h _ _ held).2 with
      | shift _ => exact absurd rfl shifts
      | reduce _ _ _ => exact (min_choice taken n).imp_right fun eq => ⟨eq, reduce⟩
      | nonassoc _ _ _ => exact (min_choice taken n).imp_right fun eq => ⟨eq, nonassoc⟩
      | accept _ _ => exact .inl (min_eq_left natural)
    rcases kept with same | ⟨same, permits⟩
    · rw [if_pos same]
      exact h
    · split
      · exact h
      · rw [same]
        exact h.put input permits

theorem Lawful.exists_putReduce (sound : g.Lawful) (input : g.isInput t = true)
    (hp : g.byNumber.get? n = some p) (it : Item) (r : Row) :
    ∃ r', Row.putReduce g q it p r t = .ok r' := by
  obtain ⟨⟨d, c⟩, decided⟩ := sound.exists_decide input hp q
  obtain ⟨name, named⟩ := nameOf_of_isInput input
  cases cell : r.cells.get? t with
  | none => exact ⟨_, by rw [Row.putReduce, cell]; rfl⟩
  | some held =>
    obtain ⟨kind, taken⟩ := held
    cases kind with
    | shift =>
      simp only [Row.putReduce, cell, decided, bind, Except.bind]
      cases d <;> exact ⟨_, rfl⟩
    | _ =>
      simp only [Row.putReduce, cell, named, bind, Except.bind]
      exact ⟨_, rfl⟩

/-- All that can become of a row when it is entered that the input is accepted. -/
inductive AcceptedTo (g : Grammar) (q : Nat) (r : Row) : Row → Prop
  | plain : (∀ held, r.cells.get? endMarkerId = some held → held.kind = .accept) →
      AcceptedTo g q r (r.put endMarkerId ⟨.accept, 0⟩)
  | reported {held : Action} {c : Conflict} : r.cells.get? endMarkerId = some held →
      held.kind ≠ .accept → g.dispute q endMarkerId held ⟨.accept, 0⟩ = .ok c →
      AcceptedTo g q r ((r.report c).put endMarkerId ⟨.accept, 0⟩)

theorem acceptedTo {r' : Row} (entered : Row.putAccept g q r = .ok r') : g.AcceptedTo q r r' := by
  cases cell : r.cells.get? endMarkerId with
  | none =>
    rw [Row.putAccept, cell] at entered
    cases entered
    exact .plain fun held taken => by cases cell.symm.trans taken
  | some held =>
    simp only [Row.putAccept, cell] at entered
    by_cases accepts : held.kind = .accept
    · rw [if_pos accepts] at entered
      cases entered
      exact .plain fun held' taken => by cases cell.symm.trans taken; exact accepts
    · rw [if_neg accepts] at entered
      obtain ⟨name, named, entered⟩ := Attempt.bind_eq_ok.1 entered
      cases entered
      refine .reported cell accepts ?_
      simp only [dispute, named, bind, Except.bind, if_true]
      rfl

theorem AcceptedTo.permitted {r' : Row} (entered : g.AcceptedTo q r r') (h : g.Permitted states q r)
    (input : g.isInput endMarkerId = true) (holds : Holds states q .accepting) :
    g.Permitted states q r' := by
  have accept : g.Permits states q endMarkerId ⟨.accept, 0⟩ := .accept rfl holds
  cases entered with
  | plain _ => exact h.put input accept
  | reported _ _ _ => exact h.put input accept

theorem Lawful.exists_putAccept (sound : g.Lawful) (r : Row) : ∃ r', Row.putAccept g q r = .ok r' := by
  obtain ⟨name, named⟩ := nameOf_of_isInput (isInput_endMarker sound)
  cases cell : r.cells.get? endMarkerId with
  | none => exact ⟨_, by rw [Row.putAccept, cell]; rfl⟩
  | some held =>
    simp only [Row.putAccept, cell, named, bind, Except.bind]
    split <;> exact ⟨_, rfl⟩

/-! ## Shifts -/

/-- The cells of the transitions that a state has on terminals. -/
def Shifts (g : Grammar) (states : Array State) (q : Nat) (d : Int × Action) : Prop :=
  g.isInput d.1 = true ∧ ∃ r : Nat, goto? states q d.1 = some r ∧ d.2 = ⟨.shift, r⟩

theorem cells_foldl_put {ts : List (Int × Nat)} {r : Row} :
    (ts.foldl (fun (r : Row) t => r.put t.1 ⟨.shift, t.2⟩) r).cells =
      (ts.map fun t => (t.1, (⟨.shift, t.2⟩ : Action))).foldl (fun m e => m.insert e.1 e.2) r.cells ∧
    (ts.foldl (fun (r : Row) t => r.put t.1 ⟨.shift, t.2⟩) r).conflicts = r.conflicts := by
  induction ts generalizing r with
  | nil => exact ⟨rfl, rfl⟩
  | cons t ts ih => exact ih

theorem filled_shifts {s : State} (at_q : states[q]? = some s) :
    g.Filled states q (g.Shifts states q)
      ((s.transitions.toList.filter fun t => g.isInput t.1).foldl
        (fun (r : Row) t => r.put t.1 ⟨.shift, t.2⟩) {}) := by
  have listed : ∀ {t a}, ((s.transitions.toList.filter fun t => g.isInput t.1).foldl
      (fun (r : Row) t => r.put t.1 ⟨.shift, t.2⟩) {}).cells.get? t = some a ↔
        g.Shifts states q (t, a) := by
    intro t a
    have distinct : ((((s.transitions.toList.filter fun t => g.isInput t.1).map fun t =>
        (t.1, (⟨.shift, t.2⟩ : Action)))).map Prod.fst).Nodup := by
      rw [List.map_map]
      exact s.transitions.nodup.sublist (List.filter_sublist.map _)
    rw [cells_foldl_put.1, OrderedMap.get?_foldl_insert distinct fun _ _ => OrderedMap.get?_empty _,
      OrderedMap.get?_empty, Shifts]
    simp only [List.mem_map, List.mem_filter, Prod.exists, OrderedMap.mem_toList, Prod.mk_inj,
      goto?_eq_some, at_q, Option.some_inj]
    constructor
    · rintro (none | ⟨t', r, ⟨step, input⟩, rfl, rfl⟩)
      · cases none
      · exact ⟨input, r, ⟨s, rfl, step⟩, rfl⟩
    · rintro ⟨input, r, ⟨s', rfl, step⟩, rfl⟩
      exact .inr ⟨t, r, ⟨step, input⟩, rfl, rfl⟩
  refine ⟨fun cell => ?_, fun _ _ _ => listed.symm⟩
  obtain ⟨input, r, step, rfl⟩ := listed.1 cell
  exact ⟨input, .shift step⟩

/-! ## Rows of coherent grammars -/

theorem Coherent.completed_eq (coherent : g.Coherent) {it : Item} (valid : g.Valid it)
    (complete : it.isComplete g = true) :
    ∃ n p, g.byNumber.get? n = some p ∧ it = ⟨n, p.right.length⟩ := by
  obtain ⟨n, k⟩ := it
  obtain ⟨p, hp, -⟩ := valid
  have ended := of_decide_eq_true complete
  rw [coherent.rightOf_eq hp] at ended
  exact ⟨n, p, hp, congrArg _ ended⟩

section Coherent

variable {look : Item → Except Error TerminalSet} {it : Item} {r' : Row} (coherent : g.Coherent)
  (valid : ∀ {q it}, Holds states q it → g.Valid it)
include coherent valid

/-- A completed item enters what the state permits, if its lookaheads are inputs. -/
theorem Coherent.permitted_putCompleted (h : g.Permitted states q r) (holds : Holds states q it)
    (complete : it.isComplete g = true)
    (inputs : it.production ≠ 0 → ∀ ts, look it = .ok ts → ∀ t ∈ ts, g.isInput t = true)
    (entered : Row.putCompleted g q look r it = .ok r') : g.Permitted states q r' := by
  obtain ⟨n, p, hp, rfl⟩ := coherent.completed_eq (valid holds) complete
  rw [Row.putCompleted] at entered
  by_cases zero : n = 0
  · subst zero
    obtain ⟨p₀, hp₀, single⟩ := coherent.zero
    cases hp.symm.trans hp₀
    rw [if_pos rfl] at entered
    have accepting : Holds states q .accepting := by rwa [single] at holds
    exact (acceptedTo entered).permitted h (isInput_iff.2 coherent.ending) accepting
  · rw [if_neg zero, coherent.productionAt?_eq hp] at entered
    obtain ⟨ts, found, entered⟩ := Attempt.bind_eq_ok.1 entered
    obtain ⟨i, rfl⟩ := coherent.natural hp
    refine Attempt.foldlM_keeps (fun t mem r r' h reduced => ?_) h entered
    have input := inputs zero ts found t (mem_sortBy.1 mem)
    exact (reducedTo reduced).permitted h input hp (Int.natCast_nonneg i) zero holds

/-- A row that is built says what its state permits. -/
theorem Coherent.permitted_build {s : State} (at_q : states[q]? = some s)
    (inputs : ∀ it, Holds states q it → it.isComplete g = true → it.production ≠ 0 →
      ∀ ts, look it = .ok ts → ∀ t ∈ ts, g.isInput t = true)
    (built : Row.build g q s look = .ok r) : g.Permitted states q r := by
  refine Attempt.foldlM_keeps (fun it mem r r' h entered => ?_) (filled_shifts at_q).permitted built
  rw [State.completed, mem_sortBy, List.mem_filter] at mem
  have holds : Holds states q it := ⟨s, at_q, mem.1⟩
  exact coherent.permitted_putCompleted valid h holds mem.2 (inputs it holds mem.2) entered

end Coherent

/-! ## Completed items -/

section Completed

variable (settled : g.Settled marker start)
include settled

theorem Filled.putReduce (h : g.Filled states q entered r) (input : g.isInput t = true)
    (hp : g.byNumber.get? n = some p) (ne : n ≠ 0) (holds : Holds states q ⟨n, p.right.length⟩) :
    ∃ r', Row.putReduce g q ⟨n, p.right.length⟩ p r t = .ok r' ∧
      g.Filled states q (fun d => entered d ∨ d = (t, ⟨.reduce, n⟩)) r' := by
  obtain ⟨i, rfl⟩ := settled.natural hp
  obtain ⟨r', eq⟩ := settled.exists_putReduce input hp ⟨i, p.right.length⟩ r
  have became := reducedTo eq
  have permitted := became.permitted h.permitted input hp (Int.natCast_nonneg i) ne holds
  refine ⟨r', eq, permitted _ _, fun clean => ?_⟩
  -- Once there is a report nothing is claimed to be covered.
  cases became with
  | vacant new => exact h.covers_put new clean
  | kept _ _ => exact absurd clean (report_ne_nil r _)
  | won _ _ => exact absurd clean (report_ne_nil r _)
  | refused _ _ => exact absurd clean (report_ne_nil r _)
  | least _ _ _ => exact absurd clean (report_ne_nil _ _)

theorem Filled.putAccept (h : g.Filled states q entered r) (holds : Holds states q .accepting) :
    ∃ r', Row.putAccept g q r = .ok r' ∧
      g.Filled states q (fun d => entered d ∨ d = (endMarkerId, ⟨.accept, 0⟩)) r' := by
  obtain ⟨r', eq⟩ := settled.exists_putAccept r
  have became := acceptedTo eq
  have permitted := became.permitted h.permitted (isInput_endMarker settled.toLawful) holds
  refine ⟨r', eq, permitted _ _, fun clean => ?_⟩
  cases became with
  | reported _ _ _ => exact absurd clean (report_ne_nil r _)
  | plain accepts =>
    cases cell : r.cells.get? endMarkerId with
    | none => exact h.covers_put cell clean
    | some held =>
      have same : held = ⟨.accept, 0⟩ := by
        have kind := accepts held cell
        cases (h.permits cell).2 <;> first | rfl | cases kind
      intro t' a'
      have old := h.covers clean (t := t') (a := a')
      rw [Row.put, OrderedMap.get?_insert, old, Prod.mk.injEq]
      by_cases ended : endMarkerId = t'
      · subst ended
        simp [cell, same, eq_comm]
      · simp [ended, Ne.symm ended]

theorem Settled.completed_eq (auto : g.Automaton states) {it : Item} (holds : Holds states q it)
    (complete : it.isComplete g = true) :
    ∃ n p, g.byNumber.get? n = some p ∧ it = ⟨n, p.right.length⟩ :=
  settled.coherent.completed_eq (auto.valid holds) complete

theorem Settled.isComplete_end (hp : g.byNumber.get? n = some p) :
    (⟨n, p.right.length⟩ : Item).isComplete g = true := by
  rw [Item.isComplete, settled.coherent.rightOf_eq hp]
  exact decide_eq_true rfl

/-- What a completed item is to do, given the terminals on which it is reduced. -/
def Demands (look : Item → Except Error TerminalSet) (it : Item) (d : Int × Action) : Prop :=
  it.production = 0 ∧ d = (endMarkerId, ⟨.accept, 0⟩) ∨
    it.production ≠ 0 ∧ ∃ ts t, look it = .ok ts ∧ t ∈ ts ∧ d = (t, ⟨.reduce, it.production⟩)

variable {look : Item → Except Error TerminalSet} {it : Item}

theorem Filled.putCompleted (h : g.Filled states q entered r) (auto : g.Automaton states)
    (holds : Holds states q it) (complete : it.isComplete g = true)
    (looks : it.production ≠ 0 → ∃ ts, look it = .ok ts ∧ ∀ t ∈ ts, g.isInput t = true) :
    ∃ r', Row.putCompleted g q look r it = .ok r' ∧
      g.Filled states q (fun d => entered d ∨ Demands look it d) r' := by
  obtain ⟨n, p, hp, rfl⟩ := settled.completed_eq auto holds complete
  rw [Row.putCompleted]
  by_cases zero : n = 0
  · subst zero
    rw [settled.zero] at hp
    cases hp
    rw [if_pos rfl]
    have same : (fun d => entered d ∨ Demands look ⟨0, 1⟩ d) =
        fun d => entered d ∨ d = (endMarkerId, ⟨.accept, 0⟩) := by
      funext d
      simp [Demands]
    show ∃ r', _ ∧ g.Filled states q (fun d => entered d ∨ Demands look ⟨0, 1⟩ d) r'
    rw [same]
    exact h.putAccept settled holds
  · obtain ⟨ts, found, inputs⟩ := looks zero
    rw [if_neg zero, settled.coherent.productionAt?_eq hp]
    have same : (fun d => entered d ∨ Demands look ⟨n, p.right.length⟩ d) = fun d => entered d ∨
        ∃ t ∈ sortBy (fun a b : Int => a ≤ b) ts.toList, d = (t, ⟨.reduce, n⟩) := by
      funext d
      simp [Demands, zero, found, OrderedSet.mem_def]
    rw [same]
    have folded : ∃ r', (sortBy (fun a b : Int => a ≤ b) ts.toList).foldlM
        (Row.putReduce g q ⟨n, p.right.length⟩ p) r = .ok r' ∧ g.Filled states q (fun d => entered d ∨
          ∃ t ∈ sortBy (fun a b : Int => a ≤ b) ts.toList, d = (t, ⟨.reduce, n⟩)) r' := by
      refine Attempt.exists_foldlM (g.Filled states q) _ ?_ h
      intro t mem entered r h
      exact h.putReduce settled (inputs t (mem_sortBy.1 mem)) hp zero holds
    obtain ⟨r', eq, filled⟩ := folded
    exact ⟨r', Attempt.bind_eq_ok.2 ⟨ts, found, eq⟩, filled⟩

section State

variable (auto : g.Automaton states) {s : State} (at_q : states[q]? = some s)
include auto at_q

theorem Settled.mem_completed {it : Item} : it ∈ s.completed g ↔
    ∃ n p, g.byNumber.get? n = some p ∧ it = ⟨n, p.right.length⟩ ∧ Holds states q it := by
  rw [State.completed, mem_sortBy, List.mem_filter]
  constructor
  · rintro ⟨mem, complete⟩
    obtain ⟨n, p, hp, rfl⟩ := settled.completed_eq auto ⟨s, at_q, mem⟩ complete
    exact ⟨n, p, hp, rfl, s, at_q, mem⟩
  · rintro ⟨n, p, hp, rfl, holds⟩
    exact ⟨(holds_iff at_q).1 holds, settled.isComplete_end hp⟩

/-- The completed items stand in the order of their productions, each production once. -/
theorem Settled.completed_increasing : ((s.completed g).map Item.production).Pairwise (· < ·) := by
  have ordered : (s.completed g).Pairwise fun a b => a.production ≤ b.production :=
    (@pairwise_sortBy Item (fun a b => a.production ≤ b.production)
      (fun a b => by simpa using Int.le_total a.production b.production)
      (fun h h' => by simpa using Int.le_trans (by simpa using h) (by simpa using h')) _).imp
      of_decide_eq_true
  have distinct : (s.completed g).Nodup :=
    (sortBy_perm _ _).nodup_iff.2 ((auto.nodup at_q).sublist List.filter_sublist)
  rw [List.pairwise_map]
  refine (ordered.and distinct).imp_of_mem ?_
  rintro a b mem mem' ⟨le, ne⟩
  obtain ⟨n, p, hp, rfl, -⟩ := (settled.mem_completed auto at_q).1 mem
  obtain ⟨n', p', hp', rfl, -⟩ := (settled.mem_completed auto at_q).1 mem'
  refine lt_of_le_of_ne le fun same => ne ?_
  dsimp only at same
  subst same
  cases hp.symm.trans hp'
  rfl

end State

/-- The row of a state can be built, says what is permitted, and without conflicts all that is demanded. -/
theorem Settled.exists_row (auto : g.Automaton states) {s : State} (at_q : states[q]? = some s)
    (looks : ∀ it, Holds states q it → it.isComplete g = true → it.production ≠ 0 →
      ∃ ts, look it = .ok ts ∧ ∀ t ∈ ts, g.isInput t = true) :
    ∃ r, Row.build g q s look = .ok r ∧ g.Filled states q (fun d => g.Shifts states q d ∨
      ∃ it ∈ s.completed g, Demands look it d) r := by
  refine Attempt.exists_foldlM (g.Filled states q) _ ?_ (filled_shifts at_q)
  intro it mem entered r h
  obtain ⟨n, p, hp, rfl, holds⟩ := (settled.mem_completed auto at_q).1 mem
  have complete := settled.isComplete_end hp
  exact h.putCompleted settled auto holds complete (looks _ holds complete)

end Completed

end ParserGenerator.Grammar
