import ParserGenerator.Proofs.LR.Collection
import ParserGenerator.Proofs.LR.Policy
import ParserGenerator.Proofs.LR.Transparency
import ParserGenerator.Proofs.Operators.Grammar

/-!
# The states of the grammar of operators

A state stands before an operand or behind one. Before an operand, which is the first one or the right one
of an operator, all productions are there with the dot in front. Behind it the dot stands before every
operator, and where the operand was the right one of an operator, the production of that one is complete.
There a shift is settled against the production, and everywhere else a cell has one candidate.
-/

namespace ParserGenerator

open Grammar

variable {T : OperatorTable} {g : Grammar} {marker E num : Int} {op : String → Int}
  {states : Array State} {q r q' : Nat} {c : Option String} {o p : String} {it : Item} {x t : Int}

namespace OperatorTable

/-- The item that leads up to an operand: the first one, or the right one of an operator. -/
def front (T : OperatorTable) : Option String → Item
  | none => .initial
  | some o => ⟨T.rule o, 2⟩

/-- What a state before an operand holds, and one behind it. -/
def Before (T : OperatorTable) (c : Option String) (it : Item) : Prop :=
  it = T.front c ∨ (∃ o ∈ T.names, it = ⟨T.rule o, 0⟩) ∨ it = ⟨T.leaf, 0⟩
def Behind (T : OperatorTable) (c : Option String) (it : Item) : Prop :=
  it = (T.front c).advance ∨ ∃ o ∈ T.names, it = ⟨T.rule o, 1⟩

/-- The states in which an operand begins: the first state, and those behind an operator. -/
inductive Opens (T : OperatorTable) (states : Array State) (E : Int) (op : String → Int) :
    Nat → Option String → Prop
  | first : Opens T states E op 0 none
  | behind {q r q' : Nat} {c : Option String} {o : String} : Opens T states E op q c →
      goto? states q E = some r → o ∈ T.names → goto? states r (op o) = some q' →
      Opens T states E op q' (some o)

/-- What may stand behind an operand. -/
def Stops (T : OperatorTable) (op : String → Int) (t : Int) : Prop :=
  t = endMarkerId ∨ ∃ o ∈ T.names, t = op o

theorem Opens.inside (h : T.Opens states E op q c) : ∀ o ∈ c, o ∈ T.names := by
  cases h with
  | first => simp
  | behind _ _ inside _ => simpa using inside

theorem side_ne_nonassoc (inside : o ∈ T.names) : T.side o ≠ .nonassoc := by
  obtain ⟨l, at_line, -, side⟩ := exists_line inside
  exact side ▸ T.sided l (List.mem_of_getElem? at_line)

/-- The levels of two operators tell where an operand between them goes. -/
theorem compareLevels_eq (inside : p ∈ T.names) :
    compareLevels (T.precedence p) (T.line o + 1) = if T.Takes o p then .reduce else .shift := by
  have sided : (T.precedence p).associativity ≠ .nonassoc := side_ne_nonassoc inside
  have level : (T.precedence p).level = T.line p + 1 := rfl
  rw [compareLevels, if_neg sided, level]
  rcases Nat.lt_trichotomy (T.line p) (T.line o) with later | same | earlier
  · have takes : T.Takes o p := .inl later
    rw [if_neg (by omega), if_pos (by omega), if_pos takes]
  · have side : (T.precedence p).associativity = T.side o := side_eq same
    rw [if_neg (by omega), if_neg (by omega), side]
    have takes : T.Takes o p ↔ T.side o = .left := by
      rw [Takes]
      simp [same]
    rw [side] at sided
    cases group : T.side o with
    | left => rw [if_neg (by decide), if_pos (takes.2 group)]
    | right => rw [if_pos rfl, if_neg fun h => by simp [group] at takes; exact takes h]
    | nonassoc => exact absurd group sided
  · have leaves : ¬ T.Takes o p := by
      rw [Takes]
      omega
    rw [if_pos (by omega), if_neg leaves]

namespace Arithmetic

variable (arith : T.Arithmetic g marker E num op)
include arith

/-! ## Symbols and items -/

theorem isNonterminal : g.isNonterminal E = true := isNonterminal_iff.2 arith.start_kind

theorem isInput_number : g.isInput num = true := by
  obtain ⟨s, at_s, -, kind⟩ := arith.number
  exact (isInput_eq at_s).trans (isInput_of_terminal kind)

theorem isInput_operator (inside : o ∈ T.names) : g.isInput (op o) = true := by
  obtain ⟨s, at_s, -, kind, -⟩ := arith.operator o inside
  exact (isInput_eq at_s).trans (isInput_of_terminal kind)

theorem isInput_of_stops (stops : T.Stops op t) : g.isInput t = true := by
  rcases stops with rfl | ⟨o, mem, rfl⟩
  · exact isInput_endMarker arith.toLawful
  · exact arith.isInput_operator mem

theorem operator_inj (inside : o ∈ T.names) (inside' : p ∈ T.names) (same : op o = op p) : o = p := by
  obtain ⟨s, at_s, named, -⟩ := arith.operator o inside
  obtain ⟨s', at_s', named', -⟩ := arith.operator p inside'
  rw [same, at_s'] at at_s
  cases at_s
  exact named.symm.trans named'

theorem expression_ne_of_isInput (input : g.isInput x = true) : x ≠ E := by
  rintro rfl
  rw [isInput_of_isNonterminal arith.isNonterminal] at input
  cases input

theorem expects_initial : g.Expects .initial x ↔ x = E :=
  (expects_iff arith.zero).trans (by simp [eq_comm])

theorem expects_rule (inside : o ∈ T.names) {i : Nat} :
    g.Expects ⟨T.rule o, i⟩ x ↔ [E, op o, E][i]? = some x := expects_iff (arith.rule o inside)

theorem expects_leaf {i : Nat} : g.Expects ⟨T.leaf, i⟩ x ↔ [num][i]? = some x := expects_iff arith.leaf

theorem expects_front (inside : ∀ o ∈ c, o ∈ T.names) : g.Expects (T.front c) x ↔ x = E := by
  cases c with
  | none => exact arith.expects_initial
  | some o => exact (arith.expects_rule (inside o rfl)).trans (by simp [eq_comm])

theorem not_expects_advance_front (inside : ∀ o ∈ c, o ∈ T.names) : ¬ g.Expects (T.front c).advance x := by
  cases c with
  | none => exact not_expects_complete arith.zero
  | some o => exact not_expects_complete (arith.rule o (inside o rfl))

/-- Every item before an operand expects a symbol. -/
theorem exists_expects (inside : ∀ o ∈ c, o ∈ T.names) (before : T.Before c it) : ∃ x, g.Expects it x := by
  rcases before with rfl | ⟨o, mem, rfl⟩ | rfl
  · exact ⟨E, (arith.expects_front inside).2 rfl⟩
  · exact ⟨E, (arith.expects_rule mem).2 rfl⟩
  · exact ⟨num, arith.expects_leaf.2 rfl⟩

theorem closedItems_before (inside : ∀ o ∈ c, o ∈ T.names) : g.ClosedItems (T.Before c) where
  expand := by
    intro it n rule before expects hp
    rcases arith.only hp with rfl | ⟨o, mem, rfl⟩ | rfl
    · cases arith.zero.symm.trans hp
      exact (arith.marker_ne expects).elim
    · exact .inr (.inl ⟨o, mem, rfl⟩)
    · exact .inr (.inr rfl)
  skip := by
    intro it id before expects action
    have plain : g.isAction id = false := by
      rcases before with rfl | ⟨o, mem, rfl⟩ | rfl
      · rw [(arith.expects_front inside).1 expects]
        exact isAction_of_isNonterminal arith.isNonterminal
      · obtain rfl : E = id := Option.some.inj ((arith.expects_rule mem).1 expects)
        exact isAction_of_isNonterminal arith.isNonterminal
      · obtain rfl : num = id := Option.some.inj (arith.expects_leaf.1 expects)
        exact isAction_of_isInput arith.isInput_number
    rw [plain] at action
    cases action

theorem closure_front (inside : ∀ o ∈ c, o ∈ T.names) :
    g.Closure (· = T.front c) it ↔ T.Before c it := by
  refine ⟨Closure.least (arith.closedItems_before inside) fun _ => .inl, ?_⟩
  have expects := (arith.expects_front inside).2 rfl
  rintro (rfl | ⟨o, mem, rfl⟩ | rfl)
  · exact .kernel rfl
  · exact .expand (.kernel rfl) expects (arith.rule o mem)
  · exact .expand (.kernel rfl) expects arith.leaf

/-! ## What the states hold -/

section States

variable (auto : g.Automaton states)
include auto

/-- Behind an operand, given what the state before it holds. -/
theorem holds_behind_of (inside : ∀ o ∈ c, o ∈ T.names) (before : ∀ it, Holds states q it ↔ T.Before c it)
    (step : goto? states q E = some r) : Holds states r it ↔ T.Behind c it := by
  have moved : ∀ it, g.Moved states q E it ↔ T.Behind c it := by
    intro it
    constructor
    · rintro ⟨it', holds, expects, rfl⟩
      rcases (before it').1 holds with rfl | ⟨o, mem, rfl⟩ | rfl
      · exact .inl rfl
      · exact .inr ⟨o, mem, rfl⟩
      · exact absurd (Option.some.inj (arith.expects_leaf.1 expects))
          (arith.expression_ne_of_isInput arith.isInput_number)
    · rintro (rfl | ⟨o, mem, rfl⟩)
      · exact ⟨_, (before _).2 (.inl rfl), (arith.expects_front inside).2 rfl, rfl⟩
      · exact ⟨⟨T.rule o, 0⟩, (before _).2 (.inr (.inl ⟨o, mem, rfl⟩)), (arith.expects_rule mem).2 rfl, rfl⟩
  rw [auto.target step, closure_iff_of_inputs arith.toLawful, moved]
  intro it x moves expects
  rcases (moved it).1 moves with rfl | ⟨o, mem, rfl⟩
  · exact absurd expects (arith.not_expects_advance_front inside)
  · obtain rfl : op o = x := Option.some.inj ((arith.expects_rule mem).1 expects)
    exact arith.isInput_operator mem

theorem holds_before (h : T.Opens states E op q c) : Holds states q it ↔ T.Before c it := by
  induction h generalizing it with
  | first => exact auto.first.trans (arith.closure_front (c := none) (by simp))
  | @behind q r q' c o before step mem step' ih =>
    have holds : ∀ it, Holds states r it ↔ T.Behind c it := fun it =>
      arith.holds_behind_of auto before.inside (fun _ => ih) step
    have moved : ∀ it, g.Moved states r (op o) it ↔ it = T.front (some o) := by
      intro it
      constructor
      · rintro ⟨it', mem', expects, rfl⟩
        rcases (holds it').1 mem' with rfl | ⟨p, other, rfl⟩
        · exact absurd expects (arith.not_expects_advance_front before.inside)
        · obtain same : op p = op o := Option.some.inj ((arith.expects_rule other).1 expects)
          rw [arith.operator_inj other mem same]
          rfl
      · rintro rfl
        exact ⟨⟨T.rule o, 1⟩, (holds _).2 (.inr ⟨o, mem, rfl⟩), (arith.expects_rule mem).2 rfl, rfl⟩
    rw [auto.target step', ← arith.closure_front (c := some o) (by simpa using mem)]
    exact ⟨.mono fun _ => (moved _).1, .mono fun _ => (moved _).2⟩

theorem holds_behind (h : T.Opens states E op q c) (step : goto? states q E = some r) :
    Holds states r it ↔ T.Behind c it :=
  arith.holds_behind_of auto h.inside (fun _ => arith.holds_before auto h) step

theorem holds_leaf (h : T.Opens states E op q c) (step : goto? states q num = some r) :
    Holds states r it ↔ it = ⟨T.leaf, 1⟩ := by
  have moved : ∀ it, g.Moved states q num it ↔ it = ⟨T.leaf, 1⟩ := by
    intro it
    constructor
    · rintro ⟨it', holds, expects, rfl⟩
      have apart := arith.expression_ne_of_isInput arith.isInput_number
      rcases (arith.holds_before auto h).1 holds with rfl | ⟨o, mem, rfl⟩ | rfl
      · exact absurd ((arith.expects_front h.inside).1 expects) apart
      · exact absurd (Option.some.inj ((arith.expects_rule mem).1 expects)).symm apart
      · rfl
    · rintro rfl
      exact ⟨⟨T.leaf, 0⟩, (arith.holds_before auto h).2 (.inr (.inr rfl)), arith.expects_leaf.2 rfl, rfl⟩
  rw [auto.target step, closure_iff_of_inputs arith.toLawful, moved]
  intro it x mem expects
  rw [moved] at mem
  subst mem
  exact absurd expects (not_expects_complete arith.leaf)

theorem exists_goto_number (h : T.Opens states E op q c) : ∃ r, goto? states q num = some r :=
  auto.total ((arith.holds_before auto h).2 (.inr (.inr rfl))) (arith.expects_leaf.2 rfl)
    (isAction_of_isInput arith.isInput_number)

theorem exists_goto_expression (h : T.Opens states E op q c) : ∃ r, goto? states q E = some r :=
  auto.total ((arith.holds_before auto h).2 (.inl rfl)) ((arith.expects_front h.inside).2 rfl)
    (isAction_of_isNonterminal arith.isNonterminal)

theorem exists_goto_operator (h : T.Opens states E op q c) (step : goto? states q E = some r)
    (mem : o ∈ T.names) : ∃ q', goto? states r (op o) = some q' :=
  auto.total ((arith.holds_behind auto h step).2 (.inr ⟨o, mem, rfl⟩)) ((arith.expects_rule mem).2 rfl)
    (isAction_of_isInput (arith.isInput_operator mem))

/-! ## Lookaheads -/

omit auto in
theorem erased_operand (mem : o ∈ T.names) : g.erased [E, op o] = [E, op o] := by
  rw [erased_cons (isAction_of_isNonterminal arith.isNonterminal),
    erased_cons (isAction_of_isInput (arith.isInput_operator mem))]
  rfl

omit auto in
theorem erased_rule (mem : o ∈ T.names) : g.erased [E, op o, E] = [E, op o, E] := by
  have split : [E, op o, E] = [E, op o] ++ [E] := rfl
  rw [split, erased_append, arith.erased_operand mem,
    erased_cons (isAction_of_isNonterminal arith.isNonterminal)]
  rfl

omit auto in
theorem erased_leaf : g.erased [num] = [num] :=
  erased_cons (isAction_of_isInput arith.isInput_number) []

/-- Behind an operand the input may end, or an operator may stand. -/
theorem follow (h : T.Opens states E op q c) (stops : T.Stops op t) : Follow g states E q E t := by
  have operator : ∀ {q c}, T.Opens states E op q c → ∀ o ∈ T.names, Follow g states E q E (op o) := by
    intro q c h o mem
    have holds : Holds states q ⟨T.rule o, ([] : List Int).length⟩ :=
      (arith.holds_before auto h).2 (.inr (.inl ⟨o, mem, rfl⟩))
    have begins : g.First [op o, E] (op o) := by
      refine ⟨arith.isInput_operator mem, g.erased [E], ?_⟩
      rw [erased_cons (isAction_of_isInput (arith.isInput_operator mem))]
      exact .refl
    exact .first holds (arith.rule o mem) rfl arith.isNonterminal begins
  rcases stops with rfl | ⟨o, mem, rfl⟩
  · induction h with
    | first => exact .ends
    | @behind q r q' c o before step mem step' ih =>
      have holds : Holds states q ⟨T.rule o, 0⟩ :=
        (arith.holds_before auto before).2 (.inr (.inl ⟨o, mem, rfl⟩))
      have trail : Trail states q (g.erased [E, op o]) q' := by
        rw [arith.erased_operand mem]
        exact .cons step (.cons step' (.nil q'))
      have right : [E, op o, E] = [E, op o] ++ E :: [] := rfl
      exact .includes holds trail (arith.rule o mem) rule_ne_zero right arith.isNonterminal .refl ih
  · exact operator h o mem

theorem looks_rule (h : T.Opens states E op q (some o)) (step : goto? states q E = some r)
    (stops : T.Stops op t) : g.Looks states E r (T.rule o) t := by
  cases h with
  | @behind q₀ r₀ _ c _ before step₀ mem step₁ =>
    refine ⟨_, q₀, arith.rule o mem, (arith.holds_before auto before).2 (.inr (.inl ⟨o, mem, rfl⟩)), ?_,
      arith.follow auto before stops⟩
    rw [arith.erased_rule mem]
    exact .cons step₀ (.cons step₁ (.cons step (.nil r)))

theorem looks_leaf (h : T.Opens states E op q c) (step : goto? states q num = some r)
    (stops : T.Stops op t) : g.Looks states E r T.leaf t := by
  refine ⟨_, q, arith.leaf, (arith.holds_before auto h).2 (.inr (.inr rfl)), ?_, arith.follow auto h stops⟩
  rw [arith.erased_leaf]
  exact .cons step (.nil r)

end States

/-! ## Decisions -/

theorem levelOf_rule (mem : o ∈ T.names) :
    g.levelOf ⟨T.rule o, E, [E, op o, E], none, none⟩ = .ok (T.line o + 1) := by
  obtain ⟨e, at_e, kind_e⟩ := arith.start_kind
  obtain ⟨s, at_s, -, kind, precedence⟩ := arith.operator o mem
  have known_e : g.symbols.symbol E = .ok e := SymbolTable.symbol_eq_ok at_e
  have known : g.symbols.symbol (op o) = .ok s := SymbolTable.symbol_eq_ok at_s
  have found : g.precedenceOf ⟨T.rule o, E, [E, op o, E], none, none⟩ = .ok (some (T.precedence o)) := by
    show precedenceOf.lastTerminal g [E, op o, E] = _
    rw [precedenceOf.lastTerminal, known_e]
    show (if e.kind = .terminal then _ else precedenceOf.lastTerminal g [op o, E]) = _
    rw [if_neg (by simp [kind_e]), precedenceOf.lastTerminal, known]
    show (if s.kind = .terminal then (.ok s.precedence : Except Error _) else _) = _
    rw [if_pos kind, precedence]
  rw [levelOf, found]
  rfl

/-! ## Cells -/

omit arith in
/-- The cells that decide how a chain of operands is parsed. -/
structure Cells (T : OperatorTable) (states : Array State) (E num : Int) (op : String → Int)
    (tables : Tables) : Prop where
  number : ∀ {q r c}, T.Opens states E op q c → goto? states q num = some r →
    tables.action.get? ((q : Int), num) = some ⟨.shift, r⟩
  leaf : ∀ {q r c t}, T.Opens states E op q c → goto? states q num = some r → T.Stops op t →
    tables.action.get? ((r : Int), t) = some ⟨.reduce, T.leaf⟩
  shift : ∀ {q r q' c o}, T.Opens states E op q c → goto? states q E = some r → o ∈ T.names →
    goto? states r (op o) = some q' → (∀ p ∈ c, ¬ T.Takes p o) →
      tables.action.get? ((r : Int), op o) = some ⟨.shift, q'⟩
  reduce : ∀ {q r o t}, T.Opens states E op q (some o) → goto? states q E = some r →
    (t = endMarkerId ∨ ∃ p ∈ T.names, t = op p ∧ T.Takes o p) →
      tables.action.get? ((r : Int), t) = some ⟨.reduce, T.rule o⟩
  accept : ∀ {r}, goto? states 0 E = some r →
    tables.action.get? ((r : Int), endMarkerId) = some ⟨.accept, 0⟩

section Cells

variable {f : Facts} {la : Lookaheads} {m : Method} {tables : Tables} (analysed : g.Analysed E f)
  (sets : ∀ q k x, x ∈ la.at q k ↔ g.Looks g.explore E q k x)
  (contents : (g.having f).Contents g.explore ((g.having f).lookOf m la) tables)

/-- Behind the dot at its end a production has nothing, and the others before operators have. -/
theorem complete_behind {n : Int} {rule : Production}
    (hp : g.byNumber.get? n = some rule) (behind : T.Behind c ⟨n, rule.right.length⟩) :
    ⟨n, rule.right.length⟩ = (T.front c).advance := by
  rcases behind with same | ⟨o, mem, same⟩
  · exact same
  · have expects : g.Expects ⟨n, rule.right.length⟩ (op o) := same ▸ (arith.expects_rule mem).2 rfl
    exact absurd expects (not_expects_complete hp)

include contents in
theorem policy (holds : Holds g.explore q it) (input : g.isInput t = true) :
    Policy ((g.having f).Contender g.explore m la q t) ((g.having f).Decides q t)
      (tables.action.get? ((q : Int), t)) := by
  have settled := arith.toSettled.having f
  exact contents.policy settled settled.automaton (Array.getElem?_eq_getElem holds.inside) input

include analysed sets in
theorem contender_of_looks {n : Int} {rule : Production} (hp : g.byNumber.get? n = some rule) (other : n ≠ 0)
    (holds : Holds g.explore q ⟨n, rule.right.length⟩) (looks : g.Looks g.explore E q n t) :
    (g.having f).Contender g.explore m la q t ⟨.reduce, n⟩ := by
  refine .reduce hp other holds ?_
  cases m with
  | slr => exact ⟨rule, hp, looks.mem_followOf arith.toSettled analysed hp⟩
  | lalr => exact (sets q n t).2 looks

include analysed in
/-- A shift of an operator is settled by where the operand goes. -/
theorem decides (h : T.Opens g.explore E op q (some o)) (step : goto? g.explore q E = some r)
    (mem : p ∈ T.names) : (g.having f).Decides r (op p) (T.rule o)
      (if T.Takes o p then .reduce else .shift) := by
  have settled := arith.toSettled.having f
  have mem' := h.inside o rfl
  have hp : (g.having f).byNumber.get? (T.rule o) = some ⟨T.rule o, E, [E, op o, E], none, none⟩ :=
    arith.rule o mem'
  have input : (g.having f).isInput (op p) = true := arith.isInput_operator mem
  have follows : op p ∈ (g.having f).facts.followOf E :=
    (arith.looks_rule arith.toSettled.automaton h step (.inr ⟨p, mem, rfl⟩)).mem_followOf
      arith.toSettled analysed (arith.rule o mem')
  have leveled : (g.having f).levelOf ⟨T.rule o, E, [E, op o, E], none, none⟩ = .ok (T.line o + 1) :=
    arith.levelOf_rule mem'
  obtain ⟨s, at_s, -, -, precedence⟩ := arith.operator p mem
  have at_s : (g.having f).symbols.at? (op p) = some s := at_s
  obtain ⟨conflict, decided, -⟩ := settled.decide_spec input hp r
  refine ⟨_, conflict, hp, ?_⟩
  rw [decided, settled.verdict_eq hp at_s leveled, if_pos follows, precedence]
  have sided : (T.precedence p).associativity ≠ .nonassoc := side_ne_nonassoc mem
  simp only [sided, if_false, compareLevels_eq mem]

include contents in
theorem cell_number (h : T.Opens g.explore E op q c) (step : goto? g.explore q num = some r) :
    tables.action.get? ((q : Int), num) = some ⟨.shift, r⟩ := by
  have auto := arith.toSettled.automaton
  obtain ⟨-, it, holds, -⟩ := auto.moves step
  refine (arith.policy contents holds arith.isInput_number).eq_shift (.shift step) fun a candidate => ?_
  cases candidate with
  | shift step' => rw [Option.some.inj (step.symm.trans step')]
  | accept ended => exact absurd (ended ▸ step) (auto.no_goto_endMarker arith.toSettled)
  | reduce hp _ complete _ =>
    obtain ⟨x, expects⟩ := arith.exists_expects h.inside ((arith.holds_before auto h).1 complete)
    exact absurd expects (not_expects_complete hp)

include analysed sets contents in
theorem cell_leaf (h : T.Opens g.explore E op q c) (step : goto? g.explore q num = some r)
    (stops : T.Stops op t) : tables.action.get? ((r : Int), t) = some ⟨.reduce, T.leaf⟩ := by
  have auto := arith.toSettled.automaton
  have items : ∀ {it}, Holds g.explore r it ↔ it = ⟨T.leaf, 1⟩ := arith.holds_leaf auto h step
  have looks := arith.looks_leaf auto h step stops
  have reduce := arith.contender_of_looks analysed sets (m := m) arith.leaf leaf_ne_zero (items.2 rfl) looks
  have input : g.isInput t = true := arith.isInput_of_stops stops
  refine (arith.policy contents (items.2 rfl) input).eq_reduce reduce fun a candidate => ?_
  cases candidate with
  | shift step' =>
    obtain ⟨-, it, holds, expects⟩ := auto.moves step'
    rw [items.1 holds] at expects
    exact absurd expects (not_expects_complete arith.leaf)
  | accept _ holds => exact absurd (congrArg Item.production (items.1 holds)).symm leaf_ne_zero
  | reduce _ _ complete _ =>
    exact congrArg (fun it : Item => (⟨.reduce, it.production⟩ : Action)) (items.1 complete)

include analysed contents in
theorem cell_shift (h : T.Opens g.explore E op q c) (step : goto? g.explore q E = some r)
    (mem : o ∈ T.names) (step' : goto? g.explore r (op o) = some q') (leaves : ∀ p ∈ c, ¬ T.Takes p o) :
    tables.action.get? ((r : Int), op o) = some ⟨.shift, q'⟩ := by
  have auto := arith.toSettled.automaton
  have items : ∀ {it}, Holds g.explore r it ↔ T.Behind c it := arith.holds_behind auto h step
  have policy := arith.policy contents (items.2 (.inl rfl)) (arith.isInput_operator mem)
  refine policy.kept (.shift step') fun n candidate => ?_
  cases candidate with
  | reduce hp other complete _ =>
    have same := arith.complete_behind hp (items.1 complete)
    cases c with
    | none => exact absurd (congrArg Item.production same) other
    | some p =>
      obtain rfl : n = T.rule p := congrArg Item.production same
      have decided := arith.decides analysed h step mem
      rwa [if_neg (leaves p rfl)] at decided

include analysed sets contents in
theorem cell_reduce (h : T.Opens g.explore E op q (some o)) (step : goto? g.explore q E = some r)
    (stops : t = endMarkerId ∨ ∃ p ∈ T.names, t = op p ∧ T.Takes o p) :
    tables.action.get? ((r : Int), t) = some ⟨.reduce, T.rule o⟩ := by
  have auto := arith.toSettled.automaton
  have items : ∀ {it}, Holds g.explore r it ↔ T.Behind (some o) it := arith.holds_behind auto h step
  have mem := h.inside o rfl
  have complete : Holds g.explore r ⟨T.rule o, [E, op o, E].length⟩ := items.2 (.inl rfl)
  have stop : T.Stops op t := stops.imp_right fun ⟨p, mem', same, _⟩ => ⟨p, mem', same⟩
  have looks := arith.looks_rule auto h step stop
  have reduce := arith.contender_of_looks analysed sets (m := m) (arith.rule o mem) rule_ne_zero complete looks
  have policy := arith.policy contents complete (arith.isInput_of_stops stop)
  -- No other production is complete.
  have only : ∀ {n}, (g.having f).Contender g.explore m la r t ⟨.reduce, n⟩ → n = T.rule o := by
    intro n candidate
    cases candidate with
    | reduce hp _ complete' _ =>
      exact congrArg Item.production (arith.complete_behind hp (items.1 complete'))
  rcases stops with rfl | ⟨p, mem', rfl, takes⟩
  · refine policy.eq_reduce reduce fun a candidate => ?_
    cases candidate with
    | shift step' => exact absurd step' (auto.no_goto_endMarker arith.toSettled)
    | accept _ holds =>
      have same := arith.complete_behind arith.zero (items.1 holds)
      exact absurd (congrArg Item.production same).symm rule_ne_zero
    | reduce hp other complete' inside => rw [only (.reduce hp other complete' inside)]
  · obtain ⟨q', step'⟩ := arith.exists_goto_operator auto h step mem'
    refine policy.reduced (.shift step') reduce (fun k candidate lt => ?_) ?_
    · exact absurd (only candidate) (ne_of_lt lt)
    · have decided := arith.decides analysed h step mem'
      rwa [if_pos takes] at decided

include contents in
theorem cell_accept (step : goto? g.explore 0 E = some r) :
    tables.action.get? ((r : Int), endMarkerId) = some ⟨.accept, 0⟩ := by
  have holds := (arith.toSettled.automaton.holds_accepting arith.toSettled).2 step
  exact (arith.policy contents holds (isInput_endMarker arith.toLawful)).accept (.accept rfl holds)

end Cells

/-- Both methods build tables with these cells. -/
theorem exists_cells (untouched : g.facts = {}) (m : Method) :
    ∃ f tables, buildTables m.name g = .ok tables (g.having f) ∧
      (g.having f).Tabled g.explore tables ∧ Cells T g.explore E num op tables := by
  obtain ⟨passes, f, la, -, analysed, -, sets, build⟩ := arith.toSettled.exists_contents untouched
  obtain ⟨tables, built, contents⟩ := build m
  exact ⟨f, tables, built, contents.toTabled, {
    number := arith.cell_number contents
    leaf := arith.cell_leaf analysed sets contents
    shift := arith.cell_shift analysed contents
    reduce := arith.cell_reduce analysed sets contents
    accept := arith.cell_accept contents }⟩

end Arithmetic

end OperatorTable

end ParserGenerator
