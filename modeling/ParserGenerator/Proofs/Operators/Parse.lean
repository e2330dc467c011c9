import ParserGenerator.Proofs.LR.Completeness
import ParserGenerator.Proofs.Operators.States

/-!
# Parsing with operators

From a state before an operand a parser reads the tokens of a grouped tree and reduces its operands before
their operators. For that the operator before the operand has to leave it to the operators of the tree, and
these have to keep it from what stands behind. So a chain of numbers and operators is accepted with the
reductions of its grouped tree. As only chains are derived, all other tokens are refused.
-/

namespace ParserGenerator

open Grammar OperatorTree ParserGenerator.Parser

namespace OperatorTable

variable {T : OperatorTable} {g : Grammar} {marker E num : Int} {op : String → Int} {p : Parser}
  {states : Array State} {q r : Nat} {c : Option String} {o : String} {x top : Int} {below α w : List Int}
  {t : OperatorTree} {token : Token} {tokens front back rest : List Token} {limit : Nat}

/-- The tokens are numbers with operators of the table between them. -/
def Chained (T : OperatorTable) (tokens : List Token) : Prop :=
  ∃ os, (∀ o ∈ os, o ∈ T.names) ∧ tokens.map Token.kind = chain os

theorem Chained.number (named : token.kind = "NUM") : T.Chained [token] :=
  ⟨[], by simp, congrArg (fun kind => [kind]) named⟩

theorem Chained.append (h : T.Chained front) (inside : token.kind ∈ T.names) (h' : T.Chained back) :
    T.Chained (front ++ token :: back) := by
  obtain ⟨os, within, spelled⟩ := h
  obtain ⟨os', within', spelled'⟩ := h'
  refine ⟨os ++ token.kind :: os', ?_, ?_⟩
  · exact List.forall_mem_append.2 ⟨within, List.forall_mem_cons.2 ⟨inside, within'⟩⟩
  · rw [List.map_append, List.map_cons, spelled, spelled', chain_append]

namespace Arithmetic

variable (arith : T.Arithmetic g marker E num op)
include arith

theorem isTerminal_number : IsTerminal g token num ↔ token.kind = "NUM" := by
  obtain ⟨s, at_s, named, kind⟩ := arith.number
  rw [isTerminal_iff at_s (isInput_of_terminal kind), named]

theorem isTerminal_operator (inside : o ∈ T.names) : IsTerminal g token (op o) ↔ token.kind = o := by
  obtain ⟨s, at_s, named, kind, -⟩ := arith.operator o inside
  rw [isTerminal_iff at_s (isInput_of_terminal kind), named]

/-! ## Chains are accepted -/

section Accepts

variable (uses : p.Uses g states)
include uses

theorem goto_expression (step : goto? states q E = some r) : p.tables.goto.get? ((q : Int), E) = some ↑r :=
  uses.tables.goto.2 ⟨isInput_of_isNonterminal arith.isNonterminal, r, step, rfl⟩

/-- A number that lies on the stack is made an operand. -/
theorem leads_leaf (step : goto? states q E = some r) (read : p.terminalOf rest.head? = .ok x)
    (found : p.tables.action.get? (top, x) = some ⟨.reduce, T.leaf⟩) :
    p.Leads 1 [T.leaf] (config top (q :: below) rest) (config r (q :: below) rest) := by
  have length := uses.tables.length arith.leaf
  rw [arith.erased_leaf] at length
  exact .of_reduce (cell_eq read found) (perform_reduce_of length (uses.tables.left arith.leaf)
    (by simp) rfl (arith.goto_expression uses step) rest)

/-- An operator that lies on the stack with its operands is made an operand with them. -/
theorem leads_rule (inside : o ∈ T.names) (step : goto? states q E = some r)
    (read : p.terminalOf rest.head? = .ok x)
    (found : p.tables.action.get? (top, x) = some ⟨.reduce, T.rule o⟩) (first second : Int) :
    p.Leads 1 [T.rule o] (config top (second :: first :: q :: below) rest)
      (config r (q :: below) rest) := by
  have length := uses.tables.length (arith.rule o inside)
  rw [arith.erased_rule inside] at length
  exact .of_reduce (cell_eq read found) (perform_reduce_of length (uses.tables.left (arith.rule o inside))
    (by simp) rfl (arith.goto_expression uses step) rest)

variable (auto : g.Automaton states) (cells : Cells T states E num op p.tables)
include auto cells

/-- The tokens of a grouped tree are read and reduced. -/
theorem leads_tree (grouped : t.Grouped T) (known : ∀ o ∈ t.operators, o ∈ T.names)
    (opens : T.Opens states E op q c) (step : goto? states q E = some r)
    (spelled : tokens.map Token.kind = t.kinds) (read : p.terminalOf rest.head? = .ok x)
    (stops : T.Stops op x) (leaves : ∀ o ∈ c, ∀ o' ∈ t.operators, ¬ T.Takes o o')
    (keeps : ∀ o ∈ t.operators, x = endMarkerId ∨ ∃ o' ∈ T.names, x = op o' ∧ T.Takes o o') :
    p.Leads (2 * tokens.length) (t.reductions T) (config q below (tokens ++ rest))
      (config r (q :: below) rest) := by
  induction t generalizing q r c x below tokens rest with
  | number =>
    obtain ⟨token, tail, rfl, named, none⟩ := List.map_eq_cons_iff.1 spelled
    obtain rfl := List.map_eq_nil_iff.1 none
    obtain ⟨r', step'⟩ := arith.exists_goto_number auto opens
    have reads := terminalOf_of_isTerminal arith.table uses (arith.isTerminal_number.2 named)
    have shift : p.Leads 1 [] (config q below (token :: rest)) (config r' (q :: below) rest) :=
      .of_shift (cell_eq reads (cells.number opens step')) perform_shift
    exact shift.trans (arith.leads_leaf uses step read (cells.leaf opens step' stops))
  | node left o right ihl ihr =>
    obtain ⟨ofLeft, ofRight, takes, others⟩ := grouped
    obtain ⟨front, tail, rfl, before, behind⟩ := List.map_eq_append_iff.1 spelled
    obtain ⟨token, back, rfl, rfl, after⟩ := List.map_eq_cons_iff.1 behind
    simp only [operators, List.mem_append, List.mem_cons] at known leaves keeps
    have inside := known token.kind (.inr (.inl rfl))
    -- The left operand comes first: whatever operators are in it take their operands from the one behind it.
    have reads := terminalOf_of_isTerminal arith.table uses ((arith.isTerminal_operator inside).2 rfl)
    have first : p.Leads (2 * front.length) (left.reductions T)
        (config q below (front ++ (token :: back ++ rest)))
        (config r (q :: below) (token :: back ++ rest)) :=
      ihl ofLeft (fun o mem => known o (.inl mem)) opens step before reads (.inr ⟨_, inside, rfl⟩)
        (fun o mem o' mem' => leaves o mem o' (.inl mem'))
        (fun o mem => .inr ⟨_, inside, rfl, takes o mem⟩)
    -- The operator is shifted, since the one before it leaves the operand to it.
    obtain ⟨q', step'⟩ := arith.exists_goto_operator auto opens step inside
    have shift : p.Leads 1 [] (config r (q :: below) (token :: back ++ rest))
        (config q' (r :: q :: below) (back ++ rest)) :=
      .of_shift (cell_eq reads (cells.shift opens step inside step' fun o mem =>
        leaves o mem _ (.inr (.inl rfl)))) perform_shift
    -- Then comes the right operand, to whose operators this one leaves the operands.
    have opens' : T.Opens states E op q' (some token.kind) := .behind opens step inside step'
    obtain ⟨r', step''⟩ := arith.exists_goto_expression auto opens'
    have second : p.Leads (2 * back.length) (right.reductions T)
        (config q' (r :: q :: below) (back ++ rest)) (config r' (q' :: r :: q :: below) rest) :=
      ihr ofRight (fun o mem => known o (.inr (.inr mem))) opens' step'' after read stops
        (fun o mem o' mem' => Option.some.inj mem ▸ others o' mem')
        (fun o mem => keeps o (.inr (.inr mem)))
    -- The operator is reduced, since it keeps its right operand from what stands behind.
    have reduce : p.Leads 1 [T.rule token.kind] (config r' (q' :: r :: q :: below) rest)
        (config r (q :: below) rest) :=
      arith.leads_rule uses inside step read (cells.reduce opens' step'' (keeps _ (.inr (.inl rfl)))) r q'
    have whole := ((first.trans shift).trans second).trans reduce
    have steps : 2 * (front ++ token :: back).length =
        1 + (2 * back.length + (1 + 2 * front.length)) := by
      rw [List.length_append, List.length_cons]
      omega
    rw [List.append_nil] at whole
    rw [steps, List.append_assoc]
    exact whole

/-- The tokens of a grouped tree are accepted. -/
theorem run_tree (grouped : t.Grouped T) (known : ∀ o ∈ t.operators, o ∈ T.names)
    (spelled : tokens.map Token.kind = t.kinds) (enough : 2 * tokens.length < limit) :
    (p.run TokenSource.list limit (config 0 [] tokens)).verdict = .accepted ∧
      (p.run TokenSource.list limit (config 0 [] tokens)).reductions = t.reductions T := by
  have opens : T.Opens states E op 0 none := .first
  obtain ⟨r, step⟩ := arith.exists_goto_expression auto opens
  have leads : p.Leads (2 * tokens.length) (t.reductions T) (config 0 [] (tokens ++ []))
      (config r [0] []) :=
    arith.leads_tree uses auto cells grouped known opens step spelled rfl (.inl rfl) (by simp)
      fun _ _ => .inl rfl
  rw [List.append_nil] at leads
  obtain ⟨limit, rfl⟩ : ∃ k, limit = k + 1 + 2 * tokens.length :=
    ⟨limit - (2 * tokens.length + 1), by omega⟩
  have last : p.run TokenSource.list (limit + 1) (config r [0] []) = ⟨[⟨⟨.accept, 0⟩, r⟩], .accepted⟩ :=
    run_accepted (cell_eq rfl (cells.accept step)) rfl
  obtain ⟨verdict, reductions⟩ := leads (limit + 1)
  rw [verdict, reductions, last]
  exact ⟨rfl, List.append_nil _⟩

end Accepts

/-! ## Only chains are accepted -/

theorem expression_ne_marker : E ≠ marker :=
  fun same => leaf_ne_zero (arith.marker_left arith.leaf same)

/-- What the nonterminal derives is a number, or an operator stands between two parts that it derives. -/
theorem yields_cases (h : g.Yields [E] w) : w = [num] ∨ ∃ o ∈ T.names, ∃ v v',
    w = v ++ op o :: v' ∧ g.Yields [E] v ∧ g.Yields [E] v' := by
  obtain ⟨n, rule, hp, left, own⟩ := h.of_isNonterminal arith.isNonterminal
  rcases arith.only hp with rfl | ⟨o, mem, rfl⟩ | rfl
  · cases arith.zero.symm.trans hp
    exact absurd left.symm arith.expression_ne_marker
  · cases (arith.rule o mem).symm.trans hp
    rw [arith.erased_rule mem] at own
    obtain ⟨v, behind, rfl, first, rest⟩ := own.split (α := [E])
    obtain ⟨v', rfl, second⟩ := rest.of_isInput arith.toLawful (arith.isInput_operator mem)
    exact .inr ⟨o, mem, v, v', rfl, first, second⟩
  · cases arith.leaf.symm.trans hp
    rw [arith.erased_leaf] at own
    obtain ⟨v, rfl, none⟩ := own.of_isInput arith.toLawful arith.isInput_number
    cases none
    exact .inl rfl

theorem chained_of_yields (h : g.Yields [E] w) (spells : g.Spells tokens w) : T.Chained tokens := by
  induction length : w.length using Nat.strong_induction_on generalizing w tokens with
  | _ n ih =>
  subst length
  rcases arith.yields_cases h with rfl | ⟨o, mem, v, v', rfl, first, second⟩
  · cases spells with
    | cons terminal none =>
      cases none
      exact .number (arith.isTerminal_number.1 terminal)
  · have before := List.forall₂_take_append _ _ _ spells
    have behind := List.forall₂_drop_append _ _ _ spells
    rw [← List.take_append_drop v.length tokens]
    generalize tokens.take v.length = front at before
    generalize tokens.drop v.length = rest at behind
    cases behind with
    | cons terminal after =>
      rw [List.length_append, List.length_cons] at ih
      refine .append (ih _ (by omega) first before rfl) ?_ (ih _ (by omega) second after rfl)
      rwa [(arith.isTerminal_operator mem).1 terminal]

/-! ## Runs are over -/

section Ends

variable (auto : g.Automaton states)
include auto

theorem not_stacked_marker (stacked : Stacked states q below (α ++ [marker])) : False := by
  generalize whole : α ++ [marker] = β at stacked
  cases stacked with
  | bottom => simp at whole
  | push before step =>
    obtain ⟨-, same⟩ := List.append_inj' whole rfl
    cases same
    obtain ⟨-, it, -, expects⟩ := auto.moves step
    exact arith.marker_ne expects

/-- After two steps for each token, and one for each terminal on the stack, a run is over. -/
theorem run_ends (uses : p.Uses g states) (stacked : Stacked states q below α)
    (enough : 2 * tokens.length + α.countP (· ≠ E) < limit) :
    (p.run TokenSource.list limit (config q below tokens)).verdict = .accepted ∨
      ∃ e, (p.run TokenSource.list limit (config q below tokens)).verdict = .failed (.source e) := by
  induction limit generalizing q below α tokens with
  | zero => exact absurd enough (Nat.not_lt_zero _)
  | succ limit ih =>
    cases stepFrom arith.toSettled auto uses stacked tokens with
    | refused refused => exact .inr ⟨_, by rw [run_refused refused]⟩
    | chained found failed => exact .inr ⟨_, by rw [run_failed found failed]⟩
    | accept found _ _ => exact .inl (by rw [run_accepted found rfl])
    | shift eq terminal _ found performed stacked' =>
      rename_i x _ _
      subst eq
      rw [run_step found performed]
      refine ih stacked' ?_
      have most : [x].countP (· ≠ E) ≤ 1 := List.countP_le_length
      rw [List.length_cons] at enough
      rw [List.countP_append]
      omega
    | reduce hp eq found performed stacked' =>
      subst eq
      rw [run_step found (performed tokens)]
      refine ih stacked' ?_
      rcases arith.only hp with rfl | ⟨o, mem, rfl⟩ | rfl
      · cases arith.zero.symm.trans hp
        exact (arith.not_stacked_marker auto stacked').elim
      · cases (arith.rule o mem).symm.trans hp
        have other := arith.expression_ne_of_isInput (arith.isInput_operator mem)
        rw [arith.erased_rule mem] at enough
        simp [other] at enough ⊢
        omega
      · cases arith.leaf.symm.trans hp
        have other := arith.expression_ne_of_isInput arith.isInput_number
        rw [arith.erased_leaf] at enough
        simp [other] at enough ⊢
        omega

end Ends

/-! ## What is made of tokens -/

omit arith in
theorem having (arith : T.Arithmetic g marker E num op) (f : Facts) :
    T.Arithmetic (g.having f) marker E num op where
  toSettled := arith.toSettled.having f
  number := arith.number
  operator := arith.operator
  rule := arith.rule
  leaf := arith.leaf
  only := arith.only

section Verdicts

variable (uses : p.Uses g states) (auto : g.Automaton states)
include uses auto

theorem chained_of_accepted (ordinary : ∀ token ∈ tokens, token.kind ≠ endMarkerName)
    (accepted : (p.parseTokens tokens limit).verdict = .accepted) : T.Chained tokens := by
  rw [parseTokens_eq uses] at accepted
  obtain ⟨w, spells, derivation⟩ := run_sound arith.toSettled auto uses .bottom ordinary accepted
  exact arith.chained_of_yields (yields_of_derives derivation.derives spells.terminals) spells

theorem parse_ends (enough : 2 * tokens.length < limit) :
    (p.parseTokens tokens limit).verdict = .accepted ∨
      ∃ e, (p.parseTokens tokens limit).verdict = .failed (.source e) := by
  rw [parseTokens_eq uses]
  exact arith.run_ends auto uses .bottom enough

variable (cells : Cells T states E num op p.tables)
include cells

theorem parse_chained (chained : T.Chained tokens) (enough : 2 * tokens.length < limit) :
    (p.parseTokens tokens limit).verdict = .accepted ∧ ∃ t : OperatorTree,
      (∀ t', t'.Grouped T ∧ t'.kinds = tokens.map Token.kind ↔ t' = t) ∧
        (p.parseTokens tokens limit).reductions = t.reductions T := by
  obtain ⟨os, within, spelled⟩ := chained
  obtain ⟨t, ⟨grouped, kinds⟩, unique⟩ := existsUnique_grouped T os
  have known : ∀ o ∈ t.operators, o ∈ T.names := by
    rwa [chain_injective ((kinds_eq t).symm.trans kinds)]
  rw [parseTokens_eq uses, spelled]
  obtain ⟨accepted, reductions⟩ :=
    arith.run_tree uses auto cells grouped known (spelled.trans kinds.symm) enough
  refine ⟨accepted, t, fun t' => ⟨unique t', ?_⟩, reductions⟩
  rintro rfl
  exact ⟨grouped, kinds⟩

theorem parse_accepted (ordinary : ∀ token ∈ tokens, token.kind ≠ endMarkerName)
    (accepted : (p.parseTokens tokens limit).verdict = .accepted) : ∃ t : OperatorTree,
      (∀ t', t'.Grouped T ∧ t'.kinds = tokens.map Token.kind ↔ t' = t) ∧
        (p.parseTokens tokens limit).reductions = t.reductions T := by
  have chained := arith.chained_of_accepted uses auto ordinary accepted
  have enough : 2 * tokens.length < limit + (2 * tokens.length + 1) := by omega
  obtain ⟨-, t, only, reductions⟩ := arith.parse_chained uses auto cells chained enough
  rw [parseTokens_eq uses] at accepted reductions ⊢
  rw [run_of_accepted accepted (Nat.le_add_right ..)] at reductions
  exact ⟨t, only, reductions⟩

end Verdicts

end Arithmetic

/-- With tables by either method exactly the chains of numbers and operators are accepted, with the
reductions of the one tree in which every operand goes where the declared lines say. All other tokens are
refused. -/
theorem parse_by_precedence (T : OperatorTable) (m : Method) :
    Grammar.Declared T.grammar ∧ T.grammar.closed = true ∧
    ∃ tables g', buildTables m.name T.grammar = .ok tables g' ∧
      ∀ (text : List Char) (tokens : List Token), (∀ token ∈ tokens, token.kind ≠ endMarkerName) →
        let run := Parser.parseTokens ⟨tables, g'.symbols, text⟩ tokens
        ((∃ limit, (run limit).verdict = .accepted) ↔ T.Chained tokens) ∧
        (∀ limit, (run limit).verdict = .accepted → ∃ t : OperatorTree,
          (∀ t', t'.Grouped T ∧ t'.kinds = tokens.map Token.kind ↔ t' = t) ∧
            (run limit).reductions = t.reductions T) ∧
        ∀ limit > 2 * tokens.length, T.Chained tokens ∧ (run limit).verdict = .accepted ∨
          ¬ T.Chained tokens ∧ ∃ e, (run limit).verdict = .failed (.source e) := by
  obtain ⟨closed, untouched, marker, E, num, op, bare⟩ := T.exists_arithmetic
  obtain ⟨f, tables, built, tabled, cells⟩ := bare.exists_cells untouched m
  have arith := bare.having f
  have auto := arith.toSettled.automaton
  refine ⟨T.declared_grammar, closed, tables, _, built, fun text tokens ordinary => ?_⟩
  have uses : (⟨tables, (T.grammar.having f).symbols, text⟩ : Parser).Uses _ _ := ⟨tabled, rfl⟩
  refine ⟨⟨?_, fun chained => ?_⟩, fun limit accepted => ?_, fun limit enough => ?_⟩
  · rintro ⟨limit, accepted⟩
    exact arith.chained_of_accepted uses auto ordinary accepted
  · exact ⟨_, (arith.parse_chained uses auto cells chained (Nat.lt_succ_self _)).1⟩
  · exact arith.parse_accepted uses auto cells ordinary accepted
  · by_cases chained : T.Chained tokens
    · exact .inl ⟨chained, (arith.parse_chained uses auto cells chained enough).1⟩
    · refine .inr ⟨chained, (arith.parse_ends uses auto enough).resolve_left fun accepted => ?_⟩
      exact chained (arith.chained_of_accepted uses auto ordinary accepted)

/-- Sums bind less tightly than products, and these less than powers, which group to the right. -/
def powers : OperatorTable where
  names := ["+", "-", "*", "^"]
  lines := [(.left, ["+", "-"]), (.left, ["*"]), (.right, ["^"])]
  distinct := by decide
  plain := by decide
  once := by decide
  declared := by decide
  sided := by decide

/-- Tokens for `NUM - NUM + NUM * NUM ^ NUM ^ NUM`. -/
def powerTokens : List Token :=
  ["NUM", "-", "NUM", "+", "NUM", "*", "NUM", "^", "NUM", "^", "NUM"].map fun kind => ⟨kind, kind, 1, 1, 0⟩

theorem parse_by_precedence_powers : Grammar.Declared powers.grammar ∧ powers.grammar.closed = true ∧
    ∃ tables g', buildTables Method.lalr.name powers.grammar = .ok tables g' ∧
      (∀ token ∈ powerTokens, token.kind ≠ endMarkerName) ∧
      ∃ limit, (Parser.parseTokens ⟨tables, g'.symbols, []⟩ powerTokens limit).verdict = .accepted ∧
        (Parser.parseTokens ⟨tables, g'.symbols, []⟩ powerTokens limit).reductions =
          [5, 5, 2, 5, 5, 5, 5, 4, 4, 3, 1] := by
  obtain ⟨declared, closed, tables, g', built, parses⟩ := parse_by_precedence powers .lalr
  have ordinary : ∀ token ∈ powerTokens, token.kind ≠ endMarkerName := by decide
  obtain ⟨accepts, reduces, -⟩ := parses [] powerTokens ordinary
  have chained : powers.Chained powerTokens := ⟨["-", "+", "*", "^", "^"], by decide, by decide⟩
  obtain ⟨limit, accepted⟩ := accepts.2 chained
  obtain ⟨t, only, reductions⟩ := reduces limit accepted
  obtain rfl := (only (.node (.node .number "-" .number) "+" (.node .number "*"
    (.node .number "^" (.node .number "^" .number))))).1 ⟨by decide, by decide⟩
  exact ⟨declared, closed, tables, g', built, ordinary, limit, accepted, reductions⟩

end OperatorTable

end ParserGenerator
