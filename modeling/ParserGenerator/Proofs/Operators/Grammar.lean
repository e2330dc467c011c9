import ParserGenerator.Proofs.Grammar.Additions
import ParserGenerator.Proofs.Grammar.Effects
import ParserGenerator.Proofs.Operators.Tree

/-!
# The grammar of binary operators

The grammar has one nonterminal. For each operator it has a production over two operands, in the order of
the table, and at last one for numbers. The calls that make it all succeed: names are declared first, then
the lines of operators, then the productions.
-/

namespace ParserGenerator

open Grammar (Call RightSymbol startMarkerName)

namespace OperatorTable

variable {T : OperatorTable} {g : Grammar} {E num : Int} {op : String → Int} {o : String}

def calls (T : OperatorTable) : List Call :=
  ("NUM" :: T.names).map Call.declareTerminal ++ [.declareNonterminal "E" ""] ++
    T.lines.map (fun l => Call.declarePrecedence l.1.name l.2) ++
    T.names.map (fun o => Call.addProduction "E" [.name "E", .name o, .name "E"] none none) ++
    [.addProduction "E" [.name "NUM"] none none, .close none]

def grammar (T : OperatorTable) : Grammar := T.calls.foldl Call.after .fresh

/-- The precedence of an operator: each line has a level. -/
def precedence (T : OperatorTable) (o : String) : Precedence := ⟨T.side o, T.line o + 1⟩

theorem declared_grammar (T : OperatorTable) : Grammar.Declared T.grammar := by
  refine Grammar.Declared.fresh.calls fun c mem g => ?_
  have plain : ∀ o ∈ T.names, o ≠ startMarkerName := fun o inside => (T.plain o inside).2.2.2.2
  have own : "E" ≠ startMarkerName := by decide
  have leaf : "NUM" ≠ startMarkerName := by decide
  simp only [calls, List.map_cons, List.mem_append, List.mem_cons, List.mem_map, List.not_mem_nil,
    or_false] at mem
  rcases mem with ((((rfl | ⟨o, inside, rfl⟩) | rfl) | ⟨l, -, rfl⟩) | ⟨o, inside, rfl⟩) | rfl | rfl
  · exact leaf
  · exact plain o inside
  · exact own
  · trivial
  · exact ⟨own, by simp [RightSymbol.Fits, own, plain o inside]⟩
  · exact ⟨own, by simp [RightSymbol.Fits, leaf]⟩
  · trivial

theorem rule_ne_zero : T.rule o ≠ 0 := by
  rw [rule]
  omega

theorem leaf_ne_zero : T.leaf ≠ 0 := by
  rw [leaf]
  omega

theorem exists_line (inside : o ∈ T.names) :
    ∃ l, T.lines[T.line o]? = some l ∧ o ∈ l.2 ∧ l.1 = T.side o := by
  obtain ⟨l, mem, holds⟩ := List.mem_flatMap.1 (T.declared o inside)
  have found : T.line o < T.lines.length := List.findIdx_lt_length.2 ⟨l, mem, by simpa using holds⟩
  have at_line : T.lines[T.line o]? = some T.lines[T.line o] := List.getElem?_eq_getElem found
  refine ⟨_, at_line, ?_, ?_⟩
  · exact of_decide_eq_true (List.findIdx_getElem (w := found))
  · rw [side, at_line]
    rfl

/-! ## While productions are added -/

/-- The names of the grammar are in place, and there is one nonterminal. -/
structure Alphabet (T : OperatorTable) (g : Grammar) (E num : Int) (op : String → Int) : Prop extends
    g.Open where
  expression : ∃ s, g.symbols.at? E = some s ∧ s.name = "E" ∧ s.kind = .nonterminal
  number : ∃ s, g.symbols.at? num = some s ∧ s.name = "NUM" ∧ s.kind = .terminal
  operator : ∀ o ∈ T.names, ∃ s, g.symbols.at? (op o) = some s ∧ s.name = o ∧ s.kind = .terminal
  known : ∀ {id s}, g.symbols.at? id = some s → s.kind ≠ .unknown ∧ (s.kind = .nonterminal → id = E)
  begun : g.start = none ∨ g.start = some "E"

namespace Alphabet

theorem placed_expression (alphabet : T.Alphabet g E num op) : g.Placed "E" E := by
  obtain ⟨s, at_s, named, kind⟩ := alphabet.expression
  exact ⟨by decide, s, at_s, named, by simp [kind], by simp [kind]⟩

theorem placed_number (alphabet : T.Alphabet g E num op) : g.Placed "NUM" num := by
  obtain ⟨s, at_s, named, kind⟩ := alphabet.number
  exact ⟨by decide, s, at_s, named, by simp [kind], by simp [kind]⟩

theorem placed_operator (alphabet : T.Alphabet g E num op) (inside : o ∈ T.names) : g.Placed o (op o) := by
  obtain ⟨s, at_s, named, kind⟩ := alphabet.operator o inside
  exact ⟨(T.plain o inside).1, s, at_s, named, by simp [kind], by simp [kind]⟩

/-- A production of the nonterminal is added. -/
theorem add (alphabet : T.Alphabet g E num op) {names : List String} {ids : List Int}
    (placed : List.Forall₂ g.Placed names ids) :
    let g' := Call.after g (.addProduction "E" (names.map RightSymbol.name) none none)
    T.Alphabet g' E num op ∧ g'.start = some "E" ∧ g'.labels = g.labels ∧
      g'.nextNumber = g.nextNumber + 1 ∧ ∀ n, g'.byNumber.get? n =
        if g.nextNumber = n then some ⟨g.nextNumber, E, ids, none, none⟩ else g.byNumber.get? n := by
  intro g'
  obtain ⟨e, at_e, named, kind⟩ := alphabet.expression
  obtain rfl := alphabet.table.id_eq at_e
  have after : g' = { g.withProduction ⟨g.nextNumber, e.id, ids, none, none⟩ e with
      nextNumber := g.nextNumber + 1
      start := g.start <|> some "E" } := by
    have added := alphabet.addProduction_known at_e (by rw [named]; decide) kind placed
    rw [named] at added
    show Build.leaves _ g = _
    rw [Build.leaves, added]
  have begun : (g.start <|> some "E") = some "E" := by
    rcases alphabet.begun with none | own
    · rw [none]; rfl
    · rw [own]; rfl
  have keeps : ∀ {id name kind}, (∃ s, g.symbols.at? id = some s ∧ s.name = name ∧ s.kind = kind) →
      ∃ s, g'.symbols.at? id = some s ∧ s.name = name ∧ s.kind = kind := by
    rintro id name kind ⟨x, at_x, rfl, rfl⟩
    rw [after]
    exact alphabet.old_withProduction at_e at_x
  refine ⟨{
    toOpen := by
      rw [after]
      exact alphabet.withProduction rfl at_e kind (alphabet.usable_of_placed placed) _
    expression := keeps alphabet.expression
    number := keeps alphabet.number
    operator := fun o inside => keeps (alphabet.operator o inside)
    known := by
      rw [after]
      intro id s at_s
      obtain ⟨x, at_x, -, same⟩ := alphabet.of_withProduction at_e at_s
      rw [same]
      exact alphabet.known at_x
    begun := by
      rw [after]
      exact .inr begun }, ?_, ?_, ?_, ?_⟩
  · rw [after]
    exact begun
  · rw [after]
    rfl
  · rw [after]
  · rw [after]
    exact fun n => OrderedMap.get?_insert

/-- The productions for operators take the numbers in order. -/
theorem addOperators (alphabet : T.Alphabet g E num op) {names : List String}
    (within : ∀ o ∈ names, o ∈ T.names) :
    ∃ g', (names.map fun o => Call.addProduction "E" [.name "E", .name o, .name "E"] none none).foldl
        Call.after g = g' ∧ T.Alphabet g' E num op ∧ g'.labels = g.labels ∧
      g'.nextNumber = g.nextNumber + names.length ∧
      (∀ n < g.nextNumber, g'.byNumber.get? n = g.byNumber.get? n) ∧
      ∀ {i : Nat} {o : String}, names[i]? = some o → g'.byNumber.get? (g.nextNumber + i) =
        some ⟨g.nextNumber + i, E, [E, op o, E], none, none⟩ := by
  induction names generalizing g with
  | nil => exact ⟨g, rfl, alphabet, rfl, by simp, fun _ _ => rfl, by simp⟩
  | cons o names ih =>
    obtain ⟨inside, within⟩ := List.forall_mem_cons.1 within
    have placed : List.Forall₂ g.Placed ["E", o, "E"] [E, op o, E] :=
      .cons alphabet.placed_expression (.cons (alphabet.placed_operator inside)
        (.cons alphabet.placed_expression .nil))
    obtain ⟨alphabet₁, -, labels₁, next₁, filed₁⟩ := alphabet.add placed
    obtain ⟨g', eq, alphabet', labels, next, before, filed⟩ := ih alphabet₁ within
    rw [next₁] at next before filed
    refine ⟨g', eq, alphabet', labels.trans labels₁, ?_, ?_, ?_⟩
    · rw [next, List.length_cons]
      push_cast
      omega
    · intro n lt
      rw [before n (by omega), filed₁, if_neg (by omega)]
    · intro i o' at_i
      cases i with
      | zero =>
        obtain rfl : o = o' := Option.some.inj at_i
        rw [Int.natCast_zero, Int.add_zero, before _ (by omega), filed₁, if_pos rfl]
      | succ i =>
        have := filed at_i
        rw [show g.nextNumber + 1 + (i : Int) = g.nextNumber + ((i + 1 : Nat) : Int) by push_cast; omega] at this
        exact this

end Alphabet

/-! ## The closed grammar -/

/-- A settled grammar with the productions for operators and for numbers, where the operators have their
precedence. -/
structure Arithmetic (T : OperatorTable) (g : Grammar) (marker E num : Int) (op : String → Int) : Prop
    extends g.Settled marker E where
  number : ∃ s, g.symbols.at? num = some s ∧ s.name = "NUM" ∧ s.kind = .terminal
  operator : ∀ o ∈ T.names, ∃ s, g.symbols.at? (op o) = some s ∧ s.name = o ∧ s.kind = .terminal ∧
    s.precedence = some (T.precedence o)
  rule : ∀ o ∈ T.names, g.byNumber.get? (T.rule o) = some ⟨T.rule o, E, [E, op o, E], none, none⟩
  leaf : g.byNumber.get? T.leaf = some ⟨T.leaf, E, [num], none, none⟩
  only : ∀ {n p}, g.byNumber.get? n = some p → n = 0 ∨ (∃ o ∈ T.names, n = T.rule o) ∨ n = T.leaf

/-- The names of the table are declared. -/
theorem exists_names (T : OperatorTable) : ∃ g : Grammar,
    (("NUM" :: T.names).map Call.declareTerminal ++ [Call.declareNonterminal "E" ""]).foldl Call.after
        .fresh = g ∧ Grammar.fresh.Grows g ∧ g.labels = ∅ ∧ g.level = 0 ∧
    ∀ n k, g.Knows n k ↔ (n = endMarkerName ∧ k = .endMarker ∨ n ∈ "NUM" :: T.names ∧ k = .terminal) ∨
      n = "E" ∧ k = .nonterminal := by
  have distinct : ("NUM" :: T.names).Nodup :=
    List.nodup_cons.2 ⟨fun mem => (T.plain _ mem).2.1 rfl, T.distinct⟩
  have plain : ∀ n ∈ "NUM" :: T.names, n ≠ startMarkerName :=
    List.forall_mem_cons.2 ⟨by decide, fun o mem => (T.plain o mem).2.2.2.2⟩
  have other : ∀ n ∈ "NUM" :: T.names, n ≠ endMarkerName :=
    List.forall_mem_cons.2 ⟨by decide, fun o mem => (T.plain o mem).2.2.2.1⟩
  have inner : ∀ n ∈ "NUM" :: T.names, n ≠ "E" :=
    List.forall_mem_cons.2 ⟨by decide, fun o mem => (T.plain o mem).2.2.1⟩
  obtain ⟨g, eq, grown, labels, level, knows⟩ := Grammar.open_fresh.declareTerminals distinct plain
    fun n mem k known => other n mem (Grammar.knows_fresh.1 known).1
  simp only [Grammar.knows_fresh] at knows
  have sound := grown.open_of_open Grammar.open_fresh
  have new : ∀ k, ¬ g.Knows "E" k := by
    intro k known
    rcases (knows "E" k).1 known with ended | ⟨mem, -⟩
    · exact absurd ended.1 (by decide)
    · exact inner _ mem rfl
  have declared : Call.after g (.declareNonterminal "E" "") = g.withName "E" .nonterminal := by
    rw [Call.after, Build.leaves, sound.declareNonterminal_new new]
  refine ⟨g.withName "E" .nonterminal, ?_,
    grown.trans (sound.grows_withName new (by decide) Grammar.declarable_nonterminal), labels, level, ?_⟩
  · rw [List.foldl_append, eq, List.foldl_cons, declared, List.foldl_nil]
  · intro n k
    rw [Grammar.knows_withName, knows]

/-- Names and lines are declared. -/
theorem exists_alphabet (T : OperatorTable) : ∃ g E num op,
    (("NUM" :: T.names).map Call.declareTerminal ++ [Call.declareNonterminal "E" ""] ++
      T.lines.map (fun l => Call.declarePrecedence l.1.name l.2)).foldl Call.after .fresh = g ∧
    T.Alphabet g E num op ∧ g.nextNumber = 1 ∧
    ∀ o ∈ T.names, g.labels.get? o = some (T.precedence o) := by
  obtain ⟨g, eq, grown, labels, level, knows⟩ := T.exists_names
  obtain ⟨g', eq', grown', symbols, -, entered⟩ := Grammar.declareLines_new grown.lawful T.once
    fun o _ => by rw [labels, OrderedMap.get?_empty]
  have sound := (grown.trans grown').open_of_open Grammar.open_fresh
  have known := knows
  simp only [Grammar.Knows, ← symbols] at known
  obtain ⟨E, e, at_e, named_e, kind_e⟩ := (known "E" .nonterminal).2 (.inr ⟨rfl, rfl⟩)
  obtain ⟨num, number⟩ := (known "NUM" .terminal).2 (.inl (.inr ⟨List.mem_cons_self, rfl⟩))
  have operators : ∀ o ∈ T.names, g'.Knows o .terminal := fun o mem =>
    (known o .terminal).2 (.inl (.inr ⟨List.mem_cons_of_mem _ mem, rfl⟩))
  choose! op operator using operators
  refine ⟨g', E, num, op, by rw [List.foldl_append, eq, eq'], {
    toOpen := sound
    expression := ⟨e, at_e, named_e, kind_e⟩
    number := number
    operator := operator
    known := ?_
    begun := .inl (grown.trans grown').start }, (grown.trans grown').nextNumber, ?_⟩
  · intro id s at_s
    rcases (known s.name s.kind).1 ⟨id, s, at_s, rfl, rfl⟩ with (⟨-, ended⟩ | ⟨-, terminal⟩) | ⟨own, kind⟩
    · simp [ended]
    · simp [terminal]
    · exact ⟨by simp [kind], fun _ => sound.table.name_inj at_s at_e (own.trans named_e.symm)⟩
  · intro o inside
    obtain ⟨l, at_line, mem, same⟩ := exists_line inside
    rw [entered at_line mem, level, same, precedence]
    simp

theorem rule_of_getElem? {i : Nat} (at_i : T.names[i]? = some o) : o ∈ T.names ∧ T.rule o = i + 1 := by
  obtain ⟨inside, rfl⟩ := List.getElem?_eq_some_iff.1 at_i
  exact ⟨List.getElem_mem inside, by rw [rule, T.distinct.idxOf_getElem]⟩

/-- With all its productions the grammar passes the checks. -/
theorem Alphabet.checked (alphabet : T.Alphabet g E num op) (begun : g.start = some "E") {n : Int}
    {p : Production} (hp : g.byNumber.get? n = some p) (left : p.left = E) : g.Checked "E" E where
  toOpen := alphabet.toOpen
  known := fun at_s => (alphabet.known at_s).1
  produced := by
    intro id s at_s kind empty
    obtain rfl := (alphabet.known at_s).2 kind
    have mem : p ∈ g.byNumber.values.filter (·.left = id) :=
      List.mem_filter.2 ⟨OrderedMap.mem_values.2 ⟨n, hp⟩, by simpa using left⟩
    rw [alphabet.filed at_s, List.map_eq_nil_iff] at empty
    rw [empty] at mem
    cases mem
  chosen := begun
  start := alphabet.expression

/-- There are productions for the operators and for numbers, and no others. -/
theorem Alphabet.only (alphabet : T.Alphabet g E num op) (next : g.nextNumber = T.leaf + 1) {n : Int}
    {p : Production} (hp : g.byNumber.get? n = some p) : (∃ o ∈ T.names, n = T.rule o) ∨ n = T.leaf := by
  obtain ⟨m, last, keys⟩ := alphabet.numbered
  have mem : n ∈ g.byNumber.keys := OrderedMap.mem_keys.2 ⟨p, hp⟩
  rw [keys] at mem
  obtain ⟨i, below, rfl⟩ := List.mem_map.1 mem
  rw [List.mem_range] at below
  rw [OperatorTable.leaf] at next
  rcases Nat.lt_or_eq_of_le (show i ≤ T.names.length by omega) with inside | rfl
  · obtain ⟨mem, same⟩ := rule_of_getElem? (List.getElem?_eq_getElem inside)
    exact .inl ⟨_, mem, same.symm⟩
  · exact .inr rfl

/-- What closing makes of the grammar with all its productions. -/
theorem Alphabet.arithmetic {g₁ g' : Grammar} (alphabet : T.Alphabet g E num op)
    (source : Grammar.ClosedFrom g g₁ g') (begun : g.start = some "E")
    (labels : ∀ o ∈ T.names, g.labels.get? o = some (T.precedence o))
    (next : g.nextNumber = T.leaf + 1)
    (rule : ∀ {i : Nat} {o : String}, T.names[i]? = some o →
      g.byNumber.get? (i + 1 : Int) = some ⟨i + 1, E, [E, op o, E], none, none⟩)
    (leaf : g.byNumber.get? T.leaf = some ⟨T.leaf, E, [num], none, none⟩) :
    ∃ marker, T.Arithmetic g' marker E num op := by
  obtain ⟨⟨marker, first, settled⟩, -⟩ := source.complete
  have keeps := source.keeps
  -- The start symbol is the nonterminal.
  obtain ⟨e, at_e, named_e, kind_e⟩ := alphabet.expression
  obtain ⟨e', at_e', same_e, -⟩ := keeps at_e
  obtain rfl : first = E := by
    obtain ⟨s, name, at_s, chosen, named⟩ := settled.start_name
    rw [source.start, begun] at chosen
    cases chosen
    exact settled.table.name_inj at_s at_e' (named.trans (same_e.trans named_e).symm)
  refine ⟨marker, {
    toSettled := settled
    number := ?_
    operator := ?_
    rule := ?_
    leaf := ?_
    only := ?_ }⟩
  · obtain ⟨x, at_x, named, kind⟩ := alphabet.number
    obtain ⟨s, at_s, same, kept⟩ := keeps at_x
    exact ⟨s, at_s, same.trans named, (kept (by simp [kind])).trans kind⟩
  · intro o inside
    obtain ⟨x, at_x, named, kind⟩ := alphabet.operator o inside
    obtain ⟨s, at_s, same, kept⟩ := keeps at_x
    have terminal := (kept (by simp [kind])).trans kind
    refine ⟨s, at_s, same.trans named, terminal, ?_⟩
    have listed : (o, T.precedence o) ∈ g'.labels.toList := by
      rw [source.labels_after]
      exact OrderedMap.mem_toList.2 (labels o inside)
    have bears := (Grammar.bears_iff settled.table.seated).1 (source.labelled_after _ listed)
    exact bears s ((settled.table.id_eq at_s).symm ▸ at_s) (same.trans named) terminal
  · intro o inside
    have filed := rule (List.getElem?_idxOf inside)
    rw [source.get?_eq rule_ne_zero]
    exact filed
  · rw [source.get?_eq leaf_ne_zero, leaf]
  · intro n p hp
    by_cases zero : n = 0
    · exact .inl zero
    · rw [source.get?_eq zero] at hp
      exact .inr (alphabet.only next hp)

/-- The calls make a closed grammar for the operators. -/
theorem exists_arithmetic (T : OperatorTable) : T.grammar.closed = true ∧ T.grammar.facts = {} ∧
    ∃ marker E num op, T.Arithmetic T.grammar marker E num op := by
  obtain ⟨g₀, E, num, op, eq₀, alphabet₀, next₀, labels₀⟩ := T.exists_alphabet
  obtain ⟨g₁, eq₁, alphabet₁, labels₁, next₁, -, filed₁⟩ := alphabet₀.addOperators fun _ mem => mem
  obtain ⟨alphabet, begun, labels, next, filed⟩ :=
    alphabet₁.add (.cons alphabet₁.placed_number .nil)
  rw [next₀] at next₁ filed₁
  have last : g₁.nextNumber = T.leaf := by
    rw [next₁, leaf]
    omega
  rw [last] at next filed
  have leaf := (filed T.leaf).trans (if_pos rfl)
  obtain ⟨g₂, g', closing, source⟩ := (alphabet.checked begun leaf rfl).exists_close
  have ended : Build.leaves (Grammar.close none)
      (Call.after g₁ (.addProduction "E" (["NUM"].map RightSymbol.name) none none)) = g' := by
    rw [Build.leaves, closing]
  have made : T.grammar = g' := by
    rw [grammar, calls, List.foldl_append, List.foldl_append, eq₀, eq₁, List.foldl_cons, List.foldl_cons,
      List.foldl_nil]
    exact ended
  rw [made]
  obtain ⟨⟨marker, start, settled⟩, facts⟩ := source.complete
  refine ⟨settled.closed, facts, ?_⟩
  obtain ⟨marker, arithmetic⟩ := alphabet.arithmetic source begun
    (fun o inside => by rw [labels, labels₁, labels₀ o inside]) next (by
      intro i o at_i
      have inside := (List.getElem?_eq_some_iff.1 at_i).1
      rw [filed, if_neg (by rw [OperatorTable.leaf]; omega), ← Int.add_comm 1, filed₁ at_i]) leaf
  exact ⟨marker, E, num, op, arithmetic⟩

end OperatorTable

end ParserGenerator
