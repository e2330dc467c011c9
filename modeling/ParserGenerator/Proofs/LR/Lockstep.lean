import ParserGenerator.Proofs.LR.Soundness
import ParserGenerator.Proofs.LR.Transparency

/-!
# Parsers that differ in action symbols

With the tables of two grammars that are the same but for action symbols parsers run in lockstep: they
read and refuse the same tokens, shift at the same time and reduce by the same productions, in states that
are twins.
-/

namespace ParserGenerator

/-- The step with its states numbered anew. -/
def Step.renumber (φ : Nat → Nat) (s : Step) : Step := ⟨s.action.renumber φ, φ s.state.toNat⟩

def Run.renumber (φ : Nat → Nat) (r : Run) : Run := ⟨r.steps.map (Step.renumber φ), r.verdict⟩

namespace Parser

open Grammar

variable {p p' : Parser} {g h : Grammar} {start start' : Int} {states states' : Array State}
  {φ : Nat → Nat} {q : Nat} {x y : Int} {below α : List Int} {tokens : List Token} {look : Option Token}
  {t : Token}

/-- A stack with its states numbered anew. -/
def renumberStack (φ : Nat → Nat) (stack : List Int) : List Int := stack.map fun q => (φ q.toNat : Int)

/-- The names of the terminals that a state expects, in order. -/
theorem expected_eq (uses : p.Uses g states) (state : Int) : ∃ names : List String,
    p.expected state = .ok (sortBy (fun a b => a ≤ b) (OrderedSet.ofList names).toList) ∧
      ∀ name, name ∈ names ↔ ∃ x a, p.tables.action.get? (state, x) = some a ∧ a.kind ≠ .nonassoc ∧
        g.nameAt x = name := by
  have named : ∀ e ∈ p.tables.action.toList, p.symbols.nameOf e.1.2 = .ok (g.nameAt e.1.2) := by
    rintro ⟨k, a⟩ mem
    obtain ⟨q, -, input, -⟩ := uses.tables.permits (OrderedMap.mem_toList.1 mem)
    obtain ⟨s, at_s, -⟩ := isInput_iff.1 input
    rw [uses.symbols, nameAt_eq at_s, SymbolTable.nameOf, SymbolTable.symbol_eq_ok at_s]
    rfl
  refine ⟨_, Attempt.bind_eq_ok.2 ⟨((p.tables.action.toList.filter
    fun e => e.1.1 = state ∧ e.2.kind ≠ .nonassoc).map fun e => g.nameAt e.1.2), ?_, rfl⟩, fun name => ?_⟩
  · refine Attempt.mapM_eq_ok.2 (List.forall₂_map_right_iff.2 (List.forall₂_same.2 fun e mem => ?_))
    exact named e (List.mem_filter.1 mem).1
  · simp only [List.mem_map, List.mem_filter, Prod.exists, OrderedMap.mem_toList, decide_eq_true_eq]
    constructor
    · rintro ⟨i, x, a, ⟨cell, rfl, kind⟩, rfl⟩
      exact ⟨x, a, cell, kind, rfl⟩
    · rintro ⟨x, a, cell, kind, rfl⟩
      exact ⟨state, x, a, ⟨cell, rfl, kind⟩, rfl⟩

theorem exists_terminal (kin : g.Kindred h) (terminal : IsTerminal g t x) :
    ∃ y, g.Namesakes h x y ∧ IsTerminal h t y := by
  obtain ⟨s, at_s, named, input⟩ := terminal
  have plain : s.isAction = false := by
    rw [← isAction_eq at_s]
    exact isAction_of_isInput (isInput_iff.2 ⟨s, at_s, input⟩)
  obtain ⟨y, s', namesakes, at_y, name, kind, -⟩ := kin.exists_namesake at_s plain
  refine ⟨y, namesakes, s', at_y, name.trans named, ?_⟩
  rw [Symbol.isInput, kind]
  exact input

theorem inside_of_stacked (auto : g.Automaton states) (stacked : Stacked states q below α) :
    q < states.size := by
  cases stacked with
  | bottom => exact Holds.inside auto.holds_initial
  | push _ step => exact auto.inside step

/-- Parsers of one text with the tables of two grammars that are the same but for action symbols. -/
structure Abreast (p p' : Parser) (g h : Grammar) (start start' : Int) (states states' : Array State)
    (φ : Nat → Nat) : Prop where
  automata : g.Abreast h start start' states states'
  uses : p.Uses g states
  uses' : p'.Uses h states'
  text : p'.text = p.text
  renumbered : p.tables.Renumbered (g.Namesakes h) φ p'.tables
  count : p.tables.stateCount = states.size

namespace Abreast

variable (both : p.Abreast p' g h start start' states states' φ)
include both

theorem ending (look : Option Token) : p'.ending look = p.ending look := by
  unfold Parser.ending
  rw [both.text]

theorem unknownToken (t : Token) : p'.unknownToken t = p.unknownToken t := by
  rw [Parser.unknownToken, Parser.unknownToken, both.ending]

theorem inside (inside : q < states.size) : (q : Int) < p.tables.stateCount := by
  rw [both.count]
  exact Int.ofNat_lt.2 inside

/-- A lookahead is a terminal for both or for neither. -/
theorem terminalOf (look : Option Token) :
    (∃ x y, p.terminalOf look = .ok x ∧ p'.terminalOf look = .ok y ∧ g.Namesakes h x y) ∨
      ∃ e, p.terminalOf look = .error e ∧ p'.terminalOf look = .error e := by
  have kin := both.automata.kindred
  cases look with
  | none => exact .inl ⟨endMarkerId, endMarkerId, rfl, rfl, kin.endMarker⟩
  | some t =>
    by_cases terminal : ∃ x, IsTerminal g t x
    · obtain ⟨x, terminal⟩ := terminal
      obtain ⟨y, namesakes, terminal'⟩ := exists_terminal kin terminal
      exact .inl ⟨x, y, terminalOf_of_isTerminal kin.lawful.table both.uses terminal,
        terminalOf_of_isTerminal kin.lawful'.table both.uses' terminal', namesakes⟩
    · have none : ∀ x, ¬ IsTerminal g t x := not_exists.1 terminal
      have none' : ∀ y, ¬ IsTerminal h t y := by
        intro y terminal'
        obtain ⟨x, -, terminal⟩ := exists_terminal kin.symm terminal'
        exact none x terminal
      refine .inr ⟨p.unknownToken t, terminalOf_eq_error kin.lawful.table both.uses none, ?_⟩
      rw [terminalOf_eq_error kin.lawful'.table both.uses' none', both.unknownToken]

/-- Twins expect the same terminals. -/
theorem expected (inside : q < states.size) : p'.expected (φ q) = p.expected q := by
  obtain ⟨names, expects, mem⟩ := expected_eq both.uses q
  obtain ⟨names', expects', mem'⟩ := expected_eq both.uses' (φ q)
  have inside := both.inside inside
  rw [expects, expects']
  refine congrArg Except.ok ?_
  refine sortBy_eq_of_mem_iff (fun a b => by simpa using String.le_total a b)
    (fun h h' => by simpa using String.le_trans (by simpa using h) (by simpa using h'))
    (fun h h' => String.le_antisymm (by simpa using h) (by simpa using h')) (OrderedSet.nodup _)
    (OrderedSet.nodup _) fun name => ?_
  rw [← OrderedSet.mem_def, ← OrderedSet.mem_def, OrderedSet.mem_ofList, OrderedSet.mem_ofList, mem, mem']
  constructor
  · rintro ⟨y, a', cell', kind, rfl⟩
    obtain ⟨-, -, -, x, namesakes⟩ := both.renumbered.within'.action cell'
    rw [both.renumbered.action inside namesakes, Option.map_eq_some_iff] at cell'
    obtain ⟨a, cell, rfl⟩ := cell'
    rw [Action.kind_renumber] at kind
    exact ⟨x, a, cell, kind, (both.automata.kindred.nameAt namesakes).symm⟩
  · rintro ⟨x, a, cell, kind, rfl⟩
    obtain ⟨-, -, -, y, namesakes⟩ := both.renumbered.within.action cell
    refine ⟨y, a.renumber φ, ?_, ?_, both.automata.kindred.nameAt namesakes⟩
    · rw [both.renumbered.action inside namesakes, cell]
      rfl
    · rw [Action.kind_renumber]
      exact kind

/-- The cells for twins and one lookahead are the same. -/
theorem cell (stacked : Stacked states q below α) (tokens : List Token) :
    p'.cell (config (φ q) (renumberStack φ below) tokens) =
      (p.cell (config q below tokens)).map (Action.renumber φ) := by
  have inside := inside_of_stacked both.automata.auto stacked
  unfold Parser.cell config
  dsimp only
  rcases both.terminalOf tokens.head? with ⟨x, y, read, read', namesakes⟩ | ⟨e, refused, refused'⟩
  · have cells := both.renumbered.action (both.inside inside) namesakes
    simp only [read, read', bind, Except.bind, cells, both.expected inside]
    cases p.tables.action.get? ((q : Int), x) with
    | some a => rfl
    | none =>
      dsimp only [Option.map_none]
      cases p.expected q with
      | error e => rfl
      | ok names =>
        simp only [both.ending]
        cases tokens.head? <;> rfl
  · simp only [refused, refused', bind, Except.bind]
    rfl

/-- A chain of operators is refused with the same words. -/
theorem perform_nonassoc (c c' : Config (List Token)) (same : c'.lookahead = c.lookahead) (n : Int) :
    p'.perform TokenSource.list c' ⟨.nonassoc, n⟩ = p.perform TokenSource.list c ⟨.nonassoc, n⟩ := by
  have named : ∀ {p : Parser} {g : Grammar} {states : Array State}, g.Lawful → p.Uses g states →
      p.symbols.nameOf endMarkerId = .ok endMarkerName := by
    intro p g states sound uses
    obtain ⟨s, at_s, named⟩ := sound.table.endMarker
    rw [uses.symbols, SymbolTable.nameOf, SymbolTable.symbol_eq_ok at_s, ← named]
    rfl
  simp only [perform, same, named both.automata.kindred.lawful both.uses,
    named both.automata.kindred.lawful' both.uses', both.ending]

/-- Reductions by one production lead from twins to twins. -/
theorem perform_reduce (stacked : Stacked states q below α) {n : Int} {rule : Production}
    (hp : g.byNumber.get? n = some rule) (ne : n ≠ 0) (holds : Holds states q ⟨n, rule.right.length⟩) :
    ∃ (r : Nat) (below' α' : List Int), Stacked states r below' α' ∧
      (∀ tokens, p.perform TokenSource.list (config q below tokens) ⟨.reduce, n⟩ =
        .ok (some (config r below' tokens))) ∧
      ∀ tokens, p'.perform TokenSource.list (config (φ q) (renumberStack φ below) tokens) ⟨.reduce, n⟩ =
        .ok (some (config (φ r) (renumberStack φ below') tokens)) := by
  obtain ⟨_, settled⟩ := both.automata.settled
  obtain ⟨nonterminal, o, r, below', α', -, enough, dropped, step, stacked'⟩ :=
    stacked.unwind (both.automata.auto.rooted settled.toLawful) hp ne holds
  obtain ⟨rule', hp', left, rights, -⟩ := both.automata.kindred.rule hp
  have target := both.uses.tables.goto.2 ⟨isInput_of_isNonterminal nonterminal, r, step, rfl⟩
  obtain ⟨s, at_o, -⟩ := goto?_eq_some.1 step
  have target' : p'.tables.goto.get? ((φ o : Int), rule'.left) = some (φ r : Int) := by
    rw [both.renumbered.goto (both.inside (Array.getElem?_eq_some_iff.1 at_o).1) left, target]
    rfl
  have length' := both.uses'.tables.length hp'
  rw [← rights.length_eq] at length'
  have dropped' : ((φ q : Int) :: renumberStack φ below).drop (g.erased rule.right).length =
      (φ o : Int) :: renumberStack φ below' := by
    have := congrArg (renumberStack φ) dropped
    rwa [renumberStack, List.map_drop] at this
  refine ⟨r, o :: below', _, stacked', fun tokens => ?_, fun tokens => ?_⟩
  · exact perform_reduce_of (both.uses.tables.length hp) (both.uses.tables.left hp) enough dropped target
      tokens
  · refine perform_reduce_of length' (both.uses'.tables.left hp') ?_ dropped' target' tokens
    rw [renumberStack, List.length_map]
    exact enough

/-- Both parsers run alike. -/
theorem run (stacked : Stacked states q below α) (tokens : List Token) (limit : Nat) :
    p'.run TokenSource.list limit (config (φ q) (renumberStack φ below) tokens) =
      (p.run TokenSource.list limit (config q below tokens)).renumber φ := by
  induction limit generalizing q below α tokens with
  | zero =>
    have cells := both.cell stacked tokens
    cases found : p.cell (config q below tokens) with
    | error e =>
      rw [found] at cells
      rw [run_refused found, run_refused cells]
      rfl
    | ok a =>
      rw [found] at cells
      rw [run_zero found, run_zero cells]
      rfl
  | succ limit ih =>
    have cells := both.cell stacked tokens
    rcases cell_cases both.automata.kindred.lawful.table both.uses (config q below tokens) with
      ⟨e, refused⟩ | ⟨x, a, found, cell, -⟩
    · rw [refused] at cells
      rw [run_refused refused, run_refused cells]
      rfl
    · obtain ⟨q', same, -, permits⟩ := both.uses.tables.permits cell
      obtain rfl : q = q' := Int.ofNat.inj same
      rw [found] at cells
      cases permits with
      | @shift r step =>
        have cells : p'.cell (config (φ q) (renumberStack φ below) tokens) = .ok ⟨.shift, φ r⟩ := cells
        have rest : p'.run TokenSource.list limit
            (config (φ r) ((φ q : Int) :: renumberStack φ below) tokens.tail) =
            (p.run TokenSource.list limit (config r ((q : Int) :: below) tokens.tail)).renumber φ :=
          ih (stacked.push step) tokens.tail
        rw [run_step found perform_shift, run_step cells perform_shift, rest]
        rfl
      | reduce hp ne holds =>
        obtain ⟨r, below', α', stacked', performed, performed'⟩ := both.perform_reduce stacked hp ne holds
        rw [run_step found (performed tokens), run_step cells (performed' tokens), ih stacked']
        rfl
      | nonassoc hp ne holds =>
        obtain ⟨e, failed⟩ := Parser.perform_nonassoc both.automata.kindred.lawful.table both.uses
          (config q below tokens) _
        have failed' := (both.perform_nonassoc (config q below tokens)
          (config (φ q) (renumberStack φ below) tokens) rfl _).trans failed
        rw [run_failed found failed, run_failed cells failed']
        rfl
      | accept ended holds =>
        rw [run_accepted found rfl, run_accepted cells rfl]
        rfl

end Abreast

end Parser

namespace Grammar

variable {g h : Grammar}

/-- Grammars that are the same but for action symbols have the same tables by either method, up to the
numbers of the states and the identifiers of the symbols, and with them the same runs. In particular that
holds for a grammar from whose productions all action symbols are removed. -/
theorem Declared.tables_but_actions (declared : Declared g) (declared' : Declared h)
    (closed : g.closed = true) (closed' : h.closed = true) (same : g.SameButActions h) (m : Method) :
    ∃ t g₁ t' h₁ φ, buildTables m.name g = .ok t g₁ ∧ buildTables m.name h = .ok t' h₁ ∧
      t.Renumbered (g.Namesakes h) φ t' ∧
      ∀ (text : List Char) (tokens : List Token) (limit : Nat),
        Parser.parseTokens ⟨t', h₁.symbols, text⟩ tokens limit =
          (Parser.parseTokens ⟨t, g₁.symbols, text⟩ tokens limit).renumber φ := by
  obtain ⟨⟨marker, start, settled⟩, untouched⟩ := declared.complete closed
  obtain ⟨⟨marker', start', settled'⟩, untouched'⟩ := declared'.complete closed'
  obtain ⟨-, f, la, -, analysed, -, sets, contents⟩ := settled.exists_contents untouched
  obtain ⟨-, f', la', -, analysed', -, sets', contents'⟩ := settled'.exists_contents untouched'
  obtain ⟨t, built, contents⟩ := contents m
  obtain ⟨t', built', contents'⟩ := contents' m
  have before : g.Abreast h start start' g.explore h.explore :=
    ⟨⟨marker, settled⟩, ⟨marker', settled'⟩, settled.automaton, settled'.automaton, same⟩
  have pair : (g.having f).Abreast (h.having f') start start' g.explore h.explore :=
    ⟨⟨marker, settled.having f⟩, ⟨marker', settled'.having f'⟩, (settled.having f).automaton,
      (settled'.having f').automaton, same.symbols, same.rules, same.labels⟩
  have follows : (g.having f).FollowsAgree (h.having f') := before.followsAgree analysed analysed'
  obtain ⟨-, φ, bijective, first, numbered⟩ := pair.exists_numbering
  have renumbered := pair.renumbered contents contents' (before.looksAgree follows sets sets' m) follows
    bijective first numbered
  refine ⟨t, _, t', _, φ, built, built', renumbered, fun text tokens limit => ?_⟩
  have uses : (⟨t, (g.having f).symbols, text⟩ : Parser).Uses (g.having f) g.explore :=
    ⟨contents.toTabled, rfl⟩
  have uses' : (⟨t', (h.having f').symbols, text⟩ : Parser).Uses (h.having f') h.explore :=
    ⟨contents'.toTabled, rfl⟩
  have abreast : Parser.Abreast ⟨t, (g.having f).symbols, text⟩ ⟨t', (h.having f').symbols, text⟩
      (g.having f) (h.having f') start start' g.explore h.explore φ :=
    ⟨pair, uses, uses', rfl, renumbered, contents.count⟩
  rw [Parser.parseTokens_eq uses, Parser.parseTokens_eq uses']
  have run := abreast.run .bottom tokens limit
  rwa [first] at run

/-- Assignments between places that pointers lead to, without actions. -/
def plainPointerCalls : List Call :=
  [.declareTerminal "*", .declareTerminal "=", .declareTerminal "id",
    .addProduction "S" [.name "L", .name "=", .name "R"] none none,
    .addProduction "S" [.name "R"] none none,
    .addProduction "L" [.name "*", .name "R"] none none,
    .addProduction "L" [.name "id"] none none,
    .addProduction "R" [.name "L"] none none,
    .close none]

def plainPointers : Grammar := plainPointerCalls.foldl Call.after .fresh

/-- Assignments are parsed alike with an action inside and one at the end, and without them. -/
theorem tables_but_actions_pointers :
    (∃ p ∈ pointers.byNumber.values, pointers.erased p.right ≠ p.right) ∧
      (∀ p ∈ plainPointers.byNumber.values, plainPointers.erased p.right = p.right) ∧
      ∃ t g₁ t' h₁ φ, buildTables Method.lalr.name pointers = .ok t g₁ ∧
        buildTables Method.lalr.name plainPointers = .ok t' h₁ ∧
        t.Renumbered (pointers.Namesakes plainPointers) φ t' ∧
        (Parser.parseTokens ⟨t, g₁.symbols, []⟩ assignment 8).reductions = [4, 4, 5, 1] ∧
        Parser.parseTokens ⟨t', h₁.symbols, []⟩ assignment 8 =
          (Parser.parseTokens ⟨t, g₁.symbols, []⟩ assignment 8).renumber φ := by
  have declared : Declared plainPointers :=
    Declared.fresh.calls (by simp [plainPointerCalls, Call.Fits, RightSymbol.Fits, startMarkerName])
  obtain ⟨t, g₁, t', h₁, φ, built, built', renumbered, runs⟩ :=
    declared_pointers.tables_but_actions declared closed_pointers (by decide +kernel) (by decide +kernel)
      .lalr
  have tried : pointers.trial .lalr assignment 8 = some (0, .accepted, [4, 4, 5, 1]) := by decide +kernel
  simp only [trial_eq built, Option.some.injEq, Prod.mk.injEq] at tried
  exact ⟨by decide +kernel, by decide +kernel, t, g₁, t', h₁, φ, built, built', renumbered, tried.2.2,
    runs [] assignment 8⟩

end Grammar

end ParserGenerator
