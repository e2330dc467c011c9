import ParserGenerator.Proofs.LR.Stack
import ParserGenerator.Proofs.LR.Tables

/-!
# Steps of a parser

On a stack made by transitions a step of a parser with the tables of a grammar shifts a terminal, replaces
a right-hand side by its left-hand side, accepts, or refuses the input.
-/

namespace ParserGenerator.Parser

open Grammar

variable {p : Parser} {g : Grammar} {marker start : Int} {states : Array State} {q r : Nat} {x n : Int}
  {a : Action} {below α : List Int} {tokens : List Token} {rule : Production}

/-- A configuration in which the given tokens are still to be read. -/
def config (top : Int) (below : List Int) (tokens : List Token) : Config (List Token) :=
  ⟨top, below, tokens.head?, tokens.tail⟩

/-- The parser uses tables and symbols of a grammar. -/
structure Uses (p : Parser) (g : Grammar) (states : Array State) : Prop where
  tables : g.Tabled states p.tables
  symbols : p.symbols = g.symbols

/-- The terminal with the kind of a token for its name. -/
def IsTerminal (g : Grammar) (t : Token) (x : Int) : Prop :=
  ∃ s, g.symbols.at? x = some s ∧ s.name = t.kind ∧ s.isInput = true

instance (g : Grammar) (t : Token) (x : Int) : Decidable (IsTerminal g t x) :=
  decidable_of_iff ((g.symbols.at? x).any fun s => s.name = t.kind ∧ s.isInput = true) (by
    rw [Option.any_eq_true]
    simp only [decide_eq_true_eq]
    rfl)

theorem isTerminal_iff {s : Symbol} {t : Token} (at_s : g.symbols.at? x = some s)
    (input : s.isInput = true) : IsTerminal g t x ↔ t.kind = s.name := by
  constructor
  · rintro ⟨s', at_s', named, -⟩
    cases at_s.symm.trans at_s'
    exact named.symm
  · exact fun named => ⟨s, at_s, named.symm, input⟩

theorem initial_eq (uses : p.Uses g states) (tokens : List Token) :
    p.initial TokenSource.list tokens = .ok (config 0 [] tokens) := by
  cases tokens <;> exact congrArg (fun top => Except.ok (⟨top, [], _, _⟩ : Config _)) uses.tables.start

section Look

variable (table : g.symbols.Lawful) (uses : p.Uses g states)
include table uses

theorem terminalOf_eq {t : Token} {s : Symbol} (found : g.symbols.get? t.kind = some s) :
    p.terminalOf (some t) = if s.isInput then .ok s.id else .error (p.unknownToken t) := by
  have at_s := (table.get?_eq_some.1 found).1
  have known : g.symbols.symbol s.id = .ok s := SymbolTable.symbol_eq_ok at_s
  simp only [terminalOf, uses.symbols, found, known, bind, Except.bind]
  rfl

theorem terminalOf_of_isTerminal {t : Token} (terminal : IsTerminal g t x) :
    p.terminalOf (some t) = .ok x := by
  obtain ⟨s, at_s, named, input⟩ := terminal
  obtain rfl := table.id_eq at_s
  rw [terminalOf_eq table uses (table.get?_eq_some.2 ⟨at_s, named⟩), if_pos input]

theorem terminalOf_eq_error {t : Token} (none : ∀ x, ¬ IsTerminal g t x) :
    p.terminalOf (some t) = .error (p.unknownToken t) := by
  cases found : g.symbols.get? t.kind with
  | none =>
    simp only [terminalOf, uses.symbols, found]
    rfl
  | some s =>
    obtain ⟨at_s, named⟩ := table.get?_eq_some.1 found
    rw [terminalOf_eq table uses found, if_neg]
    exact fun input => none s.id ⟨s, at_s, named, input⟩

theorem terminalOf_cases (look : Option Token) :
    (∃ e, p.terminalOf look = .error (.source e)) ∨ ∃ x, p.terminalOf look = .ok x ∧
      (look = none ∧ x = endMarkerId ∨ ∃ t, look = some t ∧ IsTerminal g t x) := by
  cases look with
  | none => exact .inr ⟨endMarkerId, rfl, .inl ⟨rfl, rfl⟩⟩
  | some t =>
    cases found : g.symbols.get? t.kind with
    | none =>
      refine .inl ⟨.unknownToken t.kind t.line t.column (p.ending (some t)), ?_⟩
      simp only [terminalOf, uses.symbols, found]
      rfl
    | some s =>
      obtain ⟨at_s, named⟩ := table.get?_eq_some.1 found
      rw [terminalOf_eq table uses found]
      by_cases input : s.isInput = true
      · rw [if_pos input]
        exact .inr ⟨s.id, rfl, .inr ⟨t, rfl, s, at_s, named, input⟩⟩
      · rw [if_neg input]
        exact .inl ⟨_, rfl⟩

omit table in
theorem exists_expected (state : Int) : ∃ names, p.expected state = .ok names := by
  have each : ∀ e ∈ p.tables.action.toList.filter
      fun e => e.1.1 = state ∧ e.2.kind ≠ .nonassoc,
      ∃ name, (fun e : (Int × Int) × Action => p.symbols.nameOf e.1.2) e = .ok name := by
    rintro ⟨k, a⟩ mem
    obtain ⟨q, -, input, -⟩ := uses.tables.permits (OrderedMap.mem_toList.1 (List.mem_filter.1 mem).1)
    rw [uses.symbols]
    exact nameOf_of_isInput input
  obtain ⟨names, found⟩ := Attempt.exists_mapM each
  exact ⟨_, Attempt.bind_eq_ok.2 ⟨names, found, rfl⟩⟩

/-- Either the input is refused, or there is a cell for the terminal that is looked at. -/
theorem cell_cases {σ : Type} (c : Config σ) :
    (∃ e, p.cell c = .error (.source e)) ∨ ∃ x a, p.cell c = .ok a ∧
      p.tables.action.get? (c.top, x) = some a ∧
      (c.lookahead = none ∧ x = endMarkerId ∨ ∃ t, c.lookahead = some t ∧ IsTerminal g t x) := by
  rcases terminalOf_cases table uses c.lookahead with ⟨e, refused⟩ | ⟨x, read, kind⟩
  · refine .inl ⟨e, ?_⟩
    simp only [cell, refused, bind, Except.bind]
  · cases found : p.tables.action.get? (c.top, x) with
    | some a =>
      refine .inr ⟨x, a, ?_, found, kind⟩
      simp only [cell, read, found, bind, Except.bind]
      rfl
    | none =>
      obtain ⟨names, expects⟩ := exists_expected uses c.top
      simp only [cell, read, found, expects, bind, Except.bind]
      cases c.lookahead with
      | none => exact .inl ⟨_, rfl⟩
      | some t => exact .inl ⟨_, rfl⟩

end Look

/-! ## What a cell makes of a stack -/

theorem perform_shift : p.perform TokenSource.list (config q below tokens) ⟨.shift, r⟩ =
    .ok (some (config r ((q : Int) :: below) tokens.tail)) := by
  cases tokens with
  | nil => rfl
  | cons t ts => cases ts <;> rfl

/-- The cell is found by the state on top and the lookahead. -/
theorem cell_congr {tokens' : List Token} (same : tokens.head? = tokens'.head?) :
    p.cell (config q below tokens) = p.cell (config q below tokens') := by
  simp only [cell, config, same]

theorem nameOf_endMarker (table : g.symbols.Lawful) (uses : p.Uses g states) :
    ∃ name, p.symbols.nameOf endMarkerId = .ok name := by
  obtain ⟨s, at_s, -⟩ := table.endMarker
  exact ⟨s.name, by rw [uses.symbols, SymbolTable.nameOf, SymbolTable.symbol_eq_ok at_s]; rfl⟩

theorem perform_nonassoc {σ : Type} {next : TokenSource σ} (table : g.symbols.Lawful)
    (uses : p.Uses g states) (c : Config σ) (k : Int) :
    ∃ e, p.perform next c ⟨.nonassoc, k⟩ = .error (.source e) := by
  obtain ⟨name, named⟩ := nameOf_endMarker table uses
  simp only [perform]
  cases c.lookahead with
  | none =>
    simp only [named, bind, Except.bind]
    exact ⟨_, rfl⟩
  | some t => exact ⟨_, rfl⟩

/-- A reduction by the length and the left-hand side of a production. -/
theorem reduce_of {σ : Type} {c : Config σ} {o l target : Int} {k : Nat} {below' : List Int}
    (length : entry p.tables.rightLengths n = .ok (k : Int)) (left : entry p.tables.leftIds n = .ok l)
    (enough : k ≤ c.below.length) (dropped : (c.top :: c.below).drop k = o :: below')
    (found : p.tables.goto.get? (o, l) = some target) :
    p.reduce c n = .ok { c with top := target, below := o :: below' } := by
  have popped_eq : popped (k : Int) (c.top :: c.below) = o :: below' := by
    rw [popped, if_pos (Int.natCast_nonneg _), Int.toNat_natCast, dropped]
  have deep : ¬ ((c.below.length : Int) + 1 ≤ k) := by omega
  simp only [reduce, length, left, popped_eq, found, if_neg deep, bind, Except.bind]
  rfl

theorem perform_reduce_of {top o l target : Int} {k : Nat} {below' : List Int}
    (length : entry p.tables.rightLengths n = .ok (k : Int)) (left : entry p.tables.leftIds n = .ok l)
    (enough : k ≤ below.length) (dropped : (top :: below).drop k = o :: below')
    (found : p.tables.goto.get? (o, l) = some target) (tokens : List Token) :
    p.perform TokenSource.list (config top below tokens) ⟨.reduce, n⟩ =
      .ok (some (config target (o :: below') tokens)) := by
  have reduced := reduce_of (c := config top below tokens) length left enough dropped found
  simp only [perform, reduced]
  rfl

/-- A production that is completed on top of a stack is reduced there, whatever comes next. -/
theorem exists_reduce (rooted : g.Rooted states) (uses : p.Uses g states)
    (stacked : Stacked states q below α) (hp : g.byNumber.get? n = some rule) (ne : n ≠ 0)
    (holds : Holds states q ⟨n, rule.right.length⟩) :
    ∃ (r : Nat) (below' α' : List Int), α = α' ++ g.erased rule.right ∧
      Stacked states r below' (α' ++ [rule.left]) ∧
      ∀ {σ : Type} (look : Option Token) (source : σ),
        p.reduce ⟨q, below, look, source⟩ n = .ok ⟨r, below', look, source⟩ := by
  obtain ⟨nonterminal, o, r, below', α', eq, enough, dropped, step, stacked'⟩ :=
    stacked.unwind rooted hp ne holds
  have target := uses.tables.goto.2 ⟨isInput_of_isNonterminal nonterminal, r, step, rfl⟩
  exact ⟨r, o :: below', α', eq, stacked', fun _ _ =>
    reduce_of (uses.tables.length hp) (uses.tables.left hp) enough dropped target⟩

theorem perform_reduce (rooted : g.Rooted states) (uses : p.Uses g states)
    (stacked : Stacked states q below α) (hp : g.byNumber.get? n = some rule) (ne : n ≠ 0)
    (holds : Holds states q ⟨n, rule.right.length⟩) :
    ∃ (r : Nat) (below' α' : List Int), α = α' ++ g.erased rule.right ∧
      Stacked states r below' (α' ++ [rule.left]) ∧
      ∀ tokens, p.perform TokenSource.list (config q below tokens) ⟨.reduce, n⟩ =
        .ok (some (config r below' tokens)) := by
  obtain ⟨r, below', α', eq, stacked', reduced⟩ := exists_reduce rooted uses stacked hp ne holds
  refine ⟨r, below', α', eq, stacked', fun tokens => ?_⟩
  have reduced : p.reduce (config q below tokens) n = .ok (config r below' tokens) := reduced _ _
  simp only [perform, reduced]
  rfl

/-- All that a step can do from a stack. -/
inductive StepFrom (p : Parser) (g : Grammar) (states : Array State) (start : Int) (q : Nat)
    (below α : List Int) (tokens : List Token) : Prop
  | refused {e : SourceError} : p.cell (config q below tokens) = .error (.source e) →
      StepFrom p g states start q below α tokens
  | chained {n : Int} {e : SourceError} : p.cell (config q below tokens) = .ok ⟨.nonassoc, n⟩ →
      p.perform TokenSource.list (config q below tokens) ⟨.nonassoc, n⟩ = .error (.source e) →
      StepFrom p g states start q below α tokens
  | shift {t : Token} {ts : List Token} {x : Int} {r : Nat} : tokens = t :: ts → IsTerminal g t x →
      x ≠ endMarkerId → p.cell (config q below tokens) = .ok ⟨.shift, r⟩ →
      p.perform TokenSource.list (config q below tokens) ⟨.shift, r⟩ =
        .ok (some (config r ((q : Int) :: below) ts)) →
      Stacked states r ((q : Int) :: below) (α ++ [x]) → StepFrom p g states start q below α tokens
  | reduce {n : Int} {rule : Production} {r : Nat} {below' α' : List Int} :
      g.byNumber.get? n = some rule → α = α' ++ g.erased rule.right →
      p.cell (config q below tokens) = .ok ⟨.reduce, n⟩ →
      (∀ ts, p.perform TokenSource.list (config q below ts) ⟨.reduce, n⟩ =
        .ok (some (config r below' ts))) →
      Stacked states r below' (α' ++ [rule.left]) → StepFrom p g states start q below α tokens
  | accept : p.cell (config q below tokens) = .ok ⟨.accept, 0⟩ → α = [start] →
      (∀ t ts, tokens = t :: ts → IsTerminal g t endMarkerId) → StepFrom p g states start q below α tokens

theorem stepFrom (settled : g.Settled marker start) (auto : g.Automaton states)
    (uses : p.Uses g states) (stacked : Stacked states q below α) (tokens : List Token) :
    StepFrom p g states start q below α tokens := by
  rcases cell_cases settled.table uses (config q below tokens) with ⟨e, refused⟩ | ⟨x, a, found, cell, read⟩
  · exact .refused refused
  · obtain ⟨q', same, input, permits⟩ := uses.tables.permits cell
    obtain rfl : q = q' := Int.ofNat.inj same
    cases permits with
    | shift step =>
      rename_i r
      have ne : x ≠ endMarkerId := by
        rintro rfl
        exact auto.no_goto_endMarker settled step
      cases tokens with
      | nil =>
        rcases read with ⟨-, ended⟩ | ⟨t, look, -⟩
        · exact absurd ended ne
        · cases look
      | cons t ts =>
        rcases read with ⟨look, -⟩ | ⟨t', look, terminal⟩
        · cases look
        · cases look
          exact .shift rfl terminal ne found perform_shift (stacked.push step)
    | reduce hp ne holds =>
      obtain ⟨r, below', α', eq, stacked', performed⟩ :=
        perform_reduce (auto.rooted settled.toLawful) uses stacked hp ne holds
      exact .reduce hp eq found performed stacked'
    | nonassoc hp ne holds =>
      obtain ⟨e, refused⟩ := perform_nonassoc settled.table uses (config q below tokens) _
      exact .chained found refused
    | accept ended holds =>
      refine .accept found (stacked.accepting settled auto holds) ?_
      rintro t ts rfl
      rcases read with ⟨look, -⟩ | ⟨t', look, terminal⟩
      · cases look
      · cases look
        exact ended ▸ terminal

end ParserGenerator.Parser
