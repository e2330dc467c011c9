import ParserGenerator.Grammar.Basic
import ParserGenerator.LR.Tables
import ParserGenerator.Lexer.Basic

/-!
# Parsing with tables

A parser holds a stack of states, one token of lookahead and the tokens to come. In each step the cell
for the top state and the lookahead tells what to do. An input is accepted, or refused at the first
token for which there is no cell. Tables that do not fit together are found out in the step that needs
what they lack.
-/

namespace ParserGenerator

/-- One step as it is traced: the cell that was used, and the state it was used in. -/
structure Step where
  action : Action
  state : Int
  deriving DecidableEq

/-- How a run ends. -/
inductive Verdict where
  | accepted
  | failed (e : Error)
  | outOfSteps
  deriving DecidableEq

structure Run where
  steps : List Step
  verdict : Verdict

/-- Where tokens come from: the next one and the source behind it, none at the end. -/
abbrev TokenSource (σ : Type) := σ → Except Error (Option (Token × σ))

/-- The tokens of a list. -/
def TokenSource.list : TokenSource (List Token)
  | [] => .ok none
  | t :: ts => .ok (some (t, ts))

/-- The tokens that a lexer finds. -/
def TokenSource.lexer : TokenSource Lexer := fun l =>
  match Lexer.next l with
  | .ok (some t) l => .ok (some (t, l))
  | .ok none _ => .ok none
  | .error e _ => .error e

/-- The top of the stack comes first. -/
structure Config (σ : Type) where
  top : Int
  below : List Int
  lookahead : Option Token
  source : σ

/-- The tables in use, the names of their symbols, and the text of the input as far as it is known. -/
structure Parser where
  tables : Tables
  symbols : SymbolTable
  text : List Char

namespace Parser

variable {σ : Type}

/-- The line of the text on which a token begins, with a caret; nothing without a text. -/
def ending (p : Parser) (look : Option Token) : String :=
  if p.text.isEmpty then ""
  else
    let offset := match look with
      | some t => t.offset
      | none => p.text.length
    "\n" ++ Caret.snippet p.text offset

/-- The refusal of a token whose kind is no terminal. -/
def unknownToken (p : Parser) (t : Token) : Error :=
  .source (.unknownToken t.kind t.line t.column (p.ending (some t)))

/-- The terminal that a lookahead is. -/
def terminalOf (p : Parser) : Option Token → Except Error Int
  | none => .ok endMarkerId
  | some t => do
    match p.symbols.get? t.kind with
    | none => throw (p.unknownToken t)
    | some s => if (← p.symbols.symbol s.id).isInput then return s.id else throw (p.unknownToken t)

/-- The names of the terminals for which a state has a cell that does not refuse them. -/
def expected (p : Parser) (state : Int) : Except Error (List String) := do
  let cells := p.tables.action.toList.filter fun (k, a) => k.1 = state ∧ a.kind ≠ .nonassoc
  let names ← cells.mapM fun (k, _) => p.symbols.nameOf k.2
  return sortBy (fun a b => a ≤ b) (OrderedSet.ofList names).toList

/-- The cell for the top state and the lookahead. -/
def cell (p : Parser) (c : Config σ) : Except Error Action := do
  let terminal ← p.terminalOf c.lookahead
  match p.tables.action.get? (c.top, terminal) with
  | some a => return a
  | none =>
    let names ← p.expected c.top
    match c.lookahead with
    | none => throw (.source (.refusedAtEnd names (p.ending none)))
    | some t => throw (.source (.refused t.kind t.line t.column names (p.ending (some t))))

/-- An entry of a list by production number; a negative number counts from the end. -/
def entry (xs : List Int) (number : Int) : Except Error Int :=
  let i := if number < 0 then number + xs.length else number
  match if i < 0 then none else xs[i.toNat]? with
  | some x => .ok x
  | none => .error .outOfRange

/-- The stack without its topmost `n` states; of a negative number as many states stay. -/
def popped (n : Int) (stack : List Int) : List Int :=
  if 0 ≤ n then stack.drop n.toNat else stack.drop (stack.length - n.natAbs)

/-- Reads the next token into the lookahead. -/
def advance (next : TokenSource σ) (c : Config σ) (state : Int) : Except Error (Config σ) := do
  match ← next c.source with
  | some (t, source) => return ⟨state, c.top :: c.below, some t, source⟩
  | none => return ⟨state, c.top :: c.below, none, c.source⟩

/-- Replaces the states of a right-hand side by the state behind the left-hand side. -/
def reduce (p : Parser) (c : Config σ) (number : Int) : Except Error (Config σ) := do
  let length ← entry p.tables.rightLengths number
  let left ← entry p.tables.leftIds number
  let underflow : Error := .table (.stackUnderflow number c.top)
  if (c.below.length : Int) + 1 ≤ length then throw underflow
  match popped length (c.top :: c.below) with
  | [] => throw underflow
  | state :: below =>
    match p.tables.goto.get? (state, left) with
    | some target => return ⟨target, state :: below, c.lookahead, c.source⟩
    | none => throw (.table (.noGoto state (← p.symbols.nameOf left)))

/-- Does what a cell says; nothing is left to do when the input is accepted. -/
def perform (p : Parser) (next : TokenSource σ) (c : Config σ) (a : Action) :
    Except Error (Option (Config σ)) :=
  match a.kind with
  | .shift => some <$> advance next c a.argument
  | .reduce => some <$> p.reduce c a.argument
  | .accept => .ok none
  | .nonassoc => do
    let name ← match c.lookahead with
      | some t => pure t.kind
      | none => p.symbols.nameOf endMarkerId
    throw (.source (.chained name (c.lookahead.map fun t => (t.line, t.column)) (p.ending c.lookahead)))
  | .other kind => .error (.table (.unknownAction kind))

/-- Runs on from a configuration for at most `limit` steps. -/
def run (p : Parser) (next : TokenSource σ) : Nat → Config σ → Run
  | limit, c =>
    match p.cell c with
    | .error e => ⟨[], .failed e⟩
    | .ok a =>
      match limit with
      | 0 => ⟨[], .outOfSteps⟩
      | limit + 1 =>
        match p.perform next c a with
        | .error e => ⟨[⟨a, c.top⟩], .failed e⟩
        | .ok none => ⟨[⟨a, c.top⟩], .accepted⟩
        | .ok (some after) =>
          let rest := run p next limit after
          ⟨⟨a, c.top⟩ :: rest.steps, rest.verdict⟩

/-- The configuration before the first step. -/
def initial (p : Parser) (next : TokenSource σ) (source : σ) : Except Error (Config σ) := do
  match ← next source with
  | some (t, source) => return ⟨p.tables.startState, [], some t, source⟩
  | none => return ⟨p.tables.startState, [], none, source⟩

/-- Parses the tokens of a source. -/
def parse (p : Parser) (next : TokenSource σ) (source : σ) (limit : Nat) : Run :=
  match p.initial next source with
  | .error e => ⟨[], .failed e⟩
  | .ok c => p.run next limit c

/-- Parses the tokens of a list. -/
def parseTokens (p : Parser) (tokens : List Token) (limit : Nat) : Run :=
  p.parse TokenSource.list tokens limit

/-- Parses the text of the parser, cut into tokens as they are needed. -/
def parseText (p : Parser) (lexer : Lexer) (limit : Nat) : Run :=
  p.parse TokenSource.lexer (lexer.reset p.text) limit

end Parser

end ParserGenerator
