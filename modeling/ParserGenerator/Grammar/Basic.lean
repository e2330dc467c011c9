import ParserGenerator.Collection.IdMap
import ParserGenerator.Collection.OrderedMap
import ParserGenerator.Collection.OrderedSet
import ParserGenerator.Collection.Sorted
import ParserGenerator.Symbol.Table

/-!
# Grammars

A grammar owns its symbols, its numbered productions and its precedence declarations. It is open while
productions are added; closing it settles the start symbol, adds production 0 from the start marker
and fixes the list of productions. What analysis finds out about the symbols is kept beside them.
-/

namespace ParserGenerator

/-- A production. The end of its right-hand side may be the symbol of its action. -/
structure Production where
  number : Int
  left : Int
  right : List Int
  action : Option String := none
  /-- The label whose precedence the production takes, if it names one. -/
  label : Option String := none
  deriving DecidableEq

abbrev TerminalSet := OrderedSet Int

/-- What is known of the symbols, by identifier: whether they derive the empty string, where that was
settled, and the terminals that can begin or follow them. -/
structure Facts where
  nullable : IdMap Bool := ∅
  first : IdMap TerminalSet := ∅
  follow : IdMap TerminalSet := ∅

namespace Facts

def firstOf (f : Facts) (id : Int) : TerminalSet := f.first.getD id ∅
def followOf (f : Facts) (id : Int) : TerminalSet := f.follow.getD id ∅
def isNullable (f : Facts) (id : Int) : Bool := f.nullable.getD id false
def isSettled (f : Facts) (id : Int) : Bool := f.nullable.contains id

def settle (f : Facts) (id : Int) (b : Bool) : Facts :=
  { f with nullable := f.nullable.insert id b }

def addFirst (f : Facts) (id : Int) (s : TerminalSet) : Facts :=
  { f with first := f.first.insert id ((f.firstOf id).union s) }

def addFollow (f : Facts) (id : Int) (s : TerminalSet) : Facts :=
  { f with follow := f.follow.insert id ((f.followOf id).union s) }

end Facts

structure Grammar where
  symbols : SymbolTable := .fresh
  start : Option String := none
  labels : OrderedMap String Precedence := ∅
  byNumber : OrderedMap Int Production := ∅
  /-- The productions by number, once the grammar is closed. -/
  productions : Array Production := #[]
  nextNumber : Int := 1
  level : Int := 0
  actionCount : Nat := 0
  closed : Bool := false
  facts : Facts := {}

/-- An operation on a grammar. One that fails leaves what it had already done. -/
abbrev Build := EStateM Error Grammar

namespace Grammar

/-- The name of the nonterminal that production 0 rewrites to the start symbol. -/
def startMarkerName : String := "$start"

def fresh : Grammar := {}

def onSymbols {α : Type} (f : SymbolTable → Except Error (α × SymbolTable)) : Build α := fun g =>
  match f g.symbols with
  | .ok (a, t) => .ok a { g with symbols := t }
  | .error e => .error e g

def updateSymbol (s : Symbol) : Build Unit :=
  modify fun g => { g with symbols := g.symbols.update s }

/-- Runs a query that changes nothing. -/
def query {α : Type} (f : Grammar → Except Error α) : Build α := fun g =>
  match f g with
  | .ok a => .ok a g
  | .error e => .error e g

def resolve (name : String) (kind : SymbolKind) : Build Symbol := onSymbols (·.resolve name kind)

def productionCount (g : Grammar) : Nat := g.byNumber.size

/-- The production of a number. -/
def production (g : Grammar) (number : Int) : Except Error Production :=
  match g.byNumber.get? number with
  | some p => .ok p
  | none => .error (.missing (.id number))

/-- All productions in the order of their numbers. -/
def sortedProductions (g : Grammar) : List Production :=
  sortBy (fun p q => p.number ≤ q.number) g.byNumber.values

def idOfStart (g : Grammar) : Except Error Int :=
  match g.start with
  | some name => g.symbols.idOf name
  | none => .error (.missing (.name "None"))

def idOfStartMarker (g : Grammar) : Except Error Int := g.symbols.idOf startMarkerName

/-- Puts an item before the given place; a negative place counts from the end. -/
def insertAt {α : Type} (xs : List α) (place : Int) (x : α) : List α :=
  let n := if place < 0 then (place + xs.length).toNat else place.toNat
  xs.take n ++ x :: xs.drop n

/-- The production as a text, with a dot at the given place if one is asked for. -/
def format (g : Grammar) (p : Production) (dot : Option Int) : Except Error String := do
  let names ← p.right.mapM g.symbols.nameOf
  let shown := match dot with
    | some place => insertAt names place "·"
    | none => names
  let left ← g.symbols.nameOf p.left
  let right := if shown.isEmpty then "ε" else " ".intercalate shown
  return s!"{left} -> {right}"

/-- The precedence of a production: that of its label, else that of its last terminal. -/
def precedenceOf (g : Grammar) (p : Production) : Except Error (Option Precedence) :=
  match p.label with
  | some label => .ok (g.labels.get? label)
  | none => lastTerminal p.right.reverse
where
  lastTerminal : List Int → Except Error (Option Precedence)
    | [] => .ok none
    | id :: ids => do
      let s ← g.symbols.symbol id
      if s.kind = .terminal then .ok s.precedence else lastTerminal ids

/-- The level of a production, zero where it has no precedence. -/
def levelOf (g : Grammar) (p : Production) : Except Error Int := do
  return ((← g.precedenceOf p).map Precedence.level).getD 0

/-- The number of symbols that a reduction by the production takes from the stack. -/
def reduceLength (g : Grammar) (p : Production) : Except Error Nat := do
  let symbols ← p.right.mapM g.symbols.symbol
  return (symbols.filter fun s => !s.isAction).length

/-- The grammar as a debugging text. -/
def describe (g : Grammar) : String :=
  let start := match g.start with
    | some name => quoted name
    | none => "None"
  s!"BNF(start={start}, prods={g.productionCount}, symbols={g.symbols.size})"

end Grammar

end ParserGenerator
