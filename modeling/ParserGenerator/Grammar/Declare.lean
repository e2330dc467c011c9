import ParserGenerator.Grammar.Basic

/-!
# Building a grammar

Symbols and precedence lines are declared, productions are added and numbered from 1 on, and the
grammar is closed. Each operation names the first thing that is wrong with its arguments.
-/

namespace ParserGenerator.Grammar

def declareTerminal (name : String) : Build Symbol := do
  let s ← resolve name .terminal
  if s.kind ≠ .terminal then throw (.definition (.kindClash name .terminal s.kind))
  return s

def declareNonterminal (name : String) (initialiser : String) : Build Symbol := do
  let s ← resolve name .nonterminal
  if s.kind ≠ .nonterminal then throw (.definition (.kindClash name .nonterminal s.kind))
  if initialiser.isEmpty then return s
  let s := { s with initialiser := initialiser }
  updateSymbol s
  return s

def declareLabel (p : Precedence) (label : String) : Build Unit := do
  if (← get).labels.contains label then throw (.definition (.labelTwice label))
  modify fun g => { g with labels := g.labels.insert label p }

/-- Declares one line of operators. Every line, also a faulty one, takes up a level. -/
def declarePrecedence (associativity : String) (labels : List String) : Build Precedence := do
  modify fun g => { g with level := g.level + 1 }
  match Associativity.ofName? associativity with
  | none => throw (.value (.associativity associativity))
  | some a =>
    let p : Precedence := ⟨a, (← get).level⟩
    labels.forM (declareLabel p)
    return p

def actionName (n : Nat) : String := s!"%action{n}"

/-- Registers a block of action code as a symbol of its own. -/
def newAction (text : String) (trailing : Bool) : Build Symbol := do
  modify fun g => { g with actionCount := g.actionCount + 1 }
  let s ← resolve (actionName (← get).actionCount) (if trailing then .trailingAction else .innerAction)
  let s := { s with actionText := some text }
  updateSymbol s
  return s

/-- What stands in a right-hand side: a name, a symbol of the grammar, or a symbol of no grammar. -/
inductive RightSymbol where
  | name (name : String)
  | interned (s : Symbol)
  | foreign (name : String)
  deriving DecidableEq

def rightSymbol (left : String) : RightSymbol → Build Symbol
  | .name name => do
    if name.isEmpty then throw (.definition (.namelessSymbol left))
    resolve name .unknown
  | .interned s => do
    if ((← get).symbols.get? s.name).map Symbol.name ≠ some s.name then
      throw (.definition (.foreignSymbol left s.name))
    return s
  | .foreign name => throw (.definition (.foreignSymbol left name))

def rightId (left : String) (item : RightSymbol) : Build Int := do
  let s ← rightSymbol left item
  if s.kind = .endMarker then throw (.definition (.endMarkerInside left))
  return s.id

/-- Files a production under its number and with its left-hand side. -/
def register (p : Production) : Build Unit := do
  let g ← get
  if let some other := g.byNumber.get? p.number then
    let first ← query (·.format other none)
    let second ← query (·.format p none)
    throw (.definition (.numberTwice p.number first second))
  modify fun g => { g with byNumber := g.byNumber.insert p.number p }
  let s ← query (·.symbols.symbol p.left)
  updateSymbol { s with productions := s.productions ++ [p.number] }

/-- Adds a production; its action, if it has one, becomes the last symbol of the right-hand side. The
left-hand side of the first production is the start symbol until another is chosen. -/
def addProduction (left : String) (items : List RightSymbol) (action label : Option String) :
    Build Production := do
  if (← get).closed then throw (.definition .grammarClosed)
  if left.isEmpty then throw (.definition .noLeftSide)
  let s ← resolve left .nonterminal
  if s.kind ≠ .nonterminal then throw (.definition (.leftSideKind left s.kind))
  let ids ← items.mapM (rightId left)
  let ids ← match action with
    | some text => do
      let a ← newAction text true
      pure (ids ++ [a.id])
    | none => pure ids
  let number := (← get).nextNumber
  modify fun g => { g with nextNumber := number + 1 }
  let p : Production := ⟨number, s.id, ids, action, label⟩
  register p
  modify fun g => { g with start := g.start <|> some left }
  return p

/-- Adds a production from storage under the number it had. -/
def restoreProduction (p : Production) : Build Production := do
  register p
  modify fun g => { g with nextNumber := max g.nextNumber (p.number + 1) }
  return p

/-- Overwrites the kind of a symbol. -/
def setKind (s : Symbol) (kind : SymbolKind) : Build Symbol := do
  let s := { s with kind := kind }
  updateSymbol s
  return s

end ParserGenerator.Grammar
