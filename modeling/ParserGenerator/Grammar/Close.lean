import ParserGenerator.Grammar.Declare

/-!
# Closing a grammar

A grammar can be closed when every name is settled, every nonterminal has a production, the start
symbol is a nonterminal and the numbers of the productions leave no gap.
-/

namespace ParserGenerator.Grammar

/-- Refuses a production that uses a name of which nothing is known. -/
def checkKnown (g : Grammar) (p : Production) : Except Error Unit :=
  p.right.forM fun id => do
    let s ← g.symbols.symbol id
    if s.kind = .unknown then
      let text ← g.format p none
      throw (.unknownSymbol s.name (some s!"production {p.number}: {text}"))

def checkSymbol (s : Symbol) : Except Error Unit := do
  if s.kind = .unknown then throw (.unknownSymbol s.name none)
  if s.kind = .nonterminal ∧ s.productions = [] ∧ s.name ≠ startMarkerName then
    throw (.definition (.withoutProduction s.name))

/-- The start symbol, which has to be a nonterminal. -/
def startSymbol (g : Grammar) (name : String) : Except Error Symbol :=
  match g.symbols.get? name with
  | some s => if s.kind = .nonterminal then .ok s else .error (.definition (.startKind name))
  | none => .error (.definition (.startKind name))

/-- Gives a terminal the precedence that was declared for its name. -/
def applyLabel (entry : String × Precedence) : Build Unit := do
  match (← get).symbols.get? entry.1 with
  | some s => if s.kind = .terminal then updateSymbol { s with precedence := some entry.2 }
  | none => pure ()

/-- The productions in the order 0, 1, 2, …, or the numbers that are missing. -/
def listProductions (g : Grammar) : Except Error (Array Production) :=
  let numbers := (List.range g.productionCount).map Int.ofNat
  let found := numbers.filterMap g.byNumber.get?
  if found.length = numbers.length then .ok found.toArray
  else .error (.definition (.numberGap (numbers.filter fun n => !g.byNumber.contains n)))

/-- Adds the start marker and production 0, unless that is there. -/
def markStart (s : Symbol) : Build Unit := do
  if !(← get).byNumber.contains 0 then
    let marker ← resolve startMarkerName .nonterminal
    register ⟨0, marker.id, [s.id], none, none⟩

/-- Closes the grammar over a start symbol. -/
def closeOver (name : String) : Build Unit := do
  query fun g => g.byNumber.values.forM g.checkKnown
  query fun g => g.symbols.symbols.forM checkSymbol
  let s ← query (·.startSymbol name)
  (← get).labels.toList.forM applyLabel
  markStart s
  let productions ← query listProductions
  modify fun g =>
    { g with productions := productions, symbols := g.symbols.freeze, closed := true }

/-- Closes the grammar; one that is closed stays as it is. -/
def close (start : Option String) : Build Unit := do
  if (← get).closed then return
  modify fun g => { g with start := start <|> g.start }
  match (← get).start with
  | none => throw (.definition .noProductions)
  | some name => closeOver name

end ParserGenerator.Grammar
