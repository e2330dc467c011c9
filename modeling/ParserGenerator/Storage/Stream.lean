import ParserGenerator.Grammar.Close
import ParserGenerator.Storage.Record

/-!
# Streams of tables

`encode` writes a grammar and its tables as a stream, `decode` restores both. While a stream is read,
each symbol, label and production goes into the grammar at once, so that of two faults the one that
comes first in the stream is reported; the grammar is closed when the stream is at its end.
-/

namespace ParserGenerator.Storage

open Json (Value)
open Format

/-- The version of the format, the first item of every stream. -/
def version : String := "1.0"

/-- The stream of a grammar and its tables. -/
def encode (g : Grammar) (t : Tables) : List Value :=
  text.write version ++
  text.write t.method ++
  optionalText.write g.start ++
  (many symbolRecord).write (g.symbols.symbols.map .ofSymbol) ++
  (many labelRecord).write
    (g.labels.toList.map fun (l, p) => (l, p.associativity.name, p.level)) ++
  (many production).write g.sortedProductions ++
  integer.write t.startState ++
  integer.write t.stateCount ++
  (many actionCell).write t.action.toList ++
  (many gotoCell).write t.goto.toList ++
  (many conflict).write t.conflicts ++
  (many violation).write t.violations ++
  (many (many text)).write t.stateItems

def parsePrecedence (p : String × Int) : Build Precedence :=
  match Associativity.ofName? p.1 with
  | some a => return ⟨a, p.2⟩
  | none => throw (.value (.associativity p.1))

/-- Puts a stored symbol into the grammar under its identifier. -/
def restoreSymbol (r : SymbolRecord) : Build Unit := do
  match SymbolKind.ofTag? r.tag with
  | none => throw (.stream (.unknownKindTag r.tag r.name))
  | some kind =>
    let s ← Grammar.onSymbols (·.restore r.name r.id kind)
    let s := { s with initialiser := r.initialiser, actionText := r.actionText }
    match r.precedence with
    | none => Grammar.updateSymbol s
    | some p => Grammar.updateSymbol { s with precedence := some (← parsePrecedence p) }

/-- Puts a stored label into the grammar; a later one of the same name replaces an earlier one. -/
def restoreLabel (l : String × String × Int) : Build Unit := do
  let p ← parsePrecedence l.2
  modify fun g => { g with labels := g.labels.insert l.1 p }

/-- Reads as many values as the stream announces and puts each into the grammar as it is read. -/
def restoreMany {α : Type} (f : Format α) (restore : α → Build Unit) : Reader Unit := do
  let n ← count.read
  let _ ← Reader.times n (do Reader.onGrammar (restore (← f.read)))

def checkVersion : Reader Unit := do
  let found ← text.read
  if found ≠ version then throw (.stream (.version version found))

/-- The tables with what the closed grammar tells about its productions. -/
def complete (start : String) (t : Tables) : Build Tables := do
  Grammar.close (some start)
  let g ← get
  let lengths ← Grammar.query fun g => g.productions.toList.mapM g.reduceLength
  return { t with
    leftIds := g.productions.toList.map Production.left
    rightLengths := lengths.map Int.ofNat }

/-- Reads tables and restores their grammar. -/
def readTables : Reader Tables := do
  checkVersion
  let method ← text.read
  let start ← text.read
  restoreMany symbolRecord restoreSymbol
  restoreMany labelRecord restoreLabel
  restoreMany production fun p => do let _ ← Grammar.restoreProduction p
  let startState ← integer.read
  let stateCount ← integer.read
  let actions ← (many actionCell).read
  let gotos ← (many gotoCell).read
  let conflicts ← (many conflict).read
  let violations ← (many violation).read
  let stateItems ← (many (many text)).read
  Reader.atEnd
  Reader.onGrammar (complete start
    { action := .ofList actions, goto := .ofList gotos, startState, stateCount, leftIds := [],
      rightLengths := [], stateItems, conflicts, violations, method })

/-- A fault that stored values brought up in the grammar is one of the stream. -/
def asStreamFault : Error → Error
  | .definition e => .malformedStream (.definition e)
  | .unknownSymbol name place => .malformedStream (.unknownSymbol name place)
  | .missing key => .malformedStream (.missing key)
  | .value e => .malformedStream (.value e)
  | e => e

/-- The grammar and the tables of a stream. -/
def decode (stream : List Value) : Except Error (Grammar × Tables) :=
  match readTables ⟨0, stream, .fresh⟩ with
  | .ok t r => .ok (r.grammar, t)
  | .error e _ => .error (asStreamFault e)

end ParserGenerator.Storage
