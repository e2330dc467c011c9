import ParserGenerator.CommandLine.Option
import ParserGenerator.Grammar.Basic
import ParserGenerator.LR.Tables
import ParserGenerator.Lexer.Token

/-!
# Reports

The lines in which commands tell what they found.
-/

namespace ParserGenerator.CommandLine

/-- A text with as many fillers before it as make up a width. -/
def padLeft (filler : Char) (width : Nat) (s : String) : String :=
  String.ofList (List.replicate (width - s.length) filler) ++ s

/-- A text with as many blanks behind it as make up a width. -/
def padRight (width : Nat) (s : String) : String :=
  s ++ String.ofList (List.replicate (width - s.length) ' ')

/-- One token with its number. -/
def tokenLine (number : Nat) (t : Token) : String :=
  let index := padLeft '0' 3 (toString number)
  s!"{index}: {padRight 12 t.kind} {quoted t.text}  @{t.line}:{t.column}"

/-- The name of the method that was given; an empty list where that is nothing. -/
def methodName : Given Method → String
  | .nothing => "[]"
  | .value chosen => chosen.name

/-- The method's name in capitals. -/
def title : Given Method → String
  | .nothing => "[]"
  | .value .slr => "SLR"
  | .value .lalr => "LALR"

def nameList (symbols : List Symbol) : String := ", ".intercalate (symbols.map Symbol.name)

/-- The name of an identifier, if it has one. -/
def nameOf (g : Grammar) (id : Int) : Option String := (g.symbols.at? id).map Symbol.name

/-- The conflicts of tables by the names of their symbols. -/
def conflictLines (g : Grammar) (t : Tables) (unresolvedOnly : Bool) : String :=
  t.describeConflicts (nameOf g) unresolvedOnly

def productionLine (g : Grammar) (p : Production) : Except Error String := do
  let number := padLeft ' ' 3 (toString p.number)
  let text ← g.format p none
  return s!"  {number}: {text}"

def violationLine (g : Grammar) (v : Violation) : Except Error String := do
  let name ← g.symbols.nameOf v.terminal
  return s!"  nonassoc: state {v.state}, on {name}, production {v.production}"

/-- A grammar and its tables at length. -/
def fullReport (g : Grammar) (t : Tables) : Except Error (List String) := do
  let productions ← g.productions.toList.mapM (productionLine g)
  let violations ← t.violations.mapM (violationLine g)
  let conflicts := if t.conflicts.isEmpty then [] else [conflictLines g t false]
  let items := t.stateItems.head?.getD []
  let start := g.start.getD "None"
  return ["\n[BNF]", s!"Start: {start}",
      s!"Terminals:    {nameList g.symbols.terminals}",
      s!"Nonterminals: {nameList g.symbols.nonterminals}"] ++ productions ++
    ["\n[Parsing Tables]", s!"States: {t.stateCount}",
      s!"Conflicts: {t.conflicts.length} (unresolved {t.unresolved.length})"] ++
    conflicts ++ violations ++ ["\n[State 0 items]"] ++ items.map ("  " ++ ·)

end ParserGenerator.CommandLine
