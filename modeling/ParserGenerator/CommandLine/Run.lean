import ParserGenerator.CommandLine.Command
import ParserGenerator.CommandLine.Report
import ParserGenerator.Description.Lexer
import ParserGenerator.Description.Lowering
import ParserGenerator.Description.Reader
import ParserGenerator.Digest.Sha256
import ParserGenerator.Files.Store
import ParserGenerator.LR.Construction
import ParserGenerator.LR.Parser
import ParserGenerator.Storage.File

/-!
# Running commands

A command reads and writes files and prints lines, results apart from remarks. It ends with the code 0,
or with 2 after a report on what is wrong with the grammar, the input or a file. Other failures end the
program.
-/

namespace ParserGenerator.CommandLine

/-- Where lines are printed. -/
class Console (m : Type → Type) where
  result : String → m Unit
  remark : String → m Unit

variable {m : Type → Type} [Monad m] [Files m] [Console m]

/-- A command on its way; it stops at the first failure. -/
abbrev Session (m : Type → Type) := ExceptT Failure m

def result (line : String) : Session m Unit := ExceptT.lift (Console.result line)
def remark (line : String) : Session m Unit := ExceptT.lift (Console.remark line)
def remarkIf (condition : Bool) (line : String) : Session m Unit := if condition then remark line else pure ()

def need {α : Type} : Except Error α → Session m α
  | .ok a => return a
  | .error e => throw (.error e)

/-- Carries out an operation on a grammar. -/
def onGrammar {α : Type} (x : Build α) (g : Grammar) : Session m (α × Grammar) :=
  match x g with
  | .ok a g => return (a, g)
  | .error e _ => throw (.error e)

/-- A grammar with its tables. -/
structure Product where
  grammar : Grammar
  tables : Tables

/-- Builds tables by the method that was given. -/
def tablesBy (method : Given Method) (g : Grammar) : Session m (Tables × Grammar) :=
  match method with
  | .nothing => throw (.error (.value .noMethod))
  | .value chosen => onGrammar (Grammar.buildTables chosen.name) g

/-- Builds the tables of a grammar file, with a remark after each stage if they are wanted. -/
def produce (target : Target) (debug : Bool) : Session m Product := do
  let source ← Files.readGrammar (.parse target.file)
  let d ← need (Description.parse source)
  remarkIf debug s!"[DEBUG] AST ready | rules={d.rules.length}"
  let g ← need d.toGrammar
  remarkIf debug (s!"[DEBUG] BNF ready | terms={g.symbols.terminals.length} " ++
    s!"nonterms={g.symbols.nonterminals.length} rules={g.productions.size}")
  let (passes, g) ← onGrammar Grammar.analyze g
  remarkIf debug s!"[DEBUG] FIRST/FOLLOW/NULLABLE computed | follow passes={passes.length}"
  let (t, g) ← tablesBy target.method g
  remarkIf debug (s!"[DEBUG] {title target.method} tables built | states={t.stateCount} " ++
    s!"conflicts={t.conflicts.length}")
  if debug then (← need (fullReport g t)).forM remark
  return ⟨g, t⟩

def check (target : Target) (debug : Bool) : Session m Unit := do
  let p ← produce target debug
  result (s!"[CHECK OK] parser={methodName target.method} states={p.tables.stateCount} " ++
    s!"prods={p.tables.rightLengths.length} conflicts={p.tables.conflicts.length} " ++
    s!"unresolved={p.tables.unresolved.length}")

/-- The fingerprint in the table file at a path; none if there is no such file, or no good one. -/
def storedFingerprint (path : Path) (debug : Bool) : Session m String := do
  if !(← ExceptT.lift (Files.exists? path)) then return ""
  match TableFile.readFingerprint (← Files.readText path) with
  | .ok fingerprint => return fingerprint
  | .error (.stream e) =>
    remarkIf debug s!"[DEBUG] cache ignored: {e.message}"
    return ""
  | .error e => throw (.error e)

/-- The path that was given; nothing is no path. -/
def pathGiven : Given String → Session m Path
  | .nothing => throw .noPath
  | .value s => return .parse s

/-- Stores the tables of a grammar. With the cache this is left out where the file that is there has
the fingerprint of the grammar. -/
def build (target : Target) (output : Given String) (cache debug : Bool) : Session m Unit := do
  let path ← pathGiven output
  let fingerprint := Sha256.fingerprint (← Files.readGrammar (.parse target.file))
  let stored ← if cache then storedFingerprint path debug else pure ""
  if stored = fingerprint then
    result s!"[CACHED] parser={methodName target.method} -> {path.text}"
  else
    let p ← produce target debug
    if !p.tables.unresolved.isEmpty then
      remark "[WARN] Unresolved conflicts present; continuing with default resolution."
      remark (conflictLines p.grammar p.tables true)
    let text := TableFile.write p.grammar p.tables fingerprint
    Files.makeParents path
    Files.writeText path text
    result s!"[EMIT] parser={methodName target.method} states={p.tables.stateCount} -> {path.text}"
    remarkIf debug s!"[DEBUG] fingerprint={fingerprint} bytes={text.length}"

def inputText : Input → Session m String
  | .text s => return s
  | .file path => do Files.readText (← pathGiven path)

/-- A number of steps that no run of a parser can be seen to exceed. -/
def stepLimit : Nat := Nat.pow 2 64

def lex (target : Target) (input : Input) (parse : Bool) : Session m Unit := do
  let d ← need (Description.parse (← Files.readGrammar (.parse target.file)))
  let text := (← inputText input).toList
  let lexer ← need d.lexer
  match lexer.tokens text with
  | .error e _ => throw (.error e)
  | .ok tokens _ =>
    tokens.zipIdx.forM fun (t, number) => result (tokenLine number t)
    if parse then
      let g ← need d.toGrammar
      let (t, g) ← tablesBy target.method g
      match (Parser.parseTokens ⟨t, g.symbols, text⟩ tokens stepLimit).verdict with
      | .accepted => result "[PARSE OK]"
      | .failed e => throw (.error e)
      | .outOfSteps => throw .endless

/-- Carries out a command. -/
def Command.perform : Command → Session m Unit
  | check target debug => CommandLine.check target debug
  | build target output cache debug => CommandLine.build target output cache debug
  | lex target input parse => CommandLine.lex target input parse

/-- The heading of a report on faulty text. -/
def Command.heading : Command → String
  | lex _ _ false => "[LEX ERROR]"
  | _ => "[SYNTAX ERROR]"

/-- The name of an error that is reported by name. -/
def errorName? : Error → Option String
  | .definition _ => some "GrammarDefinitionError"
  | .unknownSymbol .. => some "UnknownSymbolError"
  | .stream _ => some "SerializationError"
  | .malformedStream _ => some "SerializationError"
  | _ => none

/-- The report on a failure of a command, if it is one that is reported. -/
def Command.report? (c : Command) : Failure → Option (List String)
  | .error (.source e) => some [c.heading, e.message]
  | .error e => (errorName? e).map fun name => [s!"[ERROR] {name} {e.message}"]
  | .file fault path =>
    let (number, wording) := fault.description
    some [s!"[ERROR] {fault.name} [Errno {number}] {wording}: {quoted path.text}"]
  | _ => none

/-- Runs a command: the code with which the program ends, unless a failure ends it. -/
def Command.run (c : Command) : m (Except Failure Nat) := do
  match ← ExceptT.run (m := m) c.perform with
  | .ok () => return .ok 0
  | .error failure =>
    match c.report? failure with
    | none => return .error failure
    | some lines =>
      lines.forM Console.remark
      return .ok 2

/-- How a command line ends. -/
inductive Outcome where
  | code (n : Nat)
  | help
  | misuse
  | failed (failure : Failure)

/-- Reads a command line and runs its command. -/
def run (args : List String) : m Outcome := do
  match Command.parse args with
  | .error .help => return .help
  | .error .misuse => return .misuse
  | .ok c =>
    match ← c.run with
    | .ok n => return .code n
    | .error failure => return .failed failure

end ParserGenerator.CommandLine
