import ParserGenerator.CommandLine.Option
import ParserGenerator.Error
import ParserGenerator.LR.Tables

/-!
# Commands

A command line names a command, a grammar file and options. `check` reports on a grammar, `build` stores
its tables, `lex` cuts an input into tokens and may parse it.
-/

namespace ParserGenerator.CommandLine

/-- Where the input of a lexer comes from. -/
inductive Input where
  | text (s : String)
  | file (path : Given String)
  deriving DecidableEq

/-- What all commands need: a grammar file and the method by which tables are built. -/
structure Target where
  file : String
  method : Given Method
  deriving DecidableEq

inductive Command where
  | check (target : Target) (debug : Bool)
  | build (target : Target) (output : Given String) (cache debug : Bool)
  | lex (target : Target) (input : Input) (parse : Bool)
  deriving DecidableEq

/-- What the words of a command line have set. -/
structure Settings where
  file : Option String := none
  method : Given Method := .value .lalr
  debug : Bool := false
  output : Option (Given String) := none
  cache : Bool := false
  text : Option String := none
  input : Option (Given String) := none
  parse : Bool := false

namespace Settings

def helpFlag : Flag Settings := ⟨["-h", "--help"], .help⟩

def methodFlag : Flag Settings :=
  ⟨["--parser"], .value fun v s => (v.map? Method.ofName?).map fun m => { s with method := m }⟩

def debugFlag : Flag Settings := ⟨["-D", "--debug"], .switch fun s => { s with debug := true }⟩

def outputFlag : Flag Settings :=
  ⟨["-o", "--output"], .value fun v s => some { s with output := some v }⟩

def cacheFlag : Flag Settings := ⟨["--cache"], .switch fun s => { s with cache := true }⟩

/-- The text that an option was given; where that is nothing, the empty text. -/
def textOf : Given String → String
  | .nothing => ""
  | .value s => s

/-- The input as a text; it cannot be given along with a file. -/
def textFlag : Flag Settings :=
  ⟨["--text"], .value fun v s =>
    if s.input.isSome then none else some { s with text := some (textOf v) }⟩

def inputFlag : Flag Settings :=
  ⟨["--input"], .value fun v s => if s.text.isSome then none else some { s with input := some v }⟩

def parseFlag : Flag Settings := ⟨["--parse"], .switch fun s => { s with parse := true }⟩

/-- A form whose one argument is the grammar file. -/
def form (flags : List (Flag Settings)) : Form Settings :=
  ⟨helpFlag :: methodFlag :: flags, fun file s => { s with file := some file }⟩

/-- A setting that must have been made. -/
def required {α : Type} : Option α → Except Rejection α
  | some a => .ok a
  | none => .error .misuse

def target (s : Settings) : Except Rejection Target := return ⟨← required s.file, s.method⟩

def source (s : Settings) : Except Rejection Input :=
  match s.text with
  | some text => .ok (.text text)
  | none => return .file (← required s.input)

end Settings

open Settings

/-- The command of a name with the words behind it. -/
def parseCommand (name : String) (args : List String) : Except Rejection Command := do
  if name = "check" then
    let s ← (form [debugFlag]).settings {} args
    return .check (← s.target) s.debug
  else if name = "build" then
    let s ← (form [debugFlag, outputFlag, cacheFlag]).settings {} args
    return .build (← s.target) (← required s.output) s.cache s.debug
  else if name = "lex" then
    let s ← (form [textFlag, inputFlag, parseFlag]).settings {} args
    return .lex (← s.target) (← s.source) s.parse
  else throw .misuse

/-- Reads the words before the name of a command, among which only a request for help is known, and
then the command. -/
def parseFrom : List Word → List String → Except Rejection Command
  | .argument name :: _, _ :: args => parseCommand name args
  | .option name attached :: ws, _ :: args => do
    let u ← Form.uses [helpFlag] name attached
    let _ ← u.steps.foldlM (fun s step => step s) ({} : Settings)
    parseFrom ws args
  | .unknownOption :: ws, _ :: args => do
    let _ ← parseFrom ws args
    throw .misuse
  | _, _ => .error .misuse

/-- The command of a command line. -/
def Command.parse (args : List String) : Except Rejection Command := do
  parseFrom (← Word.classifyAll helpFlag.names args) args

end ParserGenerator.CommandLine
