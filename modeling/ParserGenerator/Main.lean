import ParserGenerator.CommandLine.Run

/-!
# The program

The command line of the parser generator, on the files of the system it runs on.
-/

namespace ParserGenerator.CommandLine

/-- What an error of the system means for an operation on files. Other errors are not handled. -/
def faultOf? : IO.Error → Option FileFault
  | .noFileOrDirectory .. => some .missing
  | .alreadyExists .. => some .alreadyExists
  | .inappropriateType _ code _ => some (if code = 20 then .notDirectory else .isDirectory)
  | .resourceExhausted .. => none
  | _ => none

/-- Carries out an operation, and tells the faults that are known. -/
def catching {α : Type} (x : IO α) : IO (Except FileFault α) := do
  try
    return .ok (← x)
  catch e =>
    match faultOf? e with
    | some fault => return .error fault
    | none => throw e

/-- Whether a file or directory can be opened. -/
def opens (path : String) : IO Bool := do
  match ← (IO.FS.Handle.mk path .read).toBaseIO with
  | .ok _ => return true
  | .error _ => return false

instance : Files IO where
  readBytes p := do
    if ← opens (p.text ++ "/.") then return .error .isDirectory
    catching (IO.FS.readBinFile p.text)
  writeBytes p bytes := do
    if ← opens (p.text ++ "/.") then return .error .isDirectory
    catching (IO.FS.writeBinFile p.text bytes)
  makeDirectory p := catching (IO.FS.createDir p.text)
  isDirectory p := opens (p.text ++ "/.")
  isPresent p := opens p.text

instance : Console IO where
  result line := IO.println line
  remark line := IO.eprintln line

def usage : String := "usage: lalrc [-h] \x7bcheck,build,lex\x7d ..."

/-- How a failure that ends the program is told. -/
def failureText : Failure → String
  | .error e => e.message
  | .file fault path => s!"{fault.name}: {path.text}"
  | .undecodable => "a file is no UTF-8 text"
  | .noPath => "no path was given"
  | .endless => "the parser does not stop"

end ParserGenerator.CommandLine

open ParserGenerator.CommandLine in
/-- Runs one command line. -/
def main (args : List String) : IO UInt32 := do
  match ← run (m := IO) args with
  | .code n => return n.toUInt32
  | .help =>
    IO.println usage
    return 0
  | .misuse =>
    IO.eprintln usage
    return 2
  | .failed failure =>
    IO.eprintln (failureText failure)
    return 1
