import ParserGenerator.Error
import ParserGenerator.Files.Path
import ParserGenerator.Text.Document

/-!
# Reading and writing files

What a program needs of a file system are a few operations, each of which tells why it fails. On them
stand the operations of this library: reading texts, and writing a file together with the directories
above it. An operation that fails names the path at fault.
-/

namespace ParserGenerator

inductive FileFault where
  | missing | isDirectory | alreadyExists | notDirectory
  deriving DecidableEq

namespace FileFault

/-- The name of the fault in reports. -/
def name : FileFault → String
  | missing => "FileNotFoundError"
  | isDirectory => "IsADirectoryError"
  | alreadyExists => "FileExistsError"
  | notDirectory => "NotADirectoryError"

/-- The number of the fault and its wording. -/
def description : FileFault → Nat × String
  | missing => (2, "No such file or directory")
  | isDirectory => (21, "Is a directory")
  | alreadyExists => (17, "File exists")
  | notDirectory => (20, "Not a directory")

end FileFault

/-- Why a program stops. -/
inductive Failure where
  | error (e : Error)
  | file (fault : FileFault) (path : Path)
  /-- A file whose bytes are no text. -/
  | undecodable
  /-- A path is needed where none was given. -/
  | noPath
  /-- A run that does not end within any number of steps that can be counted. -/
  | endless
  deriving DecidableEq

/-- A file system; the operations act on a path as it is. -/
class Files (m : Type → Type) where
  readBytes : Path → m (Except FileFault ByteArray)
  writeBytes : Path → ByteArray → m (Except FileFault Unit)
  makeDirectory : Path → m (Except FileFault Unit)
  isDirectory : Path → m Bool
  isPresent : Path → m Bool

namespace Files

variable {m : Type → Type} [Monad m] [Files m]

/-- Carries out an operation on a path. -/
def attempt {α : Type} (p : Path) (x : m (Except FileFault α)) : ExceptT Failure m α := do
  if p.hasNul then throw (.error (.value .nulInPath))
  match ← x with
  | .ok a => return a
  | .error fault => throw (.file fault p)

/-- The text of bytes in UTF-8. -/
def decoded (bytes : ByteArray) : ExceptT Failure m String :=
  match Document.decode? bytes with
  | some s => return s
  | none => throw .undecodable

def readText (p : Path) : ExceptT Failure m String := do
  decoded (← attempt p (readBytes p))

/-- The text of a written grammar, which may begin with a byte order mark. -/
def readGrammar (p : Path) : ExceptT Failure m String := do
  decoded (Document.withoutMark (← attempt p (readBytes p)))

def writeText (p : Path) (s : String) : ExceptT Failure m Unit := attempt p (writeBytes p s.toUTF8)

def exists? (p : Path) : m Bool := if p.hasNul then return false else isPresent p

/-- Makes a directory unless it is there. Nothing is done where one above it is missing. -/
def ensureDirectory (p : Path) : ExceptT Failure m Bool := do
  if p.hasNul then throw (.error (.value .nulInPath))
  match ← (makeDirectory p : m _) with
  | .ok () => return true
  | .error .missing => return false
  | .error fault => if ← (isDirectory p : m _) then return true else throw (.file fault p)

/-- Makes a directory and those above it that are missing; the names of its path are given from the
last one on. -/
def ensureAll (root : String) : List String → ExceptT Failure m Unit
  | [] => do
    let p : Path := ⟨root, []⟩
    if !(← ensureDirectory p) then throw (.file .missing p)
  | name :: above => do
    let p : Path := ⟨root, (name :: above).reverse⟩
    if !(← ensureDirectory p) then
      ensureAll root above
      if !(← ensureDirectory p) then throw (.file .missing p)

/-- Makes the directories above a path. -/
def makeParents (p : Path) : ExceptT Failure m Unit := ensureAll p.root p.parent.names.reverse

end Files

end ParserGenerator
