import ParserGenerator.CommandLine.Run
import ParserGenerator.Files.Disk

/-!
# Command lines on a disk

A desk is a disk with what has been printed. On it command lines run as functions of values.
-/

namespace ParserGenerator.CommandLine

structure Desk where
  disk : Disk := .fresh
  results : String := ""
  remarks : String := ""

namespace Desk

/-- Carries out an operation that changes the disk. -/
def change (f : Disk → Except FileFault Disk) : StateM Desk (Except FileFault Unit) := fun d =>
  match f d.disk with
  | .ok disk => (.ok (), { d with disk := disk })
  | .error fault => (.error fault, d)

/-- Asks something about the disk. -/
def ask {α : Type} (f : Disk → α) : StateM Desk α := fun d => (f d.disk, d)

instance : Files (StateM Desk) where
  readBytes p := ask (·.read p)
  writeBytes p bytes := change (·.write p bytes)
  makeDirectory p := change (·.makeDirectory p)
  isDirectory p := ask fun disk => (disk.find? p).any DiskEntry.isDirectory
  isPresent p := ask fun disk => (disk.find? p).isSome

instance : Console (StateM Desk) where
  result line := modify fun d => { d with results := d.results ++ line ++ "\n" }
  remark line := modify fun d => { d with remarks := d.remarks ++ line ++ "\n" }

/-- Runs a command line; nothing is printed before it. -/
def run (args : List String) : StateM Desk Outcome := do
  modify fun d => { d with results := "", remarks := "" }
  CommandLine.run args

/-- Writes a file and makes the directories above it. -/
def write (path : String) (bytes : ByteArray) : ExceptT Failure (StateM Desk) Unit := do
  let p := Path.parse path
  Files.makeParents p
  Files.attempt p (Files.writeBytes p bytes)

/-- The text of a file with its line ends as they are. -/
def read (path : String) : ExceptT Failure (StateM Desk) String := do
  let p := Path.parse path
  match String.fromUTF8? (← Files.attempt p (Files.readBytes p)) with
  | some s => return s
  | none => throw .undecodable

end Desk

end ParserGenerator.CommandLine
