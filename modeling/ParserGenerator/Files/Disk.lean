import ParserGenerator.Collection.OrderedMap
import ParserGenerator.Files.Store

/-!
# Disks

A disk is a file system as a value: each place, a row of names from the root, holds a file or a
directory. The root is a directory that is always there. A path leads through directories only.
-/

namespace ParserGenerator

/-- The names from the root. -/
abbrev Location := List String

inductive DiskEntry where
  | file (bytes : ByteArray)
  | directory

def DiskEntry.isDirectory : DiskEntry → Bool
  | file _ => false
  | directory => true

structure Disk where
  entries : OrderedMap Location DiskEntry := ∅
  /-- Where relative paths begin. -/
  here : Location := []

namespace Disk

/-- A disk with one directory, in which the work is done. -/
def fresh : Disk where
  entries := OrderedMap.ofList [(["work"], .directory)]
  here := ["work"]

def entry? (d : Disk) (l : Location) : Option DiskEntry :=
  if l = [] then some .directory else d.entries.get? l

/-- Follows names from a place; only the last one may name what is not there. -/
def follow (d : Disk) : Location → List String → Except FileFault Location
  | l, [] => .ok l
  | l, name :: names =>
    match d.entry? l with
    | none => .error .missing
    | some (.file _) => .error .notDirectory
    | some .directory => d.follow (if name = ".." then l.dropLast else l ++ [name]) names

def locate (d : Disk) (p : Path) : Except FileFault Location :=
  d.follow (if p.isAbsolute then [] else d.here) p.names

def put (d : Disk) (l : Location) (e : DiskEntry) : Disk :=
  { d with entries := d.entries.insert l e }

def read (d : Disk) (p : Path) : Except FileFault ByteArray := do
  match d.entry? (← d.locate p) with
  | none => throw .missing
  | some .directory => throw .isDirectory
  | some (.file bytes) => return bytes

def write (d : Disk) (p : Path) (bytes : ByteArray) : Except FileFault Disk := do
  let l ← d.locate p
  match d.entry? l with
  | some .directory => throw .isDirectory
  | _ => return d.put l (.file bytes)

def makeDirectory (d : Disk) (p : Path) : Except FileFault Disk := do
  let l ← d.locate p
  match d.entry? l with
  | some _ => throw .alreadyExists
  | none => return d.put l .directory

/-- What a path leads to. -/
def find? (d : Disk) (p : Path) : Option DiskEntry :=
  match d.locate p with
  | .ok l => d.entry? l
  | .error _ => none

end Disk

end ParserGenerator
