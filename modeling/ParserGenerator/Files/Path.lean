/-!
# Paths

A path is a row of names, from the root of the file system or from the working directory. Repeated
slashes and the name of the directory itself are left out; the name of the parent directory stays.
-/

namespace ParserGenerator

structure Path where
  /-- What stands before the names: nothing, one slash, or two that are not taken for one. -/
  root : String
  names : List String
  deriving DecidableEq

namespace Path

/-- The slashes that begin an absolute path. -/
def rootOf (slashes : Nat) : String :=
  if slashes = 0 then "" else if slashes = 2 then "//" else "/"

def parse (s : String) : Path where
  root := rootOf (s.toList.takeWhile (· = '/')).length
  names := (s.splitOn "/").filter fun name => name ≠ "" && name ≠ "."

def isAbsolute (p : Path) : Bool := p.root ≠ ""

def text (p : Path) : String :=
  if p.root = "" ∧ p.names = [] then "." else p.root ++ "/".intercalate p.names

/-- The path without its last name. -/
def parent (p : Path) : Path := { p with names := p.names.dropLast }

def hasNul (p : Path) : Bool := p.names.any fun name => name.toList.contains '\x00'

end Path

end ParserGenerator
