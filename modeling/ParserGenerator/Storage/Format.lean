import ParserGenerator.Error
import ParserGenerator.Grammar.Basic
import ParserGenerator.Json.Value

/-!
# Formats of a stream

Tables are stored as a flat stream of texts, whole numbers and nulls. A format tells how a value is
written as items of the stream and how it is read from the front of it, side by side, so that what is
written in one order is read in that order. A reader takes items one by one and fails at the first that
is missing or of another kind; it carries the grammar that is restored on the way.
-/

namespace ParserGenerator.Storage

open Json (Value)

/-- What a reader has before it: the items left, the position of the first of them in the stream, and
the grammar as far as it is restored. -/
structure Reading where
  position : Nat
  rest : List Value
  grammar : Grammar

abbrev Reader := EStateM Error Reading

namespace Reader

/-- Takes the next item, which has to be one that is accepted. -/
def item {α : Type} (wanted : Json.Kind) (accept? : Value → Option α) : Reader α := fun r =>
  match r.rest with
  | [] => .error (.stream (.truncated r.position)) r
  | v :: rest =>
    match accept? v with
    | some a => .ok a { r with position := r.position + 1, rest := rest }
    | none => .error (.stream (.wrongKind r.position wanted v.kind)) r

/-- Repeats a reader. -/
def times {α : Type} : Nat → Reader α → Reader (List α)
  | 0, _ => return []
  | n + 1, x => do
    let a ← x
    let as ← times n x
    return a :: as

/-- Carries out a step on the grammar. -/
def onGrammar {α : Type} (x : Build α) : Reader α := fun r =>
  match x r.grammar with
  | .ok a g => .ok a { r with grammar := g }
  | .error e g => .error e { r with grammar := g }

/-- Refuses items that are left over. -/
def atEnd : Reader Unit := do
  let r ← get
  unless r.rest.isEmpty do throw (.stream (.trailing r.rest.length))

end Reader

/-- How values of a type are written and read. -/
structure Format (α : Type) where
  write : α → List Value
  read : Reader α

namespace Format

def text : Format String where
  write s := [.string s]
  read := Reader.item .string fun
    | .string s => some s
    | _ => none

def integer : Format Int where
  write n := [.int n]
  read := Reader.item .int fun
    | .int n => some n
    | _ => none

/-- A text that may be absent. -/
def optionalText : Format (Option String) where
  write
    | some s => [.string s]
    | none => [.null]
  read := Reader.item .string fun
    | .string s => some (some s)
    | .null => some none
    | _ => none

/-- The number of values that follow. -/
def count : Format Nat where
  write n := integer.write n
  read := do
    let n ← integer.read
    if n < 0 then throw (.stream (.negativeCount n))
    return n.toNat

/-- A list, its length first. -/
def many {α : Type} (f : Format α) : Format (List α) where
  write xs := count.write xs.length ++ xs.flatMap f.write
  read := do Reader.times (← count.read) f.read

end Format

end ParserGenerator.Storage
