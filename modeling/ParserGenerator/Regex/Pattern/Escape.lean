import ParserGenerator.Regex.Pattern.Cursor
import ParserGenerator.Regex.Pattern.Match
import ParserGenerator.Text.Hex

/-!
# Escapes and sets in patterns

Behind a backslash stand codes of characters, named sets, assertions and references; a set lists
characters, ranges and other sets in brackets. In a set only the former two kinds of escapes have a
meaning.
-/

namespace ParserGenerator.Pattern

/-- What an escape or a member of a set denotes. -/
inductive Denoted where
  | code (n : Nat)
  | set (s : CodeSet)
  | pattern (p : Pattern)

namespace Denoted

def toCodeSet : Denoted → CodeSet
  | code n => fun m => m = n
  | set s => s
  | pattern _ => fun _ => false

def toPattern : Denoted → Reading Pattern
  | pattern p => return p
  | d => Reading.oneOf d.toCodeSet

end Denoted

def isHorizontalBlank (n : Nat) : Bool := n = 9 || GeneralCategory.ofCodePoint n = .spaceSeparator

/-- The code points of blanks and of breaks between lines. -/
def isSpaceCode (n : Nat) : Bool :=
  (9 ≤ n && n ≤ 13) || n = 0x85 || (GeneralCategory.ofCodePoint n).group = 'Z'

def isLineBreakCode (n : Nat) : Bool := (10 ≤ n && n ≤ 13) || n = 0x85 || n = 0x2028 || n = 0x2029

/-- The sets that letters denote behind a backslash, and those that hold all others. -/
def escapedSet? : Char → Option CodeSet
  | 'd' => some (Property.ofCategory "ND")
  | 'D' => some fun n => !Property.ofCategory "ND" n
  | 's' => some isSpaceCode
  | 'S' => some fun n => !isSpaceCode n
  | 'w' => some isWordCode
  | 'W' => some fun n => !isWordCode n
  | 'h' => some isHorizontalBlank
  | _ => none

/-- The control characters that letters denote behind a backslash. -/
def escapedCode? : Char → Option Nat
  | 'a' => some 7
  | 'b' => some 8
  | 't' => some 9
  | 'n' => some 10
  | 'v' => some 11
  | 'f' => some 12
  | 'r' => some 13
  | _ => none

/-- The assertions that letters denote behind a backslash. -/
def escapedPosition? : Char → Option Pattern
  | 'A' | 'G' => some (.position .textStart)
  | 'Z' => some (.position .textEnd)
  | 'b' => some (.position .wordEdge)
  | 'B' => some (.position .noWordEdge)
  | 'm' => some (.position .wordStart)
  | 'M' => some (.position .wordEnd)
  | 'K' => some .empty
  | 'X' => some (.one fun _ => true)
  | 'R' => some (.one isLineBreakCode)
  | _ => none

namespace Reading

def hexLength? : Char → Option Nat
  | 'x' => some 2
  | 'u' => some 4
  | 'U' => some 8
  | _ => none

def codePoints : Nat := 0x110000

/-- Reads a code in so many hexadecimal digits. -/
def hexEscape (letter : Char) (length : Nat) : Reading Denoted := do
  let start ← offset
  let found ← takeUpTo length fun c => (Hex.value? c).isSome
  if found.length < length then
    faultAt start (.incompleteEscape (String.ofList (letter :: found)))
  match Hex.number? found with
  | some n => if n < codePoints then return .code n
  | none => pure ()
  faultAt start (.badHexEscape (String.ofList (letter :: found)))

def isOctalDigit (c : Char) : Bool := '0' ≤ c && c ≤ '7'

def octalValue (ds : List Char) : Nat := ds.foldl (fun n c => 8 * n + (c.toNat - '0'.toNat)) 0

/-- Reads a code in up to three octal digits, of which the first is given. -/
def octalEscape (first : Char) : Reading Denoted := do
  let more ← takeUpTo 2 isOctalDigit
  if isOctalDigit first then return .code (octalValue (first :: more))
  fault (.badEscape first)

/-- Reads a reference to a group by its number, or a code in three octal digits. -/
def numericEscape (first : Char) : Reading Denoted := do
  let more ← takeUpTo 1 Char.isDigit
  let ds := first :: more
  match more, ← peek with
  | [_], some c =>
    if (c :: ds).all isOctalDigit then
      let _ ← next
      return .code (octalValue (ds ++ [c]))
  | _, _ => pure ()
  let target := .inl (decimalValue ds)
  if (← get).groups.isUnclosed target then fault .unclosedGroup
  return .pattern (.same ⟨target, ← offset⟩)

/-- Reads a reference to a group in angle brackets. -/
def bracketedReference : Reading Denoted := do
  expect '<'
  let start ← offset
  let target ← groupName true
  expect '>'
  if (← get).groups.isUnclosed target then fault .unclosedGroup
  return .pattern (.same ⟨target, start⟩)

/-- Reads what stands behind the letter of a property; without a name the letter stands for itself. -/
def property (letter : Char) : Reading Denoted := do
  let place ← get
  let ofSet (inverted : Bool) (s : CodeSet) : Denoted :=
    .set fun n => s n != (inverted != decide (letter = 'P'))
  let known (inverted : Bool) (name : Property.Name) : Reading Denoted :=
    match Property.ofName name with
    | .ok s => return ofSet inverted s
    | .error f => fault f
  match ← next with
  | some '\x7b' =>
    let inverted ← accept "^"
    let (name, rest) := Property.Name.split (← get).rest
    skip ((← extent) - rest.length)
    if ← accept "\x7d" then return ← known inverted name
  | some c =>
    if c ∈ "CLMNPSZ".toList then return ← known false ⟨"", c.toString⟩
  | none => pure ()
  back place
  return .code letter.toNat

/-- Reads the name of a character in braces; without one the letter stands for itself. -/
def namedCharacter : Reading Denoted := do
  let place ← get
  if ← accept "\x7b" then
    let _ ← verbatim (takeWhile fun c => c.isAlphanum || c = ' ' || c = '-')
    if ← accept "\x7d" then fault .undefinedCharacter
  back place
  return .code 'N'.toNat

/-- Reads the name of a list of words. No list has a name. -/
def namedList : Reading Denoted := do
  expect '<'
  let _ ← groupName true
  expect '>'
  fault .undefinedList

/-- Reads what stands behind a backslash. -/
def escape (inSet : Bool) : Reading Denoted := do
  match ← nextHere with
  | none => fault .escapeAtEnd
  | some c =>
    if let some length := hexLength? c then hexEscape c length
    else if c = 'g' ∧ !inSet then
      let place ← get
      try bracketedReference
      catch _ =>
        back place
        return .code c.toNat
    else if c = 'L' ∧ !inSet then namedList
    else if c = 'N' then namedCharacter
    else if c = 'p' ∨ c = 'P' then property c
    else if c.isAlpha then
      match if inSet then none else escapedPosition? c, escapedSet? c, escapedCode? c with
      | some p, _, _ => return .pattern p
      | none, some s, _ => return .set s
      | none, none, some n => return .code n
      | none, none, none => fault (.badEscape c)
    else if c.isDigit then
      if inSet ∨ c = '0' then octalEscape c else numericEscape c
    else return .code c.toNat

/-! ## Sets -/

/-- Reads the name of a set between a bracket and a colon on each side. -/
def classInSet : Reading Denoted := do
  let inverted ← accept "^"
  let (name, rest) := Property.Name.split (← get).rest
  skip ((← extent) - rest.length)
  if !(← accept ":]") then throw .otherForm
  match Property.ofName name with
  | .ok s => return .set fun n => s n != inverted
  | .error f => fault f

/-- Reads one character of a set, or a set in it. -/
def setItem : Reading Denoted := do
  if ← accept "\\" then return ← escape true
  let place ← get
  if ← accept "[:" then
    if let some d ← attempt classInSet then return d
    back place
  match ← next with
  | some c => return .code c.toNat
  | none => fault .unterminatedSet

/-- Reads a member of a set: an item, or a range between two characters. -/
def setMember : Reading CodeSet := do
  match ← setItem with
  | .code low =>
    if !(← accept "-") then return (Denoted.code low).toCodeSet
    if (← peek) = some ']' then return fun n => n = low || n = '-'.toNat
    match ← setItem with
    | .code high =>
      if high < low then fault .badRange
      return fun n => low ≤ n && n ≤ high
    | d => return fun n => n = low || n = '-'.toNat || d.toCodeSet n
  | d => return d.toCodeSet

/-- Reads the further members of a set up to its end. -/
def setMembers : Nat → CodeSet → Reading CodeSet
  | 0, _ => fault .unterminatedSet
  | bound + 1, s => do
    if ← accept "]" then return s
    let more ← setMember
    setMembers bound fun n => s n || more n

/-- Reads a set behind its opening bracket. -/
def codeSet : Reading Pattern := do
  let (inverted, s) ← verbatim do
    let inverted ← accept "^"
    let first ← setMember
    return (inverted, ← setMembers ((← extent) + 1) first)
  match ← oneOf s with
  | .one s => return .one fun n => s n != inverted
  | p => return p

end Reading

end ParserGenerator.Pattern
