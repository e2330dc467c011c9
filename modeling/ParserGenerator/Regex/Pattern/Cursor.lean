import ParserGenerator.Regex.Pattern.Basic
import ParserGenerator.Text.Blank

/-!
# Reading a pattern's notation

A reader goes along the notation character by character and keeps the groups found so far. It stops at a
fault, or where the notation turns out not to be of the form that it tries; options that count for the
whole pattern, found inside it, make it start again with them. Under one option blanks and comments do not
count, except where characters stand for themselves.
-/

namespace ParserGenerator.Pattern

/-- The letters of the options that are set, everywhere or where the reader stands. -/
structure Options where
  everywhere : List Char := []
  here : List Char := []

/-- Why reading stops. -/
inductive Stop where
  | fault (offset : Nat) (f : PropertyFault)
  | value (e : ValueError)
  /-- The text is not of the form that was tried. -/
  | otherForm
  /-- Options that count for the whole pattern. -/
  | again (everywhere : List Char)

structure Cursor where
  rest : List Char
  offset : Nat := 0
  groups : Groups := {}
  options : Options := {}
  /-- Whether blanks count although an option says otherwise. -/
  verbatim : Bool := false

/-- A text without the blanks and comments in front; a comment ends with its line. -/
def withoutBlanks (inComment : Bool) : List Char → List Char
  | [] => []
  | c :: cs =>
    if inComment then withoutBlanks (c ≠ '\n') cs
    else if ParserGenerator.isBlankCode c.toNat then withoutBlanks false cs
    else if c = '#' then withoutBlanks true cs
    else c :: cs

namespace Cursor

def skip (c : Cursor) (n : Nat) : Cursor := { c with rest := c.rest.drop n, offset := c.offset + n }

/-- The cursor behind the blanks and comments that do not count. -/
def passed (c : Cursor) : Cursor :=
  if c.options.here.contains 'x' && !c.verbatim then
    c.skip (c.rest.length - (withoutBlanks false c.rest).length)
  else c

/-- The cursor behind a word, if that comes next. -/
def behind? (c : Cursor) : List Char → Option Cursor
  | [] => some c
  | w :: ws => if c.passed.rest.head? = some w then behind? (c.passed.skip 1) ws else none

/-- The longest run of characters that pass a test, of no more than a number, and the cursor behind it. -/
def run (test : Char → Bool) : Nat → Cursor → List Char × Cursor
  | 0, c => ([], c)
  | bound + 1, c =>
    match c.passed.rest with
    | x :: _ =>
      if test x then
        let (xs, c) := run test bound (c.passed.skip 1)
        (x :: xs, c)
      else ([], c.passed)
    | [] => ([], c.passed)

end Cursor

abbrev Reading := EStateM Stop Cursor

namespace Reading

def faultAt {α : Type} (offset : Nat) (f : PropertyFault) : Reading α := throw (.fault offset f)

/-- A fault where the reader stands. -/
def fault {α : Type} (f : PropertyFault) : Reading α := do faultAt (← get).offset f

def offset : Reading Nat := return (← get).offset

/-- The length of what is left. -/
def extent : Reading Nat := return (← get).rest.length

def peek : Reading (Option Char) := return (← get).passed.rest.head?

/-- Passes over so many characters. -/
def skip (n : Nat) : Reading Unit := modify (·.skip n)

/-- The very next character, taken. -/
def nextHere : Reading (Option Char) := do
  let c := (← get).rest.head?
  skip c.toList.length
  return c

/-- The next character that counts, taken. -/
def next : Reading (Option Char) := do
  modify Cursor.passed
  nextHere

/-- Takes a word if it comes next. -/
def accept (word : String) : Reading Bool := do
  match (← get).behind? word.toList with
  | some c =>
    set c
    return true
  | none => return false

def expect (c : Char) : Reading Unit := do
  if !(← accept c.toString) then fault (.missing c)

/-- Takes the longest run of characters that pass a test, of no more than a number. -/
def takeUpTo (bound : Nat) (test : Char → Bool) : Reading (List Char) := do
  let (cs, c) := (← get).run test bound
  set c
  return cs

/-- Takes the longest run of characters that pass a test. -/
def takeWhile (test : Char → Bool) : Reading (List Char) := do takeUpTo ((← extent) + 1) test

/-- Reads what stands for itself, blanks included. -/
def verbatim {α : Type} (r : Reading α) : Reading α := do
  let before := (← get).verbatim
  modify fun c => { c with verbatim := true }
  let a ← r
  modify fun c => { c with verbatim := before }
  return a

/-- Goes back to an earlier place. -/
def back (place : Cursor) : Reading Unit :=
  modify fun c => { c with rest := place.rest, offset := place.offset }

/-- Tries to read, and goes back where the text is of another form. -/
def attempt {α : Type} (r : Reading α) : Reading (Option α) := do
  let place ← get
  try return some (← r)
  catch
    | .otherForm =>
      back place
      return none
    | stop => throw stop

def digits : Reading (List Char) := takeWhile Char.isDigit

def decimalValue (ds : List Char) : Nat := ds.foldl (fun n c => 10 * n + (c.toNat - '0'.toNat)) 0

/-- The value of a number; neither none nor too many digits make one. -/
def number (ds : List Char) : Reading Nat :=
  if ds.isEmpty then throw (.value .emptyNumber)
  else if Json.digitLimit < ds.length then throw (.value (.digitCount (.tooManyDigits ds.length)))
  else return decimalValue ds

def hasOption (letter : Char) : Reading Bool := return (← get).options.here.contains letter

/-- The letter in the other case. -/
def otherCase (n : Nat) : Nat :=
  if 65 ≤ n ∧ n ≤ 90 then n + 32 else if 97 ≤ n ∧ n ≤ 122 then n - 32 else n

/-- A set of code points as a pattern; where case does not count, a letter stands for both. -/
def oneOf (set : CodeSet) : Reading Pattern := do
  if ← hasOption 'i' then return .one fun n => set n || set (otherCase n) else return .one set

def literal (c : Char) : Reading Pattern := oneOf fun n => n = c.toNat

/-- What a point stands for. -/
def anyCharacter : Reading Pattern := do
  let all ← hasOption 's'
  return .one fun n => all || n ≠ 10

/-! ## Names of groups -/

def isNameStart (c : Char) : Bool :=
  c = '_' || (GeneralCategory.ofCodePoint c.toNat).group = 'L' ||
    GeneralCategory.ofCodePoint c.toNat = .letterNumber

def isNamePart (c : Char) : Bool :=
  isNameStart c || GeneralCategory.ofCodePoint c.toNat ∈
    [.nonspacingMark, .spacingMark, .decimalNumber, .connectorPunctuation]

/-- The name of a group, or its number where numbers are allowed. -/
def groupName (numeric : Bool) : Reading (Nat ⊕ String) := do
  match ← takeWhile fun c => c ≠ ')' && c ≠ '>' with
  | [] => fault .missingGroupName
  | c :: cs =>
    if (c :: cs).all Char.isDigit then
      let n ← if numeric then number (c :: cs) else pure 0
      if 0 < n then return .inl n
    else if isNameStart c ∧ cs.all isNamePart then return .inr (String.ofList (c :: cs))
    fault .groupNameCharacter

/-- Reads what stands in a group, with its number and its name if it has one. -/
def inGroup (name : Option String) (inner : Reading Pattern) : Reading Pattern := do
  let (n, groups) := (← get).groups.next name
  modify fun c => { c with groups := groups.enter n }
  let p ← inner
  modify fun c => { c with groups := c.groups.leave }
  return .group n p

/-- Reads with the options that are set now, whatever is set inside. -/
def locally {α : Type} (r : Reading α) : Reading α := do
  let options := (← get).options
  let a ← r
  modify fun c => { c with options := options }
  return a

end Reading

end ParserGenerator.Pattern
