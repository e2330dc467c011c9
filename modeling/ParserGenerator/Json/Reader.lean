import ParserGenerator.Json.Value
import ParserGenerator.Text.Hex
import ParserGenerator.Text.Position

/-!
# Reading of JSON text

The reader stops at the first place where the text cannot go on as JSON, and names that place. Every
value takes at least one character, so the length of the text bounds the nesting and the repetition.
-/

namespace ParserGenerator.Json

/-- Why a text is no JSON text. -/
inductive Fault where
  | expectingValue
  | expectingName
  | expectingColon
  | expectingComma
  | unterminatedString
  | controlCharacter
  | unknownEscape
  | badUnicodeEscape
  | extraData
  | byteOrderMark
  deriving DecidableEq

def Fault.message : Fault → String
  | .expectingValue => "Expecting value"
  | .expectingName => "Expecting property name enclosed in double quotes"
  | .expectingColon => "Expecting ':' delimiter"
  | .expectingComma => "Expecting ',' delimiter"
  | .unterminatedString => "Unterminated string starting at"
  | .controlCharacter => "Invalid control character at"
  | .unknownEscape => "Invalid \\escape"
  | .badUnicodeEscape => "Invalid \\uXXXX escape"
  | .extraData => "Extra data"
  | .byteOrderMark => "Unexpected UTF-8 BOM (decode using utf-8-sig)"

/-- The number of digits that a whole number may have. -/
def digitLimit : Nat := 4300

inductive Failure where
  | malformed (fault : Fault) (offset : Nat)
  | tooManyDigits (count : Nat)
  deriving DecidableEq

/-- The rest of a text and the offset at which it starts. -/
structure Cursor where
  offset : Nat
  rest : List Char

namespace Cursor

def skip (c : Cursor) (n : Nat) : Cursor := ⟨c.offset + n, c.rest.drop n⟩

def isBlank (c : Char) : Bool := c = ' ' || c = '\t' || c = '\n' || c = '\r'

def skipBlanks (c : Cursor) : Cursor := c.skip (c.rest.takeWhile isBlank).length

def fail {α : Type} (c : Cursor) (fault : Fault) : Except Failure α :=
  .error (.malformed fault c.offset)

end Cursor

/-- The character of a one-letter escape. -/
def simpleEscape? : Char → Option Char
  | '"' => some '"'
  | '\\' => some '\\'
  | '/' => some '/'
  | 'b' => some '\x08'
  | 'f' => some '\x0c'
  | 'n' => some '\n'
  | 'r' => some '\r'
  | 't' => some '\t'
  | _ => none

def isHighSurrogate (n : Nat) : Bool := 0xd800 ≤ n && n < 0xdc00
def isLowSurrogate (n : Nat) : Bool := 0xdc00 ≤ n && n < 0xe000

def joinSurrogates (high low : Nat) : Char :=
  Char.ofNat (0x10000 + (high - 0xd800) * 0x400 + (low - 0xdc00))

/-- A code unit by itself; half of a surrogate pair stands for no character. -/
def unitChar (n : Nat) : Char :=
  if isHighSurrogate n || isLowSurrogate n then '\ufffd' else Char.ofNat n

/-- Reads the characters of a string up to its closing quote. A four-digit escape has to be followed
by a further character, which a complete string always has. -/
def stringBody (opened : Nat) : Nat → List Char → List Char → Except Failure (String × Cursor)
  | _, [], _ => .error (.malformed .unterminatedString opened)
  | o, '"' :: r, acc => .ok (String.ofList acc.reverse, ⟨o + 1, r⟩)
  | _, ['\\'], _ => .error (.malformed .unterminatedString opened)
  | o, '\\' :: 'u' :: a :: b :: c :: d :: '\\' :: 'u' :: e :: f :: g :: h :: x :: r, acc =>
    match Hex.number? [a, b, c, d] with
    | none => .error (.malformed .badUnicodeEscape (o + 1))
    | some high =>
      if isHighSurrogate high then
        match Hex.number? [e, f, g, h] with
        | none => .error (.malformed .badUnicodeEscape (o + 7))
        | some low =>
          if isLowSurrogate low then
            stringBody opened (o + 12) (x :: r) (joinSurrogates high low :: acc)
          else
            stringBody opened (o + 6) ('\\' :: 'u' :: e :: f :: g :: h :: x :: r) (unitChar high :: acc)
      else stringBody opened (o + 6) ('\\' :: 'u' :: e :: f :: g :: h :: x :: r) (unitChar high :: acc)
  | o, '\\' :: 'u' :: a :: b :: c :: d :: x :: r, acc =>
    match Hex.number? [a, b, c, d] with
    | none => .error (.malformed .badUnicodeEscape (o + 1))
    | some n => stringBody opened (o + 6) (x :: r) (unitChar n :: acc)
  | o, '\\' :: 'u' :: _, _ => .error (.malformed .badUnicodeEscape (o + 1))
  | o, '\\' :: c :: r, acc =>
    match simpleEscape? c with
    | none => .error (.malformed .unknownEscape o)
    | some d => stringBody opened (o + 2) r (d :: acc)
  | o, c :: r, acc =>
    if c.toNat < 0x20 then .error (.malformed .controlCharacter o)
    else stringBody opened (o + 1) r (c :: acc)

/-- Reads a string whose opening quote is the next character. -/
def string (c : Cursor) : Except Failure (String × Cursor) :=
  stringBody c.offset (c.offset + 1) (c.rest.drop 1) []

def digits (cs : List Char) : List Char := cs.takeWhile Char.isDigit

def natural (ds : List Char) : Nat := ds.foldl (fun n c => 10 * n + (c.toNat - '0'.toNat)) 0

/-- The digits after a point, if a point and a digit come next. -/
def places (cs : List Char) : List Char :=
  match cs with
  | '.' :: r => digits r
  | _ => []

/-- The exponent, if one comes next, and the number of characters it takes. -/
def exponent? (cs : List Char) : Option (Int × Nat) :=
  match cs with
  | e :: r =>
    if e = 'e' ∨ e = 'E' then
      let (negative, signs, r) := match r with
        | '-' :: r => (true, 1, r)
        | '+' :: r => (false, 1, r)
        | r => (false, 0, r)
      let ds := digits r
      if ds.isEmpty then none
      else some (if negative then -(natural ds : Int) else natural ds, 1 + signs + ds.length)
    else none
  | [] => none

/-- Reads a number: a zero is followed by no further digit of the whole part. -/
def number (c : Cursor) : Except Failure (Value × Cursor) :=
  let negative := c.rest.head? = some '-'
  let unsigned := if negative then c.skip 1 else c
  let whole := match digits unsigned.rest with
    | '0' :: _ => ['0']
    | ds => ds
  if whole.isEmpty then c.fail .expectingValue
  else
    let afterWhole := unsigned.skip whole.length
    let fraction := places afterWhole.rest
    let afterFraction := if fraction.isEmpty then afterWhole else afterWhole.skip (1 + fraction.length)
    match fraction, exponent? afterFraction.rest with
    | [], none =>
      if digitLimit < whole.length then .error (.tooManyDigits whole.length)
      else
        let n : Int := natural whole
        .ok (.int (if negative then -n else n), afterWhole)
    | fraction, e =>
      let (exponent, taken) := e.getD (0, 0)
      .ok (.float (Binary64.ofDecimal negative (natural (whole ++ fraction))
        (exponent - fraction.length)), afterFraction.skip taken)

/-- The words that are values. -/
def words : List (String × Value) :=
  [("null", .null), ("true", .bool true), ("false", .bool false), ("NaN", .float .nan),
    ("Infinity", .float (.infinity false)), ("-Infinity", .float (.infinity true))]

def word? (c : Cursor) : Option (Value × Cursor) :=
  words.findSome? fun w =>
    if w.1.toList.isPrefixOf c.rest then some (w.2, c.skip w.1.length) else none

mutual

def value : Nat → Cursor → Except Failure (Value × Cursor)
  | 0, c => c.fail .expectingValue
  | bound + 1, c =>
    match c.rest with
    | [] => c.fail .expectingValue
    | '"' :: _ => do
      let (s, c) ← string c
      .ok (.string s, c)
    | '[' :: _ =>
      let inside := (c.skip 1).skipBlanks
      if inside.rest.head? = some ']' then .ok (.array [], inside.skip 1)
      else items bound inside []
    | '\x7b' :: _ =>
      let inside := (c.skip 1).skipBlanks
      if inside.rest.head? = some '\x7d' then .ok (.object [], inside.skip 1)
      else fields bound inside []
    | _ =>
      match word? c with
      | some found => .ok found
      | none => number c

/-- Reads the items of an array up to its bracket; those before come last first. -/
def items : Nat → Cursor → List Value → Except Failure (Value × Cursor)
  | 0, c, _ => c.fail .expectingValue
  | bound + 1, c, before => do
    let (v, c) ← value bound c
    let c := c.skipBlanks
    match c.rest with
    | ']' :: _ => .ok (.array (v :: before).reverse, c.skip 1)
    | ',' :: _ => items bound (c.skip 1).skipBlanks (v :: before)
    | _ => c.fail .expectingComma

/-- Reads the fields of an object up to its brace. -/
def fields : Nat → Cursor → List (String × Value) → Except Failure (Value × Cursor)
  | 0, c, _ => c.fail .expectingName
  | bound + 1, c, before =>
    if c.rest.head? ≠ some '"' then c.fail .expectingName
    else do
      let (name, c) ← string c
      let c := c.skipBlanks
      if c.rest.head? ≠ some ':' then c.fail .expectingColon
      else
        let (v, c) ← value bound (c.skip 1).skipBlanks
        let before := Value.setField name v before
        let c := c.skipBlanks
        match c.rest with
        | '\x7d' :: _ => .ok (.object before, c.skip 1)
        | ',' :: _ => fields bound (c.skip 1).skipBlanks before
        | _ => c.fail .expectingComma

end

/-- Reads a text that is one JSON value with blanks around it. -/
def parse (text : String) : Except Failure Value :=
  let cs := text.toList
  if cs.head? = some '\ufeff' then .error (.malformed .byteOrderMark 0)
  else do
    let (v, c) ← value (cs.length + 1) (Cursor.skipBlanks ⟨0, cs⟩)
    let c := c.skipBlanks
    if c.rest.isEmpty then .ok v else c.fail .extraData

/-- The fault with its place in the text. -/
def Failure.message (text : String) : Failure → String
  | .malformed fault offset =>
    let p := Position.start.afterAll (text.toList.take offset)
    s!"{fault.message}: line {p.line} column {p.column} (char {offset})"
  | .tooManyDigits count =>
    s!"Exceeds the limit ({digitLimit} digits) for integer string conversion: value has {count}" ++
      " digits; use sys.set_int_max_str_digits() to increase the limit"

end ParserGenerator.Json
