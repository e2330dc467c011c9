import ParserGenerator.Description.Basic
import ParserGenerator.Error

/-!
# Tokens of written grammars

Blanks, line feeds and comments separate tokens and are left out. A block of action code is one token: it
ends at the brace that matches its opening one, where braces inside quotes and behind backslashes do not
count. Two slashes always begin a comment; a single one begins a pattern if a closing slash can be found.
-/

namespace ParserGenerator.Description

inductive TokenKind where
  | percent | colon | semicolon | bar | openGroup | closeGroup | question | star | plus
  | pattern | literal | ident | action | finish
  deriving DecidableEq

namespace TokenKind

def name : TokenKind → String
  | percent => "PERCENT"
  | colon => "COLON"
  | semicolon => "SEMI"
  | bar => "OR"
  | openGroup => "LPAREN"
  | closeGroup => "RPAREN"
  | question => "QMARK"
  | star => "STAR"
  | plus => "PLUS"
  | pattern => "REGEX"
  | literal => "STRING"
  | ident => "IDENT"
  | action => "ACTION"
  | finish => "EOF"

end TokenKind

structure Token where
  kind : TokenKind
  lexeme : List Char
  start : Nat
  stop : Nat
  position : Position

namespace Token

def span (t : Token) : Span := ⟨t.start, t.stop, t.position.line, t.position.column⟩

end Token

/-- How far the inside of an action block has been read: the braces that are open, the quote that is
open, and whether the last character was a backslash that escapes the next one. -/
structure BlockState where
  depth : Nat := 1
  quote : Option Char := none
  escape : Bool := false

/-- Takes in one character of an action block; nothing is left when it closes the block. -/
def BlockState.next? (s : BlockState) (c : Char) : Option BlockState :=
  if c = '\n' then some { s with escape := false }
  else if s.escape then some { s with escape := false }
  else if c = '\\' then some { s with escape := true }
  else
    match s.quote with
    | some q => some (if c = q then { s with quote := none } else s)
    | none =>
      if c = '\x27' ∨ c = '"' then some { s with quote := some c }
      else if c = '\x7b' then some { s with depth := s.depth + 1 }
      else if c = '\x7d' then
        if s.depth ≤ 1 then none else some { s with depth := s.depth - 1 }
      else some s

/-- The body of an action block up to its closing brace. -/
def blockBody? (s : BlockState) : List Char → Option (List Char)
  | [] => none
  | c :: cs =>
    match s.next? c with
    | none => some []
    | some s => (blockBody? s cs).map (c :: ·)

def isBlank (c : Char) : Bool := c = ' ' || c = '\t' || c = '\x0c'

def isIdentStart (c : Char) : Bool := c.isAlpha || c = '_'
def isIdentPart (c : Char) : Bool := c.isAlphanum || c = '_'

/-- The number of characters up to the end of a comment. -/
def commentLength? : List Char → Option Nat
  | '*' :: '/' :: _ => some 2
  | _ :: cs => (commentLength? cs).map (· + 1)
  | [] => none

/-- The number of characters up to the closing slash of a pattern, from the front of a text and from
its second character. A backslash takes the next character along where a closing slash can be found
behind it; else it stands for itself. -/
def patternLengths : List Char → Option Nat × Option Nat
  | [] => (none, none)
  | c :: cs =>
    let (one, two) := patternLengths cs
    let length :=
      if c = '\\' then (two.map (· + 2)) <|> (one.map (· + 1))
      else if c = '/' then some 1
      else if c = '\n' then none
      else one.map (· + 1)
    (length, one)

/-- The length of the pattern behind an opening slash, the closing one included. A pattern is not
empty. -/
def patternLength? (cs : List Char) : Option Nat :=
  if cs.head? = some '/' then none else (patternLengths cs).1

/-- The number of characters up to the closing quote of a literal. -/
def literalLength? : List Char → Option Nat
  | '"' :: _ => some 1
  | '\\' :: _ :: cs => (literalLength? cs).map (· + 2)
  | ['\\'] => none
  | _ :: cs => (literalLength? cs).map (· + 1)
  | [] => none

/-- What begins a text: something to skip, or a token other than an action block, and its length. -/
def lexeme? (c : Char) (cs : List Char) : Option (Option TokenKind × Nat) :=
  let skipped (n : Nat) : Option (Option TokenKind × Nat) := some (none, n)
  let token (k : TokenKind) (n : Nat) : Option (Option TokenKind × Nat) := some (some k, n)
  if isBlank c then skipped (1 + (cs.takeWhile isBlank).length)
  else if c = '\n' then skipped 1
  else if c = '/' then
    match cs with
    | '/' :: r => skipped (2 + (r.takeWhile (· ≠ '\n')).length)
    | '*' :: r =>
      match commentLength? r with
      | some n => skipped (2 + n)
      | none => (patternLength? cs).bind fun n => token .pattern (1 + n)
    | _ => (patternLength? cs).bind fun n => token .pattern (1 + n)
  else if c = '%' then token .percent 1
  else if c = ':' then token .colon 1
  else if c = ';' then token .semicolon 1
  else if c = '|' then token .bar 1
  else if c = '(' then token .openGroup 1
  else if c = ')' then token .closeGroup 1
  else if c = '?' then token .question 1
  else if c = '*' then token .star 1
  else if c = '+' then token .plus 1
  else if c = '"' then (literalLength? cs).bind fun n => token .literal (1 + n)
  else if isIdentStart c then token .ident (1 + (cs.takeWhile isIdentPart).length)
  else none

/-- Cuts the rest of a text into tokens; the last one marks its end. Lines and columns go on character by
character in a block, and behind any other piece as a whole. -/
def scanFrom (text : List Char) (offset : Nat) (position : Position) (rest : List Char) :
    Except Error (List Token) :=
  match rest with
  | [] => .ok [⟨.finish, [], offset, offset, position⟩]
  | c :: cs =>
    if c = '\x7b' then
      match blockBody? {} cs with
      | none => .error (.source (.unterminatedAction (Place.within text position offset)))
      | some body => do
        let n := body.length + 1
        let stop := offset + 1 + n
        let tail ← scanFrom text stop (position.afterAll (c :: cs.take n)) (cs.drop n)
        return ⟨.action, body, offset, stop, position⟩ :: tail
    else
      match lexeme? c cs with
      | none => .error (.source (.unexpectedCharacter c (Place.within text position offset)))
      | some (kind, length) => do
        let lexeme := c :: cs.take (length - 1)
        let stop := offset + length
        let tail ← scanFrom text stop (position.past lexeme) (cs.drop (length - 1))
        return match kind with
          | none => tail
          | some kind => ⟨kind, lexeme, offset, stop, position⟩ :: tail
termination_by rest.length
decreasing_by
  · simp only [List.length_drop, List.length_cons]
    omega
  · simp only [List.length_drop, List.length_cons]
    omega

/-- Cuts a written grammar into tokens. -/
def scan (source : String) : Except Error (List Token) :=
  let cs := source.toList
  scanFrom cs 0 .start cs

end ParserGenerator.Description
