import ParserGenerator.Error

/-!
# Quoted literals

What a literal of a written grammar denotes: the text between its quotes, with escapes by letter, by
octal digits and by two, four or eight hexadecimal digits. An escaped line break is left out, and a
backslash before any other character stands for itself. A line break that is not escaped is refused.
-/

namespace ParserGenerator.Description

/-- The character of a code point; one that is no character by itself is replaced. -/
def charOfCode (n : Nat) : Char :=
  if 0xd800 ≤ n ∧ n < 0xe000 then '\ufffd' else Char.ofNat n

/-- The character that a letter behind a backslash stands for. -/
def letterEscape? : Char → Option Char
  | 'a' => some '\x07'
  | 'b' => some '\x08'
  | 'f' => some '\x0c'
  | 'n' => some '\n'
  | 'r' => some '\r'
  | 't' => some '\t'
  | 'v' => some '\x0b'
  | '\\' => some '\\'
  | '\x27' => some '\x27'
  | '"' => some '"'
  | _ => none

def octalDigit? (c : Char) : Option Nat :=
  if '0' ≤ c ∧ c ≤ '7' then some (c.toNat - '0'.toNat) else none

/-- The number that up to three octal digits at the front denote, and how many there are. -/
def octal (cs : List Char) : Nat × Nat :=
  (cs.take 3 |>.map octalDigit? |>.takeWhile Option.isSome).foldl
    (fun (n, k) d => (8 * n + d.getD 0, k + 1)) (0, 0)

/-- How many hexadecimal digits follow a letter behind a backslash. -/
def hexLength? : Char → Option Nat
  | 'x' => some 2
  | 'u' => some 4
  | 'U' => some 8
  | _ => none

/-- What is between the quotes of a literal, decoded. -/
def decode (cs : List Char) : Except Error (List Char) :=
  match cs with
  | [] => .ok []
  | '\n' :: _ => .error (.source .malformedLiteral)
  | '\r' :: _ => .error (.source .malformedLiteral)
  | '\\' :: '\r' :: '\n' :: r => decode r
  | '\\' :: '\r' :: r => decode r
  | '\\' :: '\n' :: r => decode r
  | '\\' :: c :: r =>
    match letterEscape? c with
    | some d => do return d :: (← decode r)
    | none =>
      match octal (c :: r) with
      | (n, k + 1) => do return charOfCode n :: (← decode (r.drop k))
      | (_, 0) =>
        match hexLength? c with
        | some width =>
          match Hex.number? (r.take width) with
          | some n =>
            if r.length < width ∨ 0x10ffff < n then .error (.source .malformedLiteral)
            else do return charOfCode n :: (← decode (r.drop width))
          | none => .error (.source .malformedLiteral)
        | none =>
          if c = 'N' then .error (.source .malformedLiteral)
          else do return '\\' :: c :: (← decode r)
  | c :: r => do return c :: (← decode r)
termination_by cs.length
decreasing_by all_goals (simp only [List.length_cons, List.length_drop]; omega)

/-- The text that a literal with its quotes denotes. -/
def literalText (lexeme : List Char) : Except Error String :=
  if lexeme.contains '\x00' then .error (.value .nulInLiteral)
  else (decode (lexeme.drop 1).dropLast).map String.ofList

end ParserGenerator.Description
