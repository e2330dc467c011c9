import ParserGenerator.Regex.Basic

/-!
# Tokens of regular expressions

The text of a regular expression is cut into operators, atoms and references to named definitions,
each with the offset behind it. Cutting stops at the first place that no token fits.
-/

namespace ParserGenerator.Regex

inductive Repetition where
  | opt | star | plus
  deriving DecidableEq

namespace Repetition

def ofChar? : Char → Option Repetition
  | '?' => some opt
  | '*' => some star
  | '+' => some plus
  | _ => none

def char : Repetition → Char
  | opt => '?'
  | star => '*'
  | plus => '+'

def apply : Repetition → Regex → Regex
  | opt => .opt
  | star => .star
  | plus => .plus

end Repetition

inductive Token where
  | openGroup
  | closeGroup
  | bar
  | repeated (op : Repetition)
  | atom (r : Regex)
  | reference (name : String)

/-- A fault of the text at an offset, or a number that is no character. -/
inductive Stop where
  | fault (offset : Nat) (f : RegexFault)
  | failure (e : Error)

/-- The character that a letter behind a backslash stands for. -/
def escaped : Char → Char
  | 'r' => '\r'
  | 't' => '\t'
  | 'v' => '\x0b'
  | 'n' => '\n'
  | '0' => '\x00'
  | c => c

/-- The expression for a backslash and a letter: some letters name a class. -/
def escapeAtom : Char → Regex
  | 'd' => .oneOf (.ranges [(48, 57)] false)
  | 's' => .oneOf (.ranges [(32, 32), (9, 9), (10, 10), (13, 13), (12, 12), (11, 11)] false)
  | 'w' => .oneOf (.ranges [(97, 122), (65, 90), (48, 57), (95, 95)] false)
  | c => .literal (escaped c).toString

/-- The text between quotes, and what is behind the closing one. A backslash takes the next character
along, and a line feed behind a backslash is left out. -/
def quotedText (quote : Char) : List Char → Option (List Char × List Char)
  | [] => none
  | ['\\'] => none
  | '\\' :: c :: r =>
    (quotedText quote r).map fun (cs, rest) =>
      (if c = '\n' then cs else escaped c :: cs, rest)
  | c :: r => if c = quote then some ([], r) else (quotedText quote r).map fun (cs, rest) => (c :: cs, rest)

def isOctal (c : Char) : Bool := '0' ≤ c && c ≤ '7'

def octalValue (ds : List Char) : Nat := ds.foldl (fun n c => 8 * n + (c.toNat - '0'.toNat)) 0

/-- A code point in brackets, and whether a backslash escapes it. -/
structure Member where
  code : Nat
  isEscaped : Bool
  deriving DecidableEq

/-- The members up to the closing bracket, and what is behind it, if there is one. -/
def members (cs : List Char) : List Member × Option (List Char) :=
  match cs with
  | [] => ([], none)
  | ']' :: r => ([], some r)
  | '\\' :: c :: r =>
    if isOctal c then
      let rest := members (r.dropWhile isOctal)
      (⟨octalValue (c :: r.takeWhile isOctal), true⟩ :: rest.1, rest.2)
    else
      let rest := members r
      (⟨(escaped c).toNat, true⟩ :: rest.1, rest.2)
  | c :: r =>
    let rest := members r
    (⟨c.toNat, false⟩ :: rest.1, rest.2)
termination_by cs.length
decreasing_by
  · have := (List.dropWhile_sublist isOctal (l := r)).length_le
    simp only [List.length_cons]
    omega
  · simp only [List.length_cons]
    omega
  · simp only [List.length_cons]
    omega

/-- The spans that the members of a bracket denote: a hyphen between two members joins them, unless
it is escaped. -/
def spans : List Member → Except RegexFault CodeRanges
  | a :: ⟨0x2d, false⟩ :: b :: ms =>
    if a.code ≤ b.code then (spans ms).map (((a.code : Int), (b.code : Int)) :: ·)
    else .error (.badRange (Char.ofNat a.code) (Char.ofNat b.code))
  | a :: ms => (spans ms).map (((a.code : Int), (a.code : Int)) :: ·)
  | [] => .ok []

/-- The class in brackets, read from behind the opening one, and what is behind it. A member that is
no character is refused even where the closing bracket is missing. -/
def bracketed (offset : Nat) (cs : List Char) : Except Stop (Token × List Char) :=
  let inverted := cs.head? == some '^'
  let found := members (if inverted then cs.drop 1 else cs)
  match found.1.forM fun m => (codePoint m.code).map fun _ => (), found.2 with
  | .error e, _ => .error (.failure e)
  | .ok _, none => .error (.fault offset .missingBracket)
  | .ok _, some rest =>
    match spans found.1 with
    | .ok ss => .ok (.atom (.oneOf (.ranges ss inverted)), rest)
    | .error f => .error (.fault (offset + 1 + cs.length - rest.length) f)

/-- The name in braces, read from behind the opening one, and what is behind it. -/
def braced (offset : Nat) (cs : List Char) : Except Stop (Token × List Char) :=
  let name := cs.takeWhile (· ≠ '\x7d')
  match cs.drop name.length with
  | [] => .error (.fault offset .missingBrace)
  | _ :: rest =>
    if name.isEmpty then .error (.fault offset .emptyReference)
    else .ok (.reference (String.ofList name), rest)

/-- The token at an offset, and what is behind it. -/
def token (offset : Nat) (c : Char) (r : List Char) : Except Stop (Token × List Char) :=
  if c = '(' then .ok (.openGroup, r)
  else if c = ')' then .ok (.closeGroup, r)
  else if c = '|' then .ok (.bar, r)
  else if c = '[' then bracketed offset r
  else if c = '\x27' ∨ c = '"' then
    match quotedText c r with
    | some (cs, rest) => .ok (.atom (.literal (String.ofList cs)), rest)
    | none => .error (.fault offset .unterminatedQuote)
  else if c = '\\' then
    match r with
    | [] => .error (.fault offset .danglingBackslash)
    | d :: rest => .ok (.atom (escapeAtom d), rest)
  else if c = '\x7b' then braced offset r
  else if c = '.' then .ok (.atom (.oneOf (.ranges [(10, 10)] true)), r)
  else if c = ']' ∨ c = '\x7d' then .error (.fault offset (.unbalanced c))
  else
    match Repetition.ofChar? c with
    | some op => .ok (.repeated op, r)
    | none => .ok (.atom (.literal c.toString), r)

theorem length_of_quotedText {quote : Char} {cs text rest : List Char}
    (h : quotedText quote cs = some (text, rest)) : rest.length < cs.length := by
  fun_induction quotedText quote cs generalizing text with
  | case1 => simp at h
  | case2 => simp at h
  | case3 c r ih =>
    obtain ⟨x, hx, e⟩ := Option.map_eq_some_iff.1 h
    have hq : quotedText quote r = some (x.1, rest) := by rw [hx, ← (Prod.mk.inj e).2]
    have := ih hq
    simp only [List.length_cons]
    omega
  | case4 =>
    cases h
    simp
  | case5 c r _ _ _ ih =>
    obtain ⟨x, hx, e⟩ := Option.map_eq_some_iff.1 h
    have hq : quotedText quote r = some (x.1, rest) := by rw [hx, ← (Prod.mk.inj e).2]
    have := ih hq
    simp only [List.length_cons]
    omega

theorem length_of_members {cs rest : List Char} (h : (members cs).2 = some rest) :
    rest.length < cs.length := by
  fun_induction members cs with
  | case1 => simp at h
  | case2 => simp_all
  | case3 c r _ _ ih =>
    have := ih h
    have := (List.dropWhile_sublist isOctal (l := r)).length_le
    simp only [List.length_cons]
    omega
  | case4 c r _ _ ih =>
    have := ih h
    simp only [List.length_cons]
    omega
  | case5 c r _ _ _ ih =>
    have := ih h
    simp only [List.length_cons]
    omega

theorem length_of_bracketed {offset : Nat} {cs rest : List Char} {t : Token}
    (h : bracketed offset cs = .ok (t, rest)) : rest.length ≤ cs.length := by
  simp only [bracketed] at h
  split at h
  · simp at h
  · simp at h
  · rename_i found
    split at h
    · cases h
      have := length_of_members found
      split at this
      · simp only [List.length_drop] at this
        omega
      · omega
    · simp at h

theorem length_of_braced {offset : Nat} {cs rest : List Char} {t : Token}
    (h : braced offset cs = .ok (t, rest)) : rest.length ≤ cs.length := by
  simp only [braced] at h
  split at h
  · simp at h
  · rename_i dropped
    split at h
    · simp at h
    · cases h
      have := congrArg List.length dropped
      simp only [List.length_drop, List.length_cons] at this
      omega

theorem length_of_token {offset : Nat} {c : Char} {r rest : List Char} {t : Token}
    (h : token offset c r = .ok (t, rest)) : rest.length ≤ r.length := by
  unfold token at h
  repeat' split at h
  all_goals first
    | (cases h; first | exact Nat.le_refl _ | exact Nat.le_succ _ |
        exact Nat.le_of_lt (length_of_quotedText (by assumption)))
    | exact length_of_bracketed h
    | exact length_of_braced h
    | simp at h

end ParserGenerator.Regex
