/-!
# Blank characters

The characters that are cut off at both ends of a text: blanks of all widths, line and paragraph
separators, tabulators and the other controls that move to a new place.
-/

namespace ParserGenerator

def isBlankCode (n : Nat) : Bool :=
  (0x09 ≤ n && n ≤ 0x0d) || (0x1c ≤ n && n ≤ 0x20) || n = 0x85 || n = 0xa0 || n = 0x1680 ||
    (0x2000 ≤ n && n ≤ 0x200a) || n = 0x2028 || n = 0x2029 || n = 0x202f || n = 0x205f || n = 0x3000

theorem isBlankCode_of_isWhitespace {c : Char} (h : c.isWhitespace = true) :
    isBlankCode c.toNat = true := by
  simp only [Char.isWhitespace, Bool.or_eq_true, decide_eq_true_eq] at h
  rcases h with ((rfl | rfl) | rfl) | rfl <;> rfl

/-- A text without the blank characters at its ends. -/
def trimBlanks (cs : List Char) : List Char :=
  let blank (c : Char) : Bool := isBlankCode c.toNat
  ((cs.dropWhile blank).reverse.dropWhile blank).reverse

end ParserGenerator
