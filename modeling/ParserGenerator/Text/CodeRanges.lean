import ParserGenerator.Error

/-!
# Sets of code points as ranges

A set of characters is kept as ranges of code points, bounds included. In its normal form the ranges
are not empty, ascend, and neither overlap nor touch. Bounds that are no code points are refused where
the characters of a range are listed, or its bounds are shown.
-/

namespace ParserGenerator

abbrev CodeRange := Int × Int

abbrev CodeRanges := List CodeRange

namespace CodeRanges

def contains (rs : CodeRanges) (n : Nat) : Bool := rs.any fun r => r.1 ≤ n && n ≤ r.2

/-- Puts a range before ranges that begin no earlier, joining those that it overlaps or touches. -/
def join (r : CodeRange) : CodeRanges → CodeRanges
  | [] => [r]
  | s :: rs => if s.1 ≤ r.2 + 1 then join (r.1, max r.2 s.2) rs else r :: s :: rs

/-- The same set in normal form. -/
def normalize (rs : CodeRanges) : CodeRanges :=
  ((rs.filter fun r => r.1 ≤ r.2).mergeSort (fun a b => a.1 ≤ b.1)).foldr join []

end CodeRanges

/-- A number as a code point: one beyond 31 bits overflows, any other one too large is refused. -/
def codePoint (n : Int) : Except Error Nat :=
  if n < -0x80000000 ∨ 0x80000000 ≤ n then .error .overflow
  else if 0 ≤ n ∧ n < 0x110000 then .ok n.toNat
  else .error (.value .codePoint)

namespace CodeRange

/-- Lists the characters from the first one on, up to one that cannot be. -/
def checkListed (r : CodeRange) : Except Error Unit := do
  if r.1 ≤ r.2 then
    let _ ← codePoint r.1
    let _ ← codePoint (min r.2 0x110000)

/-- Refuses bounds that cannot be shown. -/
def checkShown (r : CodeRange) : Except Error Unit := do
  let _ ← codePoint r.1
  let _ ← codePoint r.2

end CodeRange

end ParserGenerator
