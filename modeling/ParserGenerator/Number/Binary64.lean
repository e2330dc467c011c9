/-!
# Binary floating-point numbers of 64 bits

A finite number is a mantissa below 2^53 times a power of two, kept in the one form in which the
mantissa is as large as it may be. A decimal is rounded to the nearest such number, a half to the even
mantissa.
-/

namespace ParserGenerator

inductive Binary64 where
  | nan
  | infinity (negative : Bool)
  | finite (negative : Bool) (mantissa : Nat) (exponent : Int)
  deriving DecidableEq

namespace Binary64

def leastExponent : Int := -1074
def greatestExponent : Int := 971

def zero (negative : Bool) : Binary64 := .finite negative 0 leastExponent

def isZero : Binary64 → Bool
  | .finite _ 0 _ => true
  | _ => false

/-- The greatest `k` with `base ^ k ≤ n / d`, for positive `n` and `d`, where `sizeOf` is one such
`k` for natural numbers. -/
def floorLog (base : Nat) (sizeOf : Nat → Nat) (n d : Nat) : Int :=
  let k : Int := (sizeOf n : Int) - sizeOf d
  if d * Nat.pow base k.toNat ≤ n * Nat.pow base (-k).toNat then k else k - 1

/-- The quotient rounded to the nearest whole number, a half to the even one. -/
def roundDiv (n d : Nat) : Nat :=
  let q := n / d
  let r := n % d
  if 2 * r < d then q else if d < 2 * r then q + 1 else q + q % 2

/-- The number nearest to the quotient of two positive whole numbers. -/
def ofRatio (negative : Bool) (n d : Nat) : Binary64 :=
  let q := max leastExponent (floorLog 2 Nat.log2 n d - 52)
  let m := roundDiv (n * Nat.pow 2 (-q).toNat) (d * Nat.pow 2 q.toNat)
  let (m, q) := if m = Nat.pow 2 53 then (Nat.pow 2 52, q + 1) else (m, q)
  if m = 0 then zero negative
  else if greatestExponent < q then .infinity negative
  else .finite negative m q

def decimalSize (n : Nat) : Nat := (Nat.toDigits 10 n).length

/-- The number nearest to `digits` times ten to the `exponent`. Far outside the range of the format
the power is not worked out. -/
def ofDecimal (negative : Bool) (digits : Nat) (exponent : Int) : Binary64 :=
  if digits = 0 then zero negative
  else if 310 < exponent + decimalSize digits then .infinity negative
  else if exponent + decimalSize digits < -330 then zero negative
  else ofRatio negative (digits * Nat.pow 10 exponent.toNat) (Nat.pow 10 (-exponent).toNat)

end Binary64

end ParserGenerator
