import ParserGenerator.Number.Binary64

/-!
# The shortest decimal that reads back

Of the decimals that round to a given number, the one with the fewest digits is written, and of
several with that many digits the nearest. On each decimal grid only the two neighbours of the number
can be meant.
-/

namespace ParserGenerator.Binary64

/-- A decimal: its digits as a whole number, and the power of ten of the last one. -/
structure Decimal where
  digits : Nat
  exponent : Int

/-- The nearest neighbour on the grid of the given power of ten that rounds to the number
`mantissa * 2 ^ exponent`. Distances are counted in quarters of the last binary place. -/
def onGrid? (mantissa : Nat) (exponent power : Int) : Option Nat :=
  let a := Nat.pow 10 power.toNat * Nat.pow 2 (2 - exponent).toNat
  let b := Nat.pow 2 (exponent - 2).toNat * Nat.pow 10 (-power).toNat
  let value := 4 * mantissa * b
  let below := if mantissa = Nat.pow 2 52 ∧ leastExponent < exponent then 1 else 2
  let closed := mantissa % 2 = 0
  let hits (c : Nat) : Bool :=
    let low := (4 * mantissa - below) * b
    let high := (4 * mantissa + 2) * b
    if closed then low ≤ c * a ∧ c * a ≤ high else low < c * a ∧ c * a < high
  let c := value / a
  match hits c, hits (c + 1) with
  | true, true =>
    let before := value - c * a
    let behind := (c + 1) * a - value
    if before < behind ∨ (before = behind ∧ c % 2 = 0) then some c else some (c + 1)
  | true, false => some c
  | false, true => some (c + 1)
  | false, false => none

/-- The power of ten of the first digit of a positive number. -/
def leadingPower (mantissa : Nat) (exponent : Int) : Int :=
  floorLog 10 (fun n => decimalSize n - 1) (mantissa * Nat.pow 2 exponent.toNat)
    (Nat.pow 2 (-exponent).toNat)

/-- The shortest decimal of a positive number: seventeen digits always suffice. -/
def shortest (mantissa : Nat) (exponent : Int) : Decimal :=
  let top := leadingPower mantissa exponent
  let grids := (List.range 17).map fun k : Nat => top - (k : Int)
  match grids.findSome? fun p => (onGrid? mantissa exponent p).map (Decimal.mk · p) with
  | some d => d
  | none => ⟨mantissa, exponent⟩

/-- Digits without the zeros at their end, and the power of ten of the first digit. -/
def Decimal.significant (d : Decimal) : List Char × Int :=
  let ds := Nat.toDigits 10 d.digits
  let kept := (ds.reverse.dropWhile (· = '0')).reverse
  (kept, d.exponent + (ds.length : Int) - 1)

def signed (negative : Bool) (cs : List Char) : List Char := if negative then '-' :: cs else cs

/-- The exponent has a sign and at least two digits. -/
def exponentText (e : Int) : List Char :=
  let ds := Nat.toDigits 10 e.natAbs
  (if e < 0 then '-' else '+') :: (if ds.length < 2 then '0' :: ds else ds)

/-- Positional notation from 10^-4 up to below 10^16, with at least one place; otherwise one digit
before the point and an exponent. -/
def decimalText (d : Decimal) : List Char :=
  let (ds, e) := d.significant
  if -4 ≤ e ∧ e < 0 then '0' :: '.' :: List.replicate (-e - 1).toNat '0' ++ ds
  else if 0 ≤ e ∧ e < 16 then
    let whole := e.toNat + 1
    let places := ds.drop whole
    ds.take whole ++ List.replicate (whole - ds.length) '0' ++
      '.' :: (if places.isEmpty then ['0'] else places)
  else
    let places := ds.drop 1
    ds.take 1 ++ (if places.isEmpty then [] else '.' :: places) ++ 'e' :: exponentText e

/-- The text of a number; `special` gives the words for infinity and for no number. -/
def text (special : String × String) : Binary64 → String
  | .nan => special.2
  | .infinity negative => String.ofList (signed negative special.1.toList)
  | .finite negative 0 _ => String.ofList (signed negative ['0', '.', '0'])
  | .finite negative m e => String.ofList (signed negative (decimalText (shortest m e)))

end ParserGenerator.Binary64
