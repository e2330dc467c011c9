import ParserGenerator.Regex.Pattern.Escape

/-!
# Limits on mistakes

A list in braces limits the mistakes in what stands before it: the number of each kind, the number of all,
and the sum of their costs. Where it names a kind, the others are not allowed. Behind a colon may stand
the set of the characters that can be put in.
-/

namespace ParserGenerator.Pattern

/-- The limits read so far, by the letters of the kinds and of the total. -/
structure Limits where
  numbers : List (Char × Bounds) := []
  costs : Option (List (Char × Nat) × Nat) := none

namespace Limits

/-- The letter for mistakes of any kind. -/
def totalLetter : Char := 'e'

def isMistake (c : Char) : Bool := Mistake.all.any (·.letter = c)

/-- What the limits allow. Kinds that have a cost are not limited in number, unless that is said. -/
def tolerance (l : Limits) (allowed : CodeSet) : Tolerance :=
  let costs := (l.costs.map Prod.fst).getD []
  let mentioned (c : Char) : Option Bounds :=
    l.numbers.lookup c <|> (costs.lookup c).map fun _ => ⟨0, none⟩
  let others : Bounds := ⟨0, if Mistake.all.any (fun m => (mentioned m.letter).isSome) then some 0 else none⟩
  let total := (l.numbers.lookup totalLetter).getD ⟨0, none⟩
  { number := fun m => (mentioned m.letter).getD others
    total := total
    costs := match l.costs with
      | some (costs, high) => ⟨fun m => (costs.lookup m.letter).getD 0, some high⟩
      | none => ⟨fun _ => 1, total.high⟩
    allowed := allowed }

end Limits

namespace Reading

/-- Reads the sign of a greatest number, and tells whether the number itself is allowed. -/
def comparison? : Reading (Option Bool) := do
  if ← accept "<=" then return some true
  if ← accept "<" then return some false
  return none

def comparison : Reading Bool := do
  match ← comparison? with
  | some inclusive => return inclusive
  | none => throw .otherForm

/-- Reads the number in a limit. -/
def limitNumber : Reading Nat := do
  let start ← offset
  let ds ← digits
  if ds.isEmpty ∨ Json.digitLimit < ds.length then faultAt start .badLimit
  return decimalValue ds

/-- Reads the letter of a kind that has no limit yet. -/
def limitLetter (l : Limits) : Reading Char := do
  match ← next with
  | some c =>
    if (c = Limits.totalLetter ∨ Limits.isMistake c) ∧ (l.numbers.lookup c).isNone then return c
    throw .otherForm
  | none => throw .otherForm

/-- Reads the limit on the number of a kind: a letter, perhaps with a greatest number behind it, or
between the least and the greatest. -/
def numberLimit (l : Limits) : Reading Limits := do
  let add (c : Char) (b : Bounds) : Limits := { l with numbers := (c, b) :: l.numbers }
  match ← peek with
  | some c =>
    if c.isAlpha then
      let letter ← limitLetter l
      match ← comparison? with
      | none => return add letter ⟨0, none⟩
      | some inclusive =>
        let start ← offset
        let high ← limitNumber
        if high = 0 ∧ !inclusive then faultAt start .badLimit
        return add letter ⟨0, some (if inclusive then high else high - 1)⟩
    else if c.isDigit then
      let low ← limitNumber
      let low := if ← comparison then low else low + 1
      let letter ← limitLetter l
      let inclusive ← comparison
      let start ← offset
      let high ← limitNumber
      if (high = 0 ∧ !inclusive) ∨ (if inclusive then high else high - 1) < low then
        faultAt start .badLimit
      return add letter ⟨low, some (if inclusive then high else high - 1)⟩
    else throw .otherForm
  | none => throw .otherForm

/-- Reads what a mistake of some kind costs. -/
def costTerm (costs : List (Char × Nat)) : Reading (List (Char × Nat)) := do
  let ds ← digits
  match ← next with
  | some c =>
    if !Limits.isMistake c then throw .otherForm
    if (costs.lookup c).isSome then fault .repeatedCost
    let n ← if ds.isEmpty then pure 1 else number ds
    return (c, n) :: costs
  | none => throw .otherForm

def moreCostTerms : Nat → List (Char × Nat) → Reading (List (Char × Nat))
  | 0, costs => return costs
  | bound + 1, costs => do
    if ← accept "+" then moreCostTerms bound (← costTerm costs) else return costs

/-- Reads the limit on the sum of the costs. -/
def costLimit (l : Limits) : Reading Limits := do
  if l.costs.isSome then fault .secondCostLimit
  let first ← costTerm []
  let costs ← moreCostTerms (← extent) first
  let inclusive ← comparison
  let high ← number (← digits)
  if high = 0 ∧ !inclusive then fault .badLimit
  return { l with costs := some (costs, if inclusive then high else high - 1) }

def limit (l : Limits) : Reading Limits := do
  match ← attempt (numberLimit l) with
  | some l => return l
  | none => costLimit l

def moreLimits : Nat → Limits → Reading Limits
  | 0, l => return l
  | bound + 1, l => do
    if ← accept "," then moreLimits bound (← limit l) else return l

/-- Reads the set of the characters that can be put in. -/
def allowedSet : Reading CodeSet := do
  let start ← offset
  let p ← match ← next with
    | some '\\' => do (← escape false).toPattern
    | some '.' => anyCharacter
    | some '[' => codeSet
    | some c =>
      if c ∈ "()|?*+^$#\x7b".toList then faultAt start .expectedSet else literal c
    | none => faultAt start .expectedSet
  match p with
  | .one s => return s
  | _ => return fun _ => true

/-- Reads limits behind their opening brace, if the text has their form. -/
def tolerance? : Reading (Option Tolerance) := do
  match ← attempt do moreLimits (← extent) (← limit {}) with
  | none => return none
  | some l =>
    let allowed ← if ← accept ":" then allowedSet else pure fun _ => true
    if !(← accept "\x7d") then fault .expectedBrace
    return some (l.tolerance allowed)

end Reading

end ParserGenerator.Pattern
