import ParserGenerator.Regex.Property

/-!
# Patterns of characters

A pattern is a term over sets of code points with groups, references, conditions and tolerance of errors.
It is a notation for the characters that it matches alone. Groups are numbered, and some have names as
well; a reference that means no group is a fault.
-/

namespace ParserGenerator

/-- A least number, and a greatest one where there is a bound. -/
structure Bounds where
  low : Nat
  high : Option Nat

def Bounds.admits (b : Bounds) (n : Nat) : Bool := b.low ≤ n && b.high.all (n ≤ ·)

/-- What may go wrong in a match: characters left out, put in, or replaced by others. -/
inductive Mistake where
  | deletion | insertion | substitution
  deriving DecidableEq

namespace Mistake

def all : List Mistake := [deletion, insertion, substitution]

/-- The letter that stands for the kind of mistake. -/
def letter : Mistake → Char
  | deletion => 'd'
  | insertion => 'i'
  | substitution => 's'

end Mistake

/-- A greatest sum of the costs of all mistakes, and what each kind costs. -/
structure CostLimit where
  cost : Mistake → Nat
  high : Option Nat

/-- Which mistakes a match may contain. -/
structure Tolerance where
  number : Mistake → Bounds
  total : Bounds
  costs : CostLimit
  /-- The code points that may be put in. -/
  allowed : CodeSet := fun _ => true

/-- What a position in a text has to be. -/
inductive Assertion where
  | textStart | textEnd | lineStart | lineEnd | lastLineEnd
  | wordEdge | noWordEdge | wordStart | wordEnd

inductive Repetition where
  | greedy | lazy | possessive
  deriving DecidableEq

/-- A group as a reference names it, and where in the notation the reference stands. -/
structure Reference where
  target : Nat ⊕ String
  offset : Nat

inductive Pattern where
  | empty
  | fail
  | one (set : CodeSet)
  | position (a : Assertion)
  | sequence (p q : Pattern)
  | choice (p q : Pattern)
  | repeated (b : Bounds) (r : Repetition) (p : Pattern)
  | group (number : Nat) (p : Pattern)
  /-- The text that a group matched. -/
  | same (r : Reference)
  /-- What a group matches; the number zero means the whole pattern. -/
  | call (r : Reference)
  /-- The first way in which a pattern matches, and no other. -/
  | atomic (p : Pattern)
  | look (behind positive : Bool) (p : Pattern)
  | ifGroup (r : Reference) (yes no : Pattern)
  | ifLook (behind positive : Bool) (p yes no : Pattern)
  | tolerant (t : Tolerance) (p : Pattern)

/-- The groups of a pattern: their number, their names, those that are still open, and each opening. -/
structure Groups where
  count : Nat := 0
  names : List (String × Nat) := []
  unclosed : List Nat := []
  openings : List Nat := []

namespace Groups

def number? (g : Groups) : Nat ⊕ String → Option Nat
  | .inl n => some n
  | .inr name => g.names.lookup name

/-- The number of a new group, or the number that its name has already. -/
def next (g : Groups) (name : Option String) : Nat × Groups :=
  match name.bind fun s => g.names.lookup s with
  | some n => (n, g)
  | none =>
    let taken := if name.isSome then g.names.map Prod.snd else []
    let free := (List.range (taken.length + 1)).find? fun i => (g.count + 1 + i) ∉ taken
    let n := g.count + 1 + free.getD 0
    (n, { g with count := n, names := name.toList.map (·, n) ++ g.names })

def enter (g : Groups) (n : Nat) : Groups :=
  { g with unclosed := n :: g.unclosed, openings := n :: g.openings }

def leave (g : Groups) : Groups := { g with unclosed := g.unclosed.drop 1 }

def isUnclosed (g : Groups) (target : Nat ⊕ String) : Bool :=
  (g.number? target).any g.unclosed.contains

end Groups

namespace Pattern

/-- The name that means no group in a condition, where no group has it. -/
def definitionName : String := "DEFINE"

def checkReference (g : Groups) (r : Reference) (low : Nat) (unnamed unnumbered : PropertyFault) :
    Except (Nat × PropertyFault) Unit :=
  match g.number? r.target with
  | none => .error (r.offset, unnamed)
  | some n => if low ≤ n ∧ n ≤ g.count then .ok () else .error (r.offset, unnumbered)

/-- Refuses the first reference that means no group. -/
def check (g : Groups) : Pattern → Except (Nat × PropertyFault) Unit
  | empty | fail | one _ | position _ => .ok ()
  | sequence p q | choice p q => do p.check g; q.check g
  | repeated _ _ p | group _ p | atomic p | look _ _ p | tolerant _ p => p.check g
  | same r => checkReference g r 1 .unknownGroup .invalidGroup
  | call r => do
    checkReference g r 0 .invalidGroup .unknownGroup
    let n := (g.number? r.target).getD 0
    if 0 < n ∧ 1 < g.openings.count n then throw (r.offset, .ambiguousGroup)
  | ifGroup r yes no => do
    if r.target = .inr definitionName ∧ (g.number? r.target).isNone then pure ()
    else checkReference g r 0 .unknownGroup .invalidGroup
    yes.check g
    no.check g
  | ifLook _ _ p yes no => do p.check g; yes.check g; no.check g

/-- What a group stands for: the first pattern with its number. -/
def body? (number : Nat) : Pattern → Option Pattern
  | empty | fail | one _ | position _ | same _ | call _ => none
  | sequence p q | choice p q | ifGroup _ p q => p.body? number <|> q.body? number
  | repeated _ _ p | atomic p | look _ _ p | tolerant _ p => p.body? number
  | group n p => if n = number then some p else p.body? number
  | ifLook _ _ p yes no => p.body? number <|> yes.body? number <|> no.body? number

/-- Whether a pattern has no parts. -/
def isEmpty : Pattern → Bool
  | empty => true
  | sequence p q | choice p q => p.isEmpty && q.isEmpty
  | repeated _ _ p | group _ p | atomic p => p.isEmpty
  | _ => false

end Pattern

end ParserGenerator
