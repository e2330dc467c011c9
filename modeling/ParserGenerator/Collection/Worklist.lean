/-!
# Work until nothing is left to do

A pass is repeated as long as it reports a change. A measure of what is still open falls with every
change; it ends the repetition and never cuts it short where a pass only adds to bounded sets.
A sweep visits the entries of an array in order while the visits append further ones. It ends where the
number of entries there can be is reached.
-/

namespace ParserGenerator

/-- Repeats a pass until it changes nothing. -/
def iterate {σ : Type} (measure : σ → Nat) (pass : σ → σ × Bool) (s : σ) : σ :=
  let next := pass s
  if next.2 ∧ measure next.1 < measure s then iterate measure pass next.1 else next.1
termination_by measure s
decreasing_by exact (by assumption : _ ∧ _).2

/-- Visits every entry of a growing array once, in order, from the given index on. -/
def sweep {α : Type} (bound : Nat) (visit : Nat → α → Array α → Array α) (xs : Array α) (i : Nat) :
    Array α :=
  if h : i < xs.size ∧ i < bound then sweep bound visit (visit i xs[i] xs) (i + 1) else xs
termination_by bound - i
decreasing_by exact Nat.sub_lt_sub_left h.2 (Nat.lt_succ_self i)

variable {α : Type} [DecidableEq α]

/-- The array with those of the given entries that it lacks put last. -/
def pushNew (xs : Array α) (new : List α) : Array α :=
  new.foldl (fun xs x => if xs.contains x then xs else xs.push x) xs

/-- All that can be reached from the given entries, in the order in which it is found. -/
def reach (bound : Nat) (next : α → List α) (seeds : List α) : List α :=
  (sweep bound (fun _ x xs => pushNew xs (next x)) (pushNew #[] seeds) 0).toList

end ParserGenerator
