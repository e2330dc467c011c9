/-!
# Sorted lists

Entries are put in order one by one, each before the first entry that it may precede. Entries that may
precede each other keep their order.
-/

namespace ParserGenerator

variable {α : Type}

/-- Puts an entry before the first one that it may precede. -/
def insertSorted (le : α → α → Bool) (a : α) : List α → List α
  | [] => [a]
  | b :: bs => if le a b then a :: b :: bs else b :: insertSorted le a bs

def sortBy (le : α → α → Bool) (as : List α) : List α := as.foldr (insertSorted le) []

theorem insertSorted_perm (le : α → α → Bool) (a : α) (bs : List α) :
    (insertSorted le a bs).Perm (a :: bs) := by
  induction bs with
  | nil => exact .refl _
  | cons b bs ih =>
    by_cases h : le a b
    · rw [insertSorted, if_pos h]
    · rw [insertSorted, if_neg h]
      exact (ih.cons b).trans (.swap a b bs)

theorem sortBy_perm (le : α → α → Bool) (as : List α) : (sortBy le as).Perm as := by
  induction as with
  | nil => exact .refl _
  | cons a as ih => exact (insertSorted_perm le a _).trans (ih.cons a)

/-- Entries that are in order stay as they are. -/
theorem sortBy_of_pairwise {le : α → α → Bool} {as : List α} (ordered : as.Pairwise (le · ·)) :
    sortBy le as = as := by
  induction as with
  | nil => rfl
  | cons a as ih =>
    obtain ⟨first, later⟩ := List.pairwise_cons.1 ordered
    rw [sortBy, List.foldr_cons, ← sortBy, ih later]
    cases as with
    | nil => rfl
    | cons b bs => rw [insertSorted, if_pos (first b List.mem_cons_self)]

/-- An entry that may not stand behind any other comes first. -/
theorem sortBy_append_singleton {le : α → α → Bool} {as : List α} {b : α}
    (ordered : as.Pairwise (le · ·)) (before : ∀ a ∈ as, le a b = false) :
    sortBy le (as ++ [b]) = b :: as := by
  induction as with
  | nil => rfl
  | cons a as ih =>
    obtain ⟨-, later⟩ := List.pairwise_cons.1 ordered
    have sorted : insertSorted le a as = a :: as := by
      have whole := sortBy_of_pairwise ordered
      rwa [sortBy, List.foldr_cons, ← sortBy, sortBy_of_pairwise later] at whole
    have behind : ¬ le a b = true := by simp [before a List.mem_cons_self]
    rw [List.cons_append, sortBy, List.foldr_cons, ← sortBy,
      ih later fun c hc => before c (List.mem_cons_of_mem _ hc), insertSorted, if_neg behind, sorted]

@[simp] theorem mem_sortBy {le : α → α → Bool} {as : List α} {a : α} : a ∈ sortBy le as ↔ a ∈ as :=
  (sortBy_perm le as).mem_iff

end ParserGenerator
