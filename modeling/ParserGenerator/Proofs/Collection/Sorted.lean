import ParserGenerator.Collection.Sorted
import Mathlib.Data.List.Pairwise

/-!
# Sorted lists are in order

Where any two entries may stand in one order or the other, sorting puts a list in order. Lists without
repetition that hold the same entries then become one list.
-/

namespace ParserGenerator

variable {α : Type} {le : α → α → Bool}

section Order

variable (total : ∀ a b, le a b = true ∨ le b a = true)
  (trans : ∀ {a b c}, le a b = true → le b c = true → le a c = true)
include total trans

theorem pairwise_insertSorted (a : α) {bs : List α} (ordered : bs.Pairwise (le · ·)) :
    (insertSorted le a bs).Pairwise (le · ·) := by
  induction bs with
  | nil => exact List.pairwise_singleton _ a
  | cons b bs ih =>
    obtain ⟨first, later⟩ := List.pairwise_cons.1 ordered
    by_cases h : le a b = true
    · rw [insertSorted, if_pos h]
      refine List.pairwise_cons.2 ⟨?_, ordered⟩
      rintro c (_ | ⟨_, mem⟩)
      · exact h
      · exact trans h (first c mem)
    · rw [insertSorted, if_neg h]
      refine List.pairwise_cons.2 ⟨fun c mem => ?_, ih later⟩
      rcases List.mem_cons.1 ((insertSorted_perm le a bs).mem_iff.1 mem) with rfl | mem
      · exact (total c b).resolve_left h
      · exact first c mem

theorem pairwise_sortBy (as : List α) : (sortBy le as).Pairwise (le · ·) := by
  induction as with
  | nil => exact List.Pairwise.nil
  | cons a as ih => exact pairwise_insertSorted total trans a ih

/-- Of the same entries, each once, there is one list in order. -/
theorem sortBy_eq_of_mem_iff (antisymm : ∀ {a b}, le a b = true → le b a = true → a = b) {as bs : List α}
    (distinct : as.Nodup) (distinct' : bs.Nodup) (same : ∀ a, a ∈ as ↔ a ∈ bs) :
    sortBy le as = sortBy le bs := by
  have perm := (List.perm_ext_iff_of_nodup distinct distinct').2 same
  refine List.Perm.eq_of_pairwise (fun a b _ _ h h' => antisymm h h') (pairwise_sortBy total trans as)
    (pairwise_sortBy total trans bs) ?_
  exact (sortBy_perm le as).trans (perm.trans (sortBy_perm le bs).symm)

end Order

end ParserGenerator
