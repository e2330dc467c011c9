import ParserGenerator.Collection.OrderedSet
import Mathlib.Data.List.Perm.Basic

/-!
# Sizes and images of sets

A set that holds another one is larger exactly if it has a member of its own. Under a map that keeps members
apart a set keeps its order.
-/

namespace ParserGenerator.OrderedSet

variable {α : Type} {s t : OrderedSet α}

theorem size_le (sub : ∀ a ∈ s, a ∈ t) : s.size ≤ t.size :=
  (List.subperm_of_subset s.nodup sub).length_le

theorem subset_of_size_le (sub : ∀ a ∈ s, a ∈ t) (size : t.size ≤ s.size) : ∀ a ∈ t, a ∈ s :=
  fun _ mem => ((List.subperm_of_subset s.nodup sub).perm_of_length_le size).mem_iff.2 mem

theorem exists_of_size_lt (size : s.size < t.size) : ∃ a ∈ t, a ∉ s := by
  refine Classical.byContradiction fun none => ?_
  have sub : ∀ a ∈ t, a ∈ s := by
    intro a mem
    exact Classical.byContradiction fun out => none ⟨a, mem, out⟩
  have := size_le sub
  omega

section Insertion

variable [DecidableEq α]

/-- Members that are there may be inserted again. -/
theorem insertAll_eq_self {as : List α} (sub : ∀ a ∈ as, a ∈ s) : s.insertAll as = s := by
  induction as with
  | nil => rfl
  | cons a as ih =>
    obtain ⟨first, rest⟩ := List.forall_mem_cons.1 sub
    have same : s.insert a = s := dif_pos first
    rw [insertAll, List.foldl_cons, same]
    exact ih rest

/-- New members come behind the old ones. -/
theorem prefix_insertAll (s : OrderedSet α) (as : List α) : s.toList <+: (s.insertAll as).toList := by
  induction as generalizing s with
  | nil => exact List.prefix_rfl
  | cons a as ih =>
    refine List.IsPrefix.trans ?_ (ih (s.insert a))
    rw [insert]
    split
    · exact List.prefix_rfl
    · exact List.prefix_append _ _

end Insertion

section Image

variable {β : Type} [DecidableEq α] [DecidableEq β] {σ : α → β} {known : α → Prop}
  (inj : ∀ a b, known a → known b → σ a = σ b → a = b)
include inj

theorem toList_insert_map {t : OrderedSet β} (same : t.toList = s.toList.map σ) {a : α} (at_a : known a)
    (inside : ∀ b ∈ s, known b) : (t.insert (σ a)).toList = (s.insert a).toList.map σ := by
  have mem_iff : σ a ∈ t.toList ↔ a ∈ s.toList := by
    rw [same, List.mem_map]
    constructor
    · rintro ⟨b, mem, eq⟩
      exact inj b a (inside b mem) at_a eq ▸ mem
    · exact fun mem => ⟨a, mem, rfl⟩
  rw [insert, insert]
  by_cases mem : a ∈ s.toList
  · rw [dif_pos mem, dif_pos (mem_iff.2 mem), same]
  · rw [dif_neg mem, dif_neg fun mem' => mem (mem_iff.1 mem')]
    show t.toList ++ [σ a] = (s.toList ++ [a]).map σ
    rw [same, List.map_append, List.map_singleton]

theorem toList_insertAll_map {t : OrderedSet β} (same : t.toList = s.toList.map σ) {as : List α}
    (all : ∀ a ∈ as, known a) (inside : ∀ b ∈ s, known b) :
    (t.insertAll (as.map σ)).toList = (s.insertAll as).toList.map σ := by
  induction as generalizing s t with
  | nil => exact same
  | cons a as ih =>
    obtain ⟨first, rest⟩ := List.forall_mem_cons.1 all
    refine ih (toList_insert_map inj same first inside) rest fun b mem => ?_
    rcases mem_insert.1 mem with old | rfl
    · exact inside b old
    · exact first

/-- The image of a list has the images of its members, in the same order. -/
theorem toList_ofList_map {as : List α} (all : ∀ a ∈ as, known a) :
    (ofList (as.map σ)).toList = (ofList as).toList.map σ :=
  toList_insertAll_map (s := ∅) (t := ∅) inj rfl all fun b mem => absurd mem (not_mem_empty b)

end Image

end ParserGenerator.OrderedSet
