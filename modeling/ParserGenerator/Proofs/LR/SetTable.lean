import ParserGenerator.LR.Digraph
import ParserGenerator.Proofs.Collection.OrderedMap
import Mathlib.Data.Set.Basic

/-!
# Sets on a heap

A search copies the sets that it is given and adds to its copies in place. While every node stands for a
set of its own that lies behind the given part of the heap, an addition changes the set of one node only,
and none of the given ones.
-/

namespace ParserGenerator.SetTable

variable {α : Type} [DecidableEq α] {t : SetTable α} {base : Array (OrderedSet Int)} {x y z : α} {a : Nat}

/-- The members of a node's set. -/
def members (t : SetTable α) (x : α) : Set Int := {i | i ∈ t.of x}

theorem mem_members {i : Int} : i ∈ t.members x ↔ i ∈ t.of x := Iff.rfl

theorem of_eq (placed : t.place.get? x = some a) : t.of x = t.heap.getD a ∅ := by
  rw [of, placed, Option.map_some, Option.getD_some]

theorem of_eq_empty (absent : x ∉ t.place.keys) : t.of x = ∅ := by
  rw [of, OrderedMap.get?_eq_none.2 absent, Option.map_none, Option.getD_none]

theorem find_eq_ok : t.find x = .ok a ↔ t.place.get? x = some a := by
  cases placed : t.place.get? x <;> simp [find, placed]

/-- No node shares its set, and the given part of the heap is as it was. -/
structure Apart (base : Array (OrderedSet Int)) (t : SetTable α) : Prop where
  behind : ∀ {x a}, t.place.get? x = some a → base.size ≤ a ∧ a < t.heap.size
  distinct : ∀ {x y a}, t.place.get? x = some a → t.place.get? y = some a → x = y
  kept : ∀ a < base.size, t.heap[a]? = base[a]?

theorem Apart.size_le (apart : Apart base t) : base.size ≤ t.heap.size := by
  by_contra small
  have kept := apart.kept t.heap.size (by omega)
  rw [Array.getElem?_eq_none (Nat.le_refl _), Array.getElem?_eq_getElem (by omega)] at kept
  cases kept

/-! ## A set put in -/

theorem Apart.put (apart : Apart base t) (x : α) (s : OrderedSet Int) : Apart base (t.put x s) where
  behind := by
    intro y a placed
    rw [SetTable.put, OrderedMap.get?_insert] at placed
    rw [SetTable.put, Array.size_push]
    split at placed
    · cases placed
      exact ⟨apart.size_le, Nat.lt_succ_self _⟩
    · exact ⟨(apart.behind placed).1, Nat.lt_succ_of_lt (apart.behind placed).2⟩
  distinct := by
    intro y z a placed placed'
    rw [SetTable.put, OrderedMap.get?_insert] at placed placed'
    split at placed <;> split at placed'
    · rename_i eq eq'
      exact eq.symm.trans eq'
    · cases placed
      exact absurd (apart.behind placed').2 (Nat.lt_irrefl _)
    · cases placed'
      exact absurd (apart.behind placed).2 (Nat.lt_irrefl _)
    · exact apart.distinct placed placed'
  kept := by
    intro a inside
    rw [SetTable.put, Array.getElem?_push_lt (Nat.lt_of_lt_of_le inside apart.size_le),
      ← Array.getElem?_eq_getElem]
    exact apart.kept a inside

theorem Apart.of_put (apart : Apart base t) (s : OrderedSet Int) :
    (t.put x s).of z = if x = z then s else t.of z := by
  rw [of, SetTable.put, OrderedMap.get?_insert]
  split
  · simp
  · cases placed : t.place.get? z with
    | none => rw [of_eq_empty (OrderedMap.get?_eq_none.1 placed), Option.map_none, Option.getD_none]
    | some a =>
      rw [of_eq placed, Option.map_some, Option.getD_some, Array.getD_eq_getD_getElem?,
        Array.getElem?_push, if_neg (Nat.ne_of_lt (apart.behind placed).2), Array.getD_eq_getD_getElem?]

/-- A copy is made of every set that there is. -/
theorem Apart.exists_copy (apart : Apart base t) (x : α) (placed : y ∈ t.place.keys) :
    ∃ t', t.copy x y = .ok t' ∧ Apart base t' ∧ t'.place.keys = (t.put x ∅).place.keys ∧
      ∀ z, t'.of z = if x = z then t.of y else t.of z := by
  obtain ⟨a, at_y⟩ := OrderedMap.mem_keys.1 placed
  refine ⟨t.put x (t.of y), ?_, apart.put x _, rfl, fun z => apart.of_put _⟩
  rw [copy, find_eq_ok.2 at_y, of_eq at_y]
  rfl

theorem keys_put (s : OrderedSet Int) :
    (t.put x s).place.keys = if x ∈ t.place.keys then t.place.keys else t.place.keys ++ [x] :=
  OrderedMap.keys_insert

/-! ## Additions -/

/-- A change of the set at one node's place is seen by that node alone. -/
theorem Apart.of_modify (apart : Apart base t) (at_x : t.place.get? x = some a)
    (f : OrderedSet Int → OrderedSet Int) (z : α) :
    ({ t with heap := t.heap.modify a f } : SetTable α).of z = if x = z then f (t.of z) else t.of z := by
  simp only [of, Array.getD_eq_getD_getElem?, Array.getElem?_modify]
  split
  · rename_i same
    rw [← same, at_x, Option.map_some, Option.map_some, if_pos rfl,
      Array.getElem?_eq_getElem (apart.behind at_x).2]
    rfl
  · rename_i other
    cases at_z : t.place.get? z with
    | none => rfl
    | some c =>
      have : a ≠ c := fun eq => other (apart.distinct at_x (eq ▸ at_z))
      simp only [Option.map_some, if_neg this]

/-- What the second node holds is added to the first node's set and to no other. -/
theorem Apart.exists_addAll (apart : Apart base t) (at_x : x ∈ t.place.keys) (at_y : y ∈ t.place.keys) :
    ∃ t', t.addAll x y = .ok t' ∧ Apart base t' ∧ t'.place = t.place ∧
      t'.members x = t.members x ∪ t.members y ∧ ∀ z, z ≠ x → t'.of z = t.of z := by
  obtain ⟨a, at_x⟩ := OrderedMap.mem_keys.1 at_x
  obtain ⟨b, at_y⟩ := OrderedMap.mem_keys.1 at_y
  have found : t.addAll x y = if a = b then .ok t else
      .ok { t with heap := t.heap.modify a (·.union (t.heap.getD b ∅)) } := by
    rw [addAll, find_eq_ok.2 at_x, find_eq_ok.2 at_y]
    rfl
  by_cases same : a = b
  · obtain rfl : x = y := apart.distinct at_x (same ▸ at_y)
    exact ⟨t, by rw [found, if_pos same], apart, rfl, (Set.union_self _).symm, fun _ _ => rfl⟩
  · rw [if_neg same] at found
    refine ⟨_, found, ⟨?_, apart.distinct, ?_⟩, rfl, ?_, ?_⟩
    · intro z c at_z
      rw [Array.size_modify]
      exact apart.behind at_z
    · intro c inside
      have := (apart.behind at_x).1
      rw [Array.getElem?_modify, if_neg (by omega)]
      exact apart.kept c inside
    · ext i
      rw [Set.mem_union, mem_members, mem_members, mem_members, apart.of_modify at_x, if_pos rfl,
        OrderedSet.mem_union, of_eq at_y]
    · intro z other
      rw [apart.of_modify at_x, if_neg other.symm]

/-! ## Fresh copies -/

/-- After the first nodes have got their copies, these stand for them in order. -/
theorem apart_foldl_put (t : SetTable α) {keys : List α} (nodup : keys.Nodup) {s : SetTable α}
    (apart : Apart base s) (new : ∀ x ∈ keys, x ∉ s.place.keys) :
    let made := keys.foldl (fun s x => s.put x (t.of x)) s
    Apart base made ∧ made.place.keys = s.place.keys ++ keys ∧
      ∀ x, made.of x = if x ∈ keys then t.of x else s.of x := by
  induction keys generalizing s with
  | nil => exact ⟨apart, (List.append_nil _).symm, fun x => (if_neg List.not_mem_nil).symm⟩
  | cons y ys ih =>
    obtain ⟨first, later⟩ := List.nodup_cons.1 nodup
    have grown : (s.put y (t.of y)).place.keys = s.place.keys ++ [y] := by
      rw [keys_put, if_neg (new y List.mem_cons_self)]
    obtain ⟨apart', keys', holds⟩ := ih later (apart.put y (t.of y)) (by
      intro x mem listed
      rw [grown, List.mem_append, List.mem_singleton] at listed
      rcases listed with old | rfl
      · exact new x (List.mem_cons_of_mem _ mem) old
      · exact first mem)
    refine ⟨apart', by rw [List.foldl_cons, keys', grown, List.append_assoc]; rfl, fun x => ?_⟩
    rw [List.foldl_cons, holds, apart.of_put]
    by_cases same : y = x
    · subst same
      rw [if_neg first, if_pos rfl, if_pos List.mem_cons_self]
    · rw [if_neg same]
      simp only [List.mem_cons, Ne.symm same, false_or]

theorem apart_fresh (t : SetTable α) : Apart t.heap t.fresh ∧ t.fresh.place.keys = t.place.keys ∧
    ∀ x, t.fresh.of x = t.of x := by
  have empty : Apart t.heap ({ t with place := ∅ } : SetTable α) :=
    ⟨by simp, by simp, fun _ _ => rfl⟩
  obtain ⟨apart, keys, holds⟩ := apart_foldl_put t t.place.nodup empty fun _ _ => List.not_mem_nil
  refine ⟨apart, keys, fun x => (holds x).trans ?_⟩
  split
  · rfl
  · rename_i absent
    rw [of_eq_empty absent]
    rfl

/-! ## Tables made from sets -/

theorem get?_ofSets {own : OrderedMap α (OrderedSet Int)} {n : Nat} :
    (ofSets own).place.get? x = some n ↔ own.keys[n]? = some x := by
  have distinct : (own.keys.zipIdx.map Prod.fst).Nodup := by
    rw [List.zipIdx_map_fst]
    exact own.nodup
  rw [ofSets, OrderedMap.get?_ofList distinct, List.mem_zipIdx_iff_getElem?]

theorem mem_keys_ofSets {own : OrderedMap α (OrderedSet Int)} :
    x ∈ (ofSets own).place.keys ↔ x ∈ own.keys := by
  rw [OrderedMap.mem_keys, List.mem_iff_getElem?]
  exact exists_congr fun n => get?_ofSets

theorem of_ofSets (own : OrderedMap α (OrderedSet Int)) (x : α) : (ofSets own).of x = own.getD x ∅ := by
  cases held : own.get? x with
  | none =>
    have absent := OrderedMap.get?_eq_none.1 held
    rw [of_eq_empty fun listed => absent (mem_keys_ofSets.1 listed), OrderedMap.getD, held, Option.getD_none]
  | some s =>
    obtain ⟨n, at_n⟩ := List.mem_iff_getElem?.1 (OrderedMap.mem_toList.2 held)
    have key : own.keys[n]? = some x := by rw [OrderedMap.keys, List.getElem?_map, at_n, Option.map_some]
    have value : own.values[n]? = some s := by rw [OrderedMap.values, List.getElem?_map, at_n, Option.map_some]
    rw [of_eq (get?_ofSets.2 key), OrderedMap.getD, held, Option.getD_some, ofSets,
      Array.getD_eq_getD_getElem?, List.getElem?_toArray, value, Option.getD_some]

/-- A table in which each number stands for the set that has it. -/
def ofArray (sets : Array (OrderedSet Int)) : SetTable Nat where
  heap := sets
  place := .ofList ((List.range sets.size).map fun n => (n, n))

theorem get?_ofArray {sets : Array (OrderedSet Int)} {n m : Nat} :
    (ofArray sets).place.get? n = some m ↔ n < sets.size ∧ m = n := by
  have distinct : (((List.range sets.size).map fun n => (n, n)).map Prod.fst).Nodup := by
    rw [List.map_map]
    exact (List.map_id _).symm ▸ List.nodup_range
  rw [ofArray, OrderedMap.get?_ofList distinct, List.mem_map]
  constructor
  · rintro ⟨k, mem, eq⟩
    cases eq
    exact ⟨List.mem_range.1 mem, rfl⟩
  · rintro ⟨small, rfl⟩
    exact ⟨m, List.mem_range.2 small, rfl⟩

theorem mem_keys_ofArray {sets : Array (OrderedSet Int)} {n : Nat} :
    n ∈ (ofArray sets).place.keys ↔ n < sets.size := by
  rw [OrderedMap.mem_keys]
  constructor
  · rintro ⟨_, placed⟩
    exact (get?_ofArray.1 placed).1
  · exact fun small => ⟨n, get?_ofArray.2 ⟨small, rfl⟩⟩

theorem of_ofArray (sets : Array (OrderedSet Int)) (n : Nat) : (ofArray sets).of n = sets.getD n ∅ := by
  by_cases small : n < sets.size
  · exact of_eq (get?_ofArray.2 ⟨small, rfl⟩)
  · rw [of_eq_empty fun listed => small (mem_keys_ofArray.1 listed), Array.getD_eq_getD_getElem?,
      Array.getElem?_eq_none (Nat.le_of_not_lt small), Option.getD_none]

end ParserGenerator.SetTable
