/-!
# Maps that remember the order of insertion

A map lists its entries in the order in which their keys first came. Writing to a key that is there
keeps its place; removing a key and writing it again puts it last.
-/

namespace ParserGenerator

structure OrderedMap (α β : Type) where
  toList : List (α × β)
  nodup : (toList.map Prod.fst).Nodup

namespace OrderedMap

variable {α β : Type}

/-- The entries of maps that are numbered from the given number on, one map after the other. -/
def numbered : Int → List (OrderedMap α β) → List ((Int × α) × β)
  | _, [] => []
  | n, row :: rows => row.toList.map (fun e => ((n, e.1), e.2)) ++ numbered (n + 1) rows

theorem le_of_mem_numbered {n : Int} {rows : List (OrderedMap α β)} {k : Int × α}
    (h : k ∈ (numbered n rows).map Prod.fst) : n ≤ k.1 := by
  induction rows generalizing n with
  | nil => simp [numbered] at h
  | cons row rows ih =>
    rw [numbered, List.map_append, List.mem_append, List.map_map] at h
    rcases h with h | h
    · obtain ⟨e, -, rfl⟩ := List.mem_map.1 h
      exact Int.le_refl n
    · have := ih h
      omega

theorem nodup_numbered (n : Int) (rows : List (OrderedMap α β)) :
    ((numbered n rows).map Prod.fst).Nodup := by
  induction rows generalizing n with
  | nil => simp [numbered]
  | cons row rows ih =>
    rw [numbered, List.map_append, List.map_map, List.nodup_append]
    refine ⟨?_, ih _, fun k hk l hl e => ?_⟩
    · have := row.nodup
      rw [List.Nodup, List.pairwise_map] at this ⊢
      exact this.imp fun h e => h (Prod.mk.inj e).2
    · obtain ⟨x, -, rfl⟩ := List.mem_map.1 hk
      have := le_of_mem_numbered hl
      rw [← e] at this
      have : n + 1 ≤ n := this
      omega

/-- The entries of a list of maps, under the index of their map and their key. -/
def ofRows (rows : List (OrderedMap α β)) : OrderedMap (Int × α) β :=
  ⟨numbered 0 rows, nodup_numbered 0 rows⟩

variable [DecidableEq α]

def empty : OrderedMap α β := ⟨[], List.nodup_nil⟩

instance : EmptyCollection (OrderedMap α β) := ⟨empty⟩
instance : Inhabited (OrderedMap α β) := ⟨empty⟩

def keys (m : OrderedMap α β) : List α := m.toList.map Prod.fst
def values (m : OrderedMap α β) : List β := m.toList.map Prod.snd
def size (m : OrderedMap α β) : Nat := m.toList.length

/-- The entry list with the value of a key replaced in place, or the entry put last. -/
def write (k : α) (v : β) : List (α × β) → List (α × β)
  | [] => [(k, v)]
  | e :: es => if e.1 = k then (k, v) :: es else e :: write k v es

theorem mem_keys_write {k a : α} {v : β} {es : List (α × β)} :
    a ∈ (write k v es).map Prod.fst ↔ a = k ∨ a ∈ es.map Prod.fst := by
  induction es with
  | nil => simp [write]
  | cons e es ih =>
    by_cases h : e.1 = k
    · simp [write, h]
    · rw [write, if_neg h, List.map_cons, List.mem_cons, ih, List.map_cons, List.mem_cons]
      exact ⟨fun o => o.elim (fun x => .inr (.inl x)) (fun o => o.elim .inl fun x => .inr (.inr x)),
        fun o => o.elim (fun x => .inr (.inl x)) (fun o => o.elim .inl fun x => .inr (.inr x))⟩

theorem nodup_write {k : α} {v : β} {es : List (α × β)} (h : (es.map Prod.fst).Nodup) :
    ((write k v es).map Prod.fst).Nodup := by
  induction es with
  | nil => simp [write]
  | cons e es ih =>
    rw [List.map_cons, List.nodup_cons] at h
    by_cases he : e.1 = k
    · rw [write, if_pos he, List.map_cons, List.nodup_cons]
      exact ⟨he ▸ h.1, h.2⟩
    · rw [write, if_neg he, List.map_cons, List.nodup_cons, mem_keys_write]
      exact ⟨fun o => o.elim he h.1, ih h.2⟩

def insert (m : OrderedMap α β) (k : α) (v : β) : OrderedMap α β :=
  ⟨write k v m.toList, nodup_write m.nodup⟩

def ofList (es : List (α × β)) : OrderedMap α β := es.foldl (fun m e => m.insert e.1 e.2) ∅

/-- The value that an entry list gives to a key. -/
def lookup (k : α) : List (α × β) → Option β
  | [] => none
  | e :: es => if e.1 = k then some e.2 else lookup k es

def get? (m : OrderedMap α β) (k : α) : Option β := lookup k m.toList
def getD (m : OrderedMap α β) (k : α) (v : β) : β := (m.get? k).getD v
def contains (m : OrderedMap α β) (k : α) : Bool := (m.get? k).isSome

/-- The entries whose keys pass a test. -/
def filterKeys (m : OrderedMap α β) (p : α → Bool) : OrderedMap α β :=
  ⟨m.toList.filter (p ·.1), List.Nodup.sublist (List.Sublist.map _ List.filter_sublist) m.nodup⟩

def erase (m : OrderedMap α β) (k : α) : OrderedMap α β := m.filterKeys (· ≠ k)

/-- Each value replaced by one made from its key and itself. -/
def mapValues {γ : Type} (m : OrderedMap α β) (f : α → β → γ) : OrderedMap α γ :=
  ⟨m.toList.map fun e => (e.1, f e.1 e.2), by
    rw [List.map_map]
    exact m.nodup⟩

/-- Whether two maps have the same entries, in any order. -/
def sameEntries [BEq β] (m n : OrderedMap α β) : Bool :=
  m.size = n.size && m.toList.all fun e => n.get? e.1 == some e.2

@[simp] theorem get?_empty (k : α) : (∅ : OrderedMap α β).get? k = none := rfl

theorem lookup_write {k a : α} {v : β} {es : List (α × β)} :
    lookup a (write k v es) = if k = a then some v else lookup a es := by
  induction es with
  | nil => simp [write, lookup]
  | cons e es ih =>
    by_cases he : e.1 = k
    · rw [write, if_pos he, lookup, lookup, he]
      split <;> simp_all
    · rw [write, if_neg he, lookup, lookup, ih]
      by_cases ha : e.1 = a
      · have : k ≠ a := fun h => he (ha.trans h.symm)
        simp [ha, this]
      · simp [ha]

@[simp] theorem get?_insert {m : OrderedMap α β} {k a : α} {v : β} :
    (m.insert k v).get? a = if k = a then some v else m.get? a := lookup_write

theorem keys_write {k : α} {v : β} {es : List (α × β)} :
    (write k v es).map Prod.fst =
      if k ∈ es.map Prod.fst then es.map Prod.fst else es.map Prod.fst ++ [k] := by
  induction es with
  | nil => simp [write]
  | cons e es ih =>
    by_cases he : e.1 = k
    · simp [write, he]
    · rw [write, if_neg he, List.map_cons, ih]
      by_cases hk : k ∈ es.map Prod.fst
      · rw [if_pos hk, if_pos (by simp only [List.map_cons]; exact List.mem_cons_of_mem _ hk)]
        rfl
      · rw [if_neg hk, if_neg (by simp only [List.map_cons, List.mem_cons]; exact fun o => o.elim (fun x => he x.symm) hk)]
        rfl

/-- Writing a present key leaves the order of the keys; a new key comes last. -/
theorem keys_insert {m : OrderedMap α β} {k : α} {v : β} :
    (m.insert k v).keys = if k ∈ m.keys then m.keys else m.keys ++ [k] := keys_write

end OrderedMap

end ParserGenerator
