import ParserGenerator.Collection.OrderedMap

/-!
# What maps hold

An entry is in the list of a map exactly if a look-up of its key finds its value. Filtering, mapping and
numbering the entries of maps are described by what a look-up finds afterwards.
-/

namespace ParserGenerator.OrderedMap

variable {α β γ : Type}

theorem mem_numbered {n m : Int} {rows : List (OrderedMap α β)} {k : α} {v : β} :
    ((m, k), v) ∈ numbered n rows ↔
      ∃ (i : Nat) (row : OrderedMap α β), m = n + i ∧ rows[i]? = some row ∧ (k, v) ∈ row.toList := by
  induction rows generalizing n with
  | nil => simp [numbered]
  | cons row rows ih =>
    rw [numbered, List.mem_append, ih]
    constructor
    · rintro (h | ⟨i, row', hm, hr, he⟩)
      · obtain ⟨e, he, eq⟩ := List.mem_map.1 h
        cases eq
        exact ⟨0, row, by simp, rfl, he⟩
      · exact ⟨i + 1, row', by rw [hm]; push_cast; omega, hr, he⟩
    · rintro ⟨i, row', hm, hr, he⟩
      cases i with
      | zero =>
        cases hr
        exact .inl (List.mem_map.2 ⟨(k, v), he, by simp [hm]⟩)
      | succ i => exact .inr ⟨i, row', by rw [hm]; push_cast; omega, hr, he⟩

variable [DecidableEq α]

theorem lookup_eq_some_iff {es : List (α × β)} (distinct : (es.map Prod.fst).Nodup) {k : α} {v : β} :
    lookup k es = some v ↔ (k, v) ∈ es := by
  induction es with
  | nil => simp [lookup]
  | cons e es ih =>
    rw [List.map_cons, List.nodup_cons] at distinct
    by_cases h : e.1 = k
    · rw [lookup, if_pos h, List.mem_cons]
      constructor
      · intro eq
        exact .inl (Prod.ext h.symm (Option.some.inj eq).symm)
      · rintro (eq | tail)
        · rw [← eq]
        · exact absurd (List.mem_map.2 ⟨_, tail, h.symm⟩) distinct.1
    · rw [lookup, if_neg h, ih distinct.2, List.mem_cons]
      exact ⟨.inr, fun o => o.resolve_left fun eq => h (congrArg Prod.fst eq.symm)⟩

theorem mem_toList {m : OrderedMap α β} {k : α} {v : β} : (k, v) ∈ m.toList ↔ m.get? k = some v :=
  (lookup_eq_some_iff m.nodup).symm

theorem mem_keys {m : OrderedMap α β} {k : α} : k ∈ m.keys ↔ ∃ v, m.get? k = some v := by
  rw [keys, List.mem_map]
  constructor
  · rintro ⟨⟨_, v⟩, he, rfl⟩
    exact ⟨v, mem_toList.1 he⟩
  · rintro ⟨v, hv⟩
    exact ⟨(k, v), mem_toList.2 hv, rfl⟩

theorem mem_values {m : OrderedMap α β} {v : β} : v ∈ m.values ↔ ∃ k, m.get? k = some v := by
  rw [values, List.mem_map]
  constructor
  · rintro ⟨⟨k, _⟩, he, rfl⟩
    exact ⟨k, mem_toList.1 he⟩
  · rintro ⟨k, hk⟩
    exact ⟨(k, v), mem_toList.2 hk, rfl⟩

theorem get?_eq_none {m : OrderedMap α β} {k : α} : m.get? k = none ↔ k ∉ m.keys := by
  rw [mem_keys, Option.eq_none_iff_forall_ne_some, not_exists]

/-- A new key comes last. -/
theorem toList_insert {m : OrderedMap α β} {k : α} (absent : m.get? k = none) (v : β) :
    (m.insert k v).toList = m.toList ++ [(k, v)] := by
  have absent : k ∉ m.toList.map Prod.fst := get?_eq_none.1 absent
  have written : ∀ es : List (α × β), k ∉ es.map Prod.fst → write k v es = es ++ [(k, v)] := by
    intro es
    induction es with
    | nil => exact fun _ => rfl
    | cons e es ih =>
      intro absent
      rw [List.map_cons, List.mem_cons, not_or] at absent
      rw [write, if_neg fun eq => absent.1 eq.symm, ih absent.2, List.cons_append]
  exact written _ absent

theorem get?_eq_of_entries {m : OrderedMap α β} {k : α} {o : Option β}
    (entries : ∀ v, (k, v) ∈ m.toList ↔ o = some v) : m.get? k = o :=
  Option.ext fun v => mem_toList.symm.trans (entries v)

@[simp] theorem get?_filterKeys {m : OrderedMap α β} {p : α → Bool} {k : α} :
    (m.filterKeys p).get? k = if p k then m.get? k else none := by
  apply get?_eq_of_entries
  intro v
  rw [filterKeys, List.mem_filter, mem_toList]
  cases p k <;> simp

@[simp] theorem get?_mapValues {m : OrderedMap α β} {f : α → β → γ} {k : α} :
    (m.mapValues f).get? k = (m.get? k).map (f k) := by
  apply get?_eq_of_entries
  intro c
  rw [mapValues, List.mem_map, Option.map_eq_some_iff]
  constructor
  · rintro ⟨⟨k', v⟩, he, eq⟩
    cases eq
    exact ⟨v, mem_toList.1 he, rfl⟩
  · rintro ⟨v, hv, rfl⟩
    exact ⟨(k, v), mem_toList.2 hv, rfl⟩

@[simp] theorem get?_ofRows {rows : List (OrderedMap α β)} {i : Nat} {k : α} :
    (ofRows rows).get? ((i : Int), k) = rows[i]?.bind (·.get? k) := by
  apply get?_eq_of_entries
  intro v
  rw [ofRows, mem_numbered, Option.bind_eq_some_iff]
  constructor
  · rintro ⟨j, row, hj, hr, he⟩
    obtain rfl : i = j := by omega
    exact ⟨row, hr, mem_toList.1 he⟩
  · rintro ⟨row, hr, hv⟩
    exact ⟨i, row, by omega, hr, mem_toList.2 hv⟩

theorem toList_foldl_insert {es : List (α × β)} (distinct : (es.map Prod.fst).Nodup)
    {m : OrderedMap α β} (fresh : ∀ e ∈ es, m.get? e.1 = none) :
    (es.foldl (fun m e => m.insert e.1 e.2) m).toList = m.toList ++ es := by
  induction es generalizing m with
  | nil => rw [List.foldl_nil, List.append_nil]
  | cons e es ih =>
    rw [List.map_cons, List.nodup_cons] at distinct
    have later : ∀ e' ∈ es, (m.insert e.1 e.2).get? e'.1 = none := by
      intro e' he'
      have : e.1 ≠ e'.1 := fun eq => distinct.1 (List.mem_map.2 ⟨e', he', eq.symm⟩)
      rw [get?_insert, if_neg this]
      exact fresh e' (List.mem_cons_of_mem _ he')
    rw [List.foldl_cons, ih distinct.2 later, toList_insert (fresh e List.mem_cons_self),
      List.append_assoc, List.singleton_append]

theorem get?_foldl_insert {es : List (α × β)} (distinct : (es.map Prod.fst).Nodup)
    {m : OrderedMap α β} (fresh : ∀ e ∈ es, m.get? e.1 = none) {k : α} {v : β} :
    (es.foldl (fun m e => m.insert e.1 e.2) m).get? k = some v ↔
      m.get? k = some v ∨ (k, v) ∈ es := by
  rw [← mem_toList, toList_foldl_insert distinct fresh, List.mem_append, mem_toList]

/-- A map is made again from its list. -/
@[simp] theorem ofList_toList (m : OrderedMap α β) : ofList m.toList = m := by
  have listed : (ofList m.toList).toList = m.toList :=
    toList_foldl_insert m.nodup fun _ _ => get?_empty _
  cases made : ofList m.toList
  cases m
  rw [made] at listed
  cases listed
  rfl

theorem get?_ofList {es : List (α × β)} (distinct : (es.map Prod.fst).Nodup) {k : α} {v : β} :
    (ofList es).get? k = some v ↔ (k, v) ∈ es := by
  rw [ofList, get?_foldl_insert distinct (fun _ _ => get?_empty _), get?_empty]
  simp

/-- An entry of a map that was made from a list is one of the list, also where keys come up again. -/
theorem mem_of_mem_ofList {es : List (α × β)} {e : α × β} (mem : e ∈ (ofList es).toList) : e ∈ es := by
  have entered : ∀ m : OrderedMap α β, (es.foldl (fun m e => m.insert e.1 e.2) m).get? e.1 = some e.2 →
      m.get? e.1 = some e.2 ∨ e ∈ es := by
    clear mem
    induction es with
    | nil => exact fun _ found => .inl found
    | cons e' es ih =>
      intro m found
      rcases ih _ found with before | mem
      · rw [get?_insert] at before
        split at before
        · rename_i same
          exact .inr (List.mem_cons.2 (.inl (Prod.ext same.symm (Option.some.inj before).symm)))
        · exact .inl before
      · exact .inr (List.mem_cons_of_mem _ mem)
  rcases entered ∅ (mem_toList.1 mem) with found | mem
  · cases found
  · exact mem

/-- Maps with the same keys in order and with values that look alike have values that look alike in order. -/
theorem map_values_eq {β' : Type} {m : OrderedMap α β} {m' : OrderedMap α β'} {f : β → γ} {f' : β' → γ}
    (keys : m'.keys = m.keys) (same : ∀ k, (m'.get? k).map f' = (m.get? k).map f) :
    m'.values.map f' = m.values.map f := by
  have listed : ∀ {δ : Type} (m : OrderedMap α δ) (f : δ → γ),
      (m.values.map f).map some = m.keys.map fun k => (m.get? k).map f := by
    intro δ m f
    rw [values, OrderedMap.keys, List.map_map, List.map_map, List.map_map]
    refine List.map_congr_left fun e mem => ?_
    simp only [Function.comp_apply, mem_toList.1 mem, Option.map_some]
  refine (List.map_inj_right fun _ _ => Option.some.inj).1 ?_
  rw [listed, listed, keys]
  exact List.map_congr_left fun k _ => same k

end ParserGenerator.OrderedMap
