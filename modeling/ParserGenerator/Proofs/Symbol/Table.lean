import ParserGenerator.Symbol.Table

/-!
# Lawful symbol tables

In a lawful table every symbol stands in the slot of its identifier under a name of its own, and the end
marker is where it belongs. A table extends another if the symbols of the first are still there under
their identifiers, with their names and productions and with every kind that was known.
-/

namespace ParserGenerator.SymbolTable

variable {t t' t'' : SymbolTable} {id : Int} {s s' : Symbol} {name : String} {kind : SymbolKind}

theorem at?_eq_some : t.at? id = some s ↔ ∃ i : Nat, id = i ∧ t.slots[i]? = some (some s) := by
  rw [at?]
  split
  · constructor
    · exact nofun
    · rintro ⟨i, rfl, -⟩
      omega
  · rw [Option.join_eq_some_iff]
    constructor
    · exact fun h => ⟨id.toNat, by omega, h⟩
    · rintro ⟨i, rfl, h⟩
      exact h

theorem symbol_eq_ok (at_s : t.at? id = some s) : t.symbol id = .ok s := by
  rw [symbol, at_s]

theorem at?_of_symbol (found : t.symbol id = .ok s) : t.at? id = some s := by
  rw [symbol] at found
  cases at_id : t.at? id with
  | some x =>
    rw [at_id] at found
    cases found
    rfl
  | none =>
    rw [at_id] at found
    cases found

theorem mem_symbols : s ∈ t.symbols ↔ ∃ id, t.at? id = some s := by
  rw [symbols, List.mem_filterMap]
  constructor
  · rintro ⟨slot, mem, eq⟩
    obtain ⟨i, hi⟩ := List.mem_iff_getElem?.1 mem
    rw [Array.getElem?_toList] at hi
    exact ⟨i, at?_eq_some.2 ⟨i, rfl, by rw [hi, ← eq]; rfl⟩⟩
  · rintro ⟨id, h⟩
    obtain ⟨i, -, hi⟩ := at?_eq_some.1 h
    exact ⟨some s, List.mem_iff_getElem?.2 ⟨i, by rw [Array.getElem?_toList, hi]⟩, rfl⟩

/-- An identifier lies outside the slots or means one, a natural one the slot of its number. -/
theorem slotOf?_cases (t : SymbolTable) (id : Int) :
    t.slotOf? id = none ∧ (id < -t.slots.size ∨ t.slots.size ≤ id) ∨
      ∃ slot, t.slotOf? id = some slot ∧ (0 ≤ id → id = slot) := by
  rw [slotOf?]
  by_cases negative : id < 0
  · by_cases inside : 0 ≤ id + t.slots.size
    · exact .inr ⟨_, by simp only [if_pos negative]; rw [if_pos (by omega)], fun _ => by omega⟩
    · exact .inl ⟨by simp only [if_pos negative]; rw [if_neg (by omega)], by omega⟩
  · by_cases inside : id < t.slots.size
    · exact .inr ⟨_, by simp only [if_neg negative]; rw [if_pos (by omega)], fun _ => by omega⟩
    · exact .inl ⟨by simp only [if_neg negative]; rw [if_neg (by omega)], by omega⟩

theorem find?_eq_none : t.find? name = none ↔ ∀ id s, t.at? id = some s → s.name ≠ name := by
  rw [find?, List.find?_eq_none]
  constructor
  · intro h id s at_id eq
    exact h s (mem_symbols.2 ⟨id, at_id⟩) (decide_eq_true eq)
  · intro h s mem eq
    obtain ⟨id, at_id⟩ := mem_symbols.1 mem
    exact h id s at_id (of_decide_eq_true eq)

/-- Behind the two vacant slots every slot holds a symbol. -/
def Dense (t : SymbolTable) : Prop := t.slots.toList = none :: none :: t.symbols.map some

theorem dense_of_slots (ss : List Symbol) (h : t.slots.toList = none :: none :: ss.map some) :
    t.Dense := by
  have listed : t.symbols = ss := by simp [symbols, h]
  rw [Dense, listed, h]

theorem Dense.update (dense : t.Dense) (s : Symbol) : (t.update s).Dense := by
  apply dense_of_slots (t.symbols.map fun x => if x.name = s.name then s else x)
  rw [SymbolTable.update, Array.toList_map, dense]
  simp

theorem slots_install_size (t : SymbolTable) (s : Symbol) :
    (t.install t.slots.size s).slots = t.slots.push (some s) := by
  apply Array.ext'
  simp [install]

theorem Dense.install (dense : t.Dense) (s : Symbol) : (t.install t.slots.size s).Dense := by
  apply dense_of_slots (t.symbols ++ [s])
  rw [slots_install_size, Array.toList_push, dense]
  simp

/-- Every symbol stands in the slot of its identifier under a name of its own. Slots may be skipped. -/
structure Seated (t : SymbolTable) : Prop where
  id_eq : ∀ {id s}, t.at? id = some s → s.id = id
  name_inj : ∀ {a b s s'}, t.at? a = some s → t.at? b = some s' → s.name = s'.name → a = b

namespace Seated

theorem find?_eq_some (seated : t.Seated) :
    t.find? name = some s ↔ t.at? s.id = some s ∧ s.name = name := by
  constructor
  · intro h
    obtain ⟨id, at_id⟩ := mem_symbols.1 (List.mem_of_find?_eq_some h)
    have passed := List.find?_some h
    exact ⟨(seated.id_eq at_id).symm ▸ at_id, of_decide_eq_true passed⟩
  · rintro ⟨at_id, named⟩
    cases found : t.find? name with
    | none => exact absurd named (find?_eq_none.1 found _ _ at_id)
    | some s' =>
      obtain ⟨id, at_id'⟩ := mem_symbols.1 (List.mem_of_find?_eq_some found)
      have passed := List.find?_some found
      have named' : s'.name = name := of_decide_eq_true passed
      have same := seated.name_inj at_id' at_id (named'.trans named.symm)
      rw [same, at_id] at at_id'
      exact at_id'.symm

theorem current?_eq (seated : t.Seated) (h : t.at? id = some s) : t.current? s = some s := by
  obtain ⟨i, rfl, slot⟩ := at?_eq_some.1 h
  have inside : i < t.slots.size := (Array.getElem?_eq_some_iff.1 slot).1
  have place : t.slotOf? s.id = some i := by
    rw [seated.id_eq h, slotOf?]
    simp [Int.not_lt.2 (Int.natCast_nonneg i), inside]
  rw [current?, place, Option.bind_some, slot]
  rfl

theorem get?_eq_find? (seated : t.Seated) (name : String) : t.get? name = t.find? name := by
  rw [get?]
  cases found : t.find? name with
  | none => rfl
  | some s => exact seated.current?_eq (seated.find?_eq_some.1 found).1

theorem get?_eq_some (seated : t.Seated) :
    t.get? name = some s ↔ t.at? s.id = some s ∧ s.name = name := by
  rw [seated.get?_eq_find?, seated.find?_eq_some]

theorem idOf_eq_ok (seated : t.Seated) {id : Int} :
    t.idOf name = .ok id ↔ ∃ s, t.at? id = some s ∧ s.name = name := by
  rw [idOf]
  cases found : t.find? name with
  | none =>
    constructor
    · exact nofun
    · rintro ⟨s, at_id, named⟩
      exact absurd named (find?_eq_none.1 found _ _ at_id)
  | some s =>
    obtain ⟨at_id, named⟩ := seated.find?_eq_some.1 found
    constructor
    · intro eq
      cases eq
      exact ⟨s, at_id, named⟩
    · rintro ⟨s', at_id', named'⟩
      rw [seated.name_inj at_id' at_id (named'.trans named.symm)]

end Seated

/-- Every symbol stands in the slot of its identifier under a name of its own, and no slot is skipped. -/
structure Lawful (t : SymbolTable) : Prop where
  id_eq : ∀ {id s}, t.at? id = some s → s.id = id
  name_inj : ∀ {a b s s'}, t.at? a = some s → t.at? b = some s' → s.name = s'.name → a = b
  endMarker : ∃ s, t.at? endMarkerId = some s ∧ s.name = endMarkerName
  dense : t.Dense

namespace Lawful

theorem seated (lawful : t.Lawful) : t.Seated := ⟨lawful.id_eq, lawful.name_inj⟩

theorem find?_eq_some (lawful : t.Lawful) :
    t.find? name = some s ↔ t.at? s.id = some s ∧ s.name = name :=
  lawful.seated.find?_eq_some

theorem current?_eq (lawful : t.Lawful) (h : t.at? id = some s) : t.current? s = some s :=
  lawful.seated.current?_eq h

theorem get?_eq_some (lawful : t.Lawful) :
    t.get? name = some s ↔ t.at? s.id = some s ∧ s.name = name :=
  lawful.seated.get?_eq_some

theorem idOf_eq_ok (lawful : t.Lawful) {id : Int} :
    t.idOf name = .ok id ↔ ∃ s, t.at? id = some s ∧ s.name = name :=
  lawful.seated.idOf_eq_ok

end Lawful

theorem lawful_fresh : fresh.Lawful where
  id_eq := by
    intro id s h
    obtain ⟨i, rfl, slot⟩ := at?_eq_some.1 h
    match i with
    | 0 | 1 => cases slot
    | 2 => cases slot; rfl
    | i + 3 => cases slot
  name_inj := by
    intro a b s s' h h' _
    obtain ⟨i, rfl, slot⟩ := at?_eq_some.1 h
    obtain ⟨j, rfl, slot'⟩ := at?_eq_some.1 h'
    match i, j with
    | 0, _ | 1, _ | i + 3, _ => cases slot
    | 2, 0 | 2, 1 | 2, j + 3 => cases slot'
    | 2, 2 => rfl
  endMarker := ⟨_, rfl, rfl⟩
  dense := rfl

/-! ## Changes of a table -/

theorem at?_natCast (t : SymbolTable) (i : Nat) : t.at? i = (t.slots[i]?).join := by
  rw [at?, if_neg (Int.not_lt.2 (Int.natCast_nonneg i)), Int.toNat_natCast]

theorem at?_of_neg (negative : id < 0) : t.at? id = none := if_pos negative

theorem at?_update (t : SymbolTable) (s : Symbol) (id : Int) :
    (t.update s).at? id = (t.at? id).map fun x => if x.name = s.name then s else x := by
  by_cases negative : id < 0
  · simp [at?_of_neg negative]
  · obtain ⟨i, rfl⟩ := Int.eq_ofNat_of_zero_le (Int.not_lt.1 negative)
    simp only [at?_natCast, update, Array.getElem?_map]
    cases t.slots[i]? <;> rfl

theorem Seated.at?_update (seated : t.Seated) (h : t.at? s'.id = some s) (named : s'.name = s.name)
    (id : Int) : (t.update s').at? id = if id = s'.id then some s' else t.at? id := by
  rw [SymbolTable.at?_update]
  by_cases place : id = s'.id
  · simp [place, h, named]
  · rw [if_neg place]
    cases at_x : t.at? id with
    | none => rfl
    | some x =>
      have other : x.name ≠ s'.name := fun same => place (seated.name_inj at_x h (same.trans named))
      simp [other]

theorem Lawful.at?_update (lawful : t.Lawful) (h : t.at? s'.id = some s) (named : s'.name = s.name)
    (id : Int) : (t.update s').at? id = if id = s'.id then some s' else t.at? id :=
  lawful.seated.at?_update h named id

/-- A symbol that is replaced by one of the same identifier and name keeps its seat. -/
theorem Seated.update (seated : t.Seated) (h : t.at? s'.id = some s) (named : s'.name = s.name) :
    (t.update s').Seated where
  id_eq := by
    intro id x at_x
    rw [seated.at?_update h named] at at_x
    split at at_x
    · rename_i place
      cases at_x
      exact place.symm
    · exact seated.id_eq at_x
  name_inj := by
    -- The old symbols at both places have the names of the new ones.
    have before : ∀ {id x}, (t.update s').at? id = some x →
        ∃ y, t.at? id = some y ∧ y.name = x.name := by
      intro id x at_x
      rw [seated.at?_update h named] at at_x
      split at at_x
      · rename_i place
        cases at_x
        exact ⟨s, place ▸ h, named.symm⟩
      · exact ⟨x, at_x, rfl⟩
    intro a b x y at_a at_b same
    obtain ⟨x', at_x', name_x⟩ := before at_a
    obtain ⟨y', at_y', name_y⟩ := before at_b
    exact seated.name_inj at_x' at_y' (name_x.trans (same.trans name_y.symm))

/-- Slots that are added before the new one stay vacant. -/
theorem at?_install (t : SymbolTable) (slot : Nat) (s : Symbol) (id : Int) :
    (t.install slot s).at? id = if id = slot then some s else t.at? id := by
  cases id with
  | negSucc n =>
    have low : Int.negSucc n < 0 := Int.negSucc_lt_zero n
    rw [at?, at?, if_pos low, if_pos low, if_neg (by omega)]
  | ofNat i =>
    show (t.install slot s).at? (i : Int) = if (i : Int) = slot then some s else t.at? i
    rw [at?_natCast, at?_natCast, install, Array.getElem?_setIfInBounds, Array.size_append,
      Array.size_replicate]
    by_cases own : slot = i
    · rw [if_pos own, if_pos (by omega), if_pos (by omega)]
      rfl
    · rw [if_neg own, if_neg (by omega), Array.getElem?_append]
      split
      · rfl
      · rename_i outside
        rw [Array.getElem?_eq_none (Nat.not_lt.1 outside), Array.getElem?_replicate]
        split <;> rfl

theorem at?_install_size (t : SymbolTable) (s : Symbol) (id : Int) :
    (t.install t.slots.size s).at? id =
      if id = t.slots.size then some s else t.at? id :=
  t.at?_install t.slots.size s id

/-- A symbol with a new name takes its seat. -/
theorem Seated.install (seated : t.Seated) (fresh : t.find? s.name = none) {slot : Nat}
    (place : s.id = slot) : (t.install slot s).Seated where
  id_eq := by
    intro id x at_x
    rw [at?_install] at at_x
    split at at_x
    · rename_i last
      cases at_x
      rw [place, last]
    · exact seated.id_eq at_x
  name_inj := by
    have other := find?_eq_none.1 fresh
    intro a b x y at_a at_b same
    rw [at?_install] at at_a at_b
    split at at_a <;> split at at_b
    · omega
    · cases at_a
      exact absurd same.symm (other _ _ at_b)
    · cases at_b
      exact absurd same (other _ _ at_a)
    · exact seated.name_inj at_a at_b same

/-- The kinds that a call can give to a symbol. -/
def Declarable (kind : SymbolKind) : Prop := kind ≠ .endMarker ∧ kind ≠ .node

/-- The symbols of the first table are there in the second, and what is new has no productions. -/
structure Extends (t t' : SymbolTable) : Prop where
  old : ∀ {id s}, t.at? id = some s → ∃ s', t'.at? id = some s' ∧ s'.name = s.name ∧
    s'.productions = s.productions ∧ (s'.kind = s.kind ∨ s.kind = .unknown ∧ Declarable s'.kind)
  new : ∀ {id s'}, t'.at? id = some s' → t.at? id = none →
    s'.productions = [] ∧ Declarable s'.kind ∧ t.frozen = false
  frozen : t'.frozen = t.frozen

namespace Extends

theorem refl (t : SymbolTable) : t.Extends t where
  old := fun h => ⟨_, h, rfl, rfl, .inl rfl⟩
  new := fun h h' => by rw [h] at h'; cases h'
  frozen := rfl

/-- A symbol of the second table is one of the first or new. -/
theorem origin (h : t.Extends t') (at_s' : t'.at? id = some s') :
    (∃ s, t.at? id = some s ∧ s'.name = s.name ∧ s'.productions = s.productions ∧
      (s'.kind = s.kind ∨ s.kind = .unknown ∧ Declarable s'.kind)) ∨
    t.at? id = none ∧ s'.productions = [] ∧ Declarable s'.kind ∧ t.frozen = false := by
  cases before : t.at? id with
  | none => exact .inr ⟨rfl, h.new at_s' before⟩
  | some s =>
    obtain ⟨x, at_x, same⟩ := h.old before
    cases at_s'.symm.trans at_x
    exact .inl ⟨s, rfl, same⟩

theorem trans (h : t.Extends t') (h' : t'.Extends t'') : t.Extends t'' where
  old := by
    intro id s at_id
    obtain ⟨a, at_a, name_a, productions_a, kind_a⟩ := h.old at_id
    obtain ⟨b, at_b, name_b, productions_b, kind_b⟩ := h'.old at_a
    refine ⟨b, at_b, name_b.trans name_a, productions_b.trans productions_a, ?_⟩
    rcases kind_a with same | ⟨unknown, declarable⟩
    · rwa [same] at kind_b
    · rcases kind_b with same | ⟨-, declarable'⟩
      · exact .inr ⟨unknown, same ▸ declarable⟩
      · exact .inr ⟨unknown, declarable'⟩
  new := by
    intro id s at_id vacant
    rcases h'.origin at_id with ⟨a, at_a, -, productions_b, kind_b⟩ | ⟨-, productions, declarable, unfrozen⟩
    · obtain ⟨productions, declarable, unfrozen⟩ := h.new at_a vacant
      refine ⟨productions_b.trans productions, ?_, unfrozen⟩
      rcases kind_b with same | ⟨-, declarable'⟩
      · exact same ▸ declarable
      · exact declarable'
    · exact ⟨productions, declarable, h.frozen ▸ unfrozen⟩
  frozen := h'.frozen.trans h.frozen

/-- A registered symbol of another kind than unknown keeps its kind. -/
theorem keeps (h : t.Extends t') (at_s : t.at? id = some s) (known : s.kind ≠ .unknown) :
    ∃ s', t'.at? id = some s' ∧ s'.name = s.name ∧ s'.kind = s.kind := by
  obtain ⟨s', at_s', named, -, kinds⟩ := h.old at_s
  refine ⟨s', at_s', named, ?_⟩
  rcases kinds with same | ⟨unknown, -⟩
  · exact same
  · exact absurd unknown known

end Extends

/-- A symbol is replaced by one of the same identifier and name. -/
theorem Lawful.update (lawful : t.Lawful) (h : t.at? s'.id = some s) (named : s'.name = s.name) :
    (t.update s').Lawful where
  id_eq := (lawful.seated.update h named).id_eq
  name_inj := (lawful.seated.update h named).name_inj
  endMarker := by
    obtain ⟨x, at_x, name_x⟩ := lawful.endMarker
    rw [lawful.at?_update h named]
    split
    · rename_i place
      rw [← place, at_x] at h
      cases h
      exact ⟨s', rfl, named.trans name_x⟩
    · exact ⟨x, at_x, name_x⟩
  dense := lawful.dense.update s'

theorem Lawful.extends_update (lawful : t.Lawful) (h : t.at? s'.id = some s)
    (named : s'.name = s.name) (filed : s'.productions = s.productions)
    (kinds : s'.kind = s.kind ∨ s.kind = .unknown ∧ Declarable s'.kind) :
    t.Extends (t.update s') where
  old := by
    intro id x at_x
    rw [lawful.at?_update h named]
    split
    · rename_i place
      rw [place, h] at at_x
      cases at_x
      exact ⟨s', rfl, named, filed, kinds⟩
    · exact ⟨x, at_x, rfl, rfl, .inl rfl⟩
  new := by
    intro id x at_x vacant
    rw [lawful.at?_update h named] at at_x
    split at at_x
    · rename_i place
      rw [place, h] at vacant
      cases vacant
    · rw [vacant] at at_x
      cases at_x
  frozen := rfl

theorem at?_size (t : SymbolTable) : t.at? t.slots.size = none := by
  cases found : t.at? t.slots.size with
  | none => rfl
  | some s =>
    obtain ⟨i, hi, slot⟩ := at?_eq_some.1 found
    have inside := (Array.getElem?_eq_some_iff.1 slot).1
    omega

/-- A symbol with a new name takes the next identifier. -/
theorem Lawful.install (lawful : t.Lawful) (fresh : t.find? s.name = none)
    (place : s.id = t.slots.size) : (t.install t.slots.size s).Lawful where
  id_eq := (lawful.seated.install fresh place).id_eq
  name_inj := (lawful.seated.install fresh place).name_inj
  endMarker := by
    obtain ⟨x, at_x, name_x⟩ := lawful.endMarker
    refine ⟨x, ?_, name_x⟩
    rw [at?_install_size, if_neg, at_x]
    intro last
    rw [last, at?_size] at at_x
    cases at_x
  dense := lawful.dense.install s

theorem extends_install (unfrozen : t.frozen = false) (filed : s.productions = [])
    (kinds : Declarable s.kind) : t.Extends (t.install t.slots.size s) where
  old := by
    intro id x at_x
    refine ⟨x, ?_, rfl, rfl, .inl rfl⟩
    rw [at?_install_size, if_neg, at_x]
    intro last
    rw [last, at?_size] at at_x
    cases at_x
  new := by
    intro id x at_x vacant
    rw [at?_install_size] at at_x
    split at at_x
    · cases at_x
      exact ⟨filed, kinds, unfrozen⟩
    · rw [vacant] at at_x
      cases at_x
  frozen := rfl

/-- What a name is resolved to: its symbol, with its kind settled if it was open, or a new symbol. -/
theorem Lawful.resolve_cases (lawful : t.Lawful) (kinds : Declarable kind) :
    (∃ s t', t.resolve name kind = .ok (s, t') ∧ t'.Lawful ∧ t.Extends t' ∧
      t'.at? s.id = some s ∧ s.name = name) ∨
    t.resolve name kind = .error (.definition (.frozenTable name)) := by
  rw [resolve]
  cases found : t.find? name with
  | some s =>
    obtain ⟨at_s, named⟩ := lawful.find?_eq_some.1 found
    simp only [lawful.current?_eq at_s]
    by_cases settles : s.kind = .unknown ∧ kind ≠ .unknown
    · rw [if_pos settles]
      have h : t.at? ({ s with kind := kind } : Symbol).id = some s := at_s
      refine .inl ⟨_, _, rfl, lawful.update h rfl,
        lawful.extends_update h rfl rfl (.inr ⟨settles.1, kinds⟩), ?_, named⟩
      rw [lawful.at?_update h rfl, if_pos rfl]
    · rw [if_neg settles]
      exact .inl ⟨s, t, rfl, lawful, .refl t, at_s, named⟩
  | none =>
    cases frozen : t.frozen with
    | true => exact .inr rfl
    | false =>
      refine .inl ⟨_, _, rfl, lawful.install found rfl, extends_install frozen rfl kinds, ?_, rfl⟩
      rw [at?_install_size, if_pos rfl]

/-- A symbol behind a look-up was there before, or has the name and kind that were looked up. -/
theorem Lawful.origin_of_resolve (lawful : t.Lawful) (h : t.resolve name kind = .ok (s, t')) {id : Int}
    {y : Symbol} (at_y : t'.at? id = some y) :
    (∃ x, t.at? id = some x ∧ y.name = x.name ∧ y.kind = x.kind) ∨ y.name = name ∧ y.kind = kind := by
  rw [resolve] at h
  cases found : t.find? name with
  | some x =>
    obtain ⟨at_x, named⟩ := lawful.find?_eq_some.1 found
    simp only [found, lawful.current?_eq at_x] at h
    split at h
    · cases h
      have at_x : t.at? ({ x with kind := kind } : Symbol).id = some x := at_x
      rw [lawful.at?_update at_x rfl] at at_y
      split at at_y
      · cases at_y
        exact .inr ⟨named, rfl⟩
      · exact .inl ⟨y, at_y, rfl, rfl⟩
    · cases h
      exact .inl ⟨y, at_y, rfl, rfl⟩
  | none =>
    simp only [found] at h
    split at h
    · cases h
    · cases h
      rw [at?_install_size] at at_y
      split at at_y
      · cases at_y
        exact .inr ⟨rfl, rfl⟩
      · exact .inl ⟨y, at_y, rfl, rfl⟩

end ParserGenerator.SymbolTable
