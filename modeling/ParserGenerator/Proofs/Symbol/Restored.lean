import Mathlib.Data.List.Forall2
import ParserGenerator.Proofs.Symbol.Table

/-!
# Symbols from storage

A symbol from storage takes the seat of its identifier, which is vacant or holds the symbol of that name. The
symbols of a table are restored slot by slot, at first without any productions; slots that were skipped stay
vacant, and the end marker is there from the beginning.
-/

namespace ParserGenerator

namespace Symbol

/-- The symbol before any production is filed with it. -/
def bare (s : Symbol) : Symbol := { s with productions := [] }

/-- The symbol as it is registered at first. -/
def blank (s : Symbol) : Symbol := { name := s.name, id := s.id, kind := s.kind }

theorem eq_of_bare {s s' : Symbol} (h : s.bare = s'.bare) (productions : s.productions = s'.productions) :
    s = s' := by
  cases s
  cases s'
  simp only [bare, mk.injEq] at h productions ⊢
  simp [h, productions]

theorem kind_eq_of_bare {s s' : Symbol} (h : s.bare = s'.bare) : s.kind = s'.kind := (congrArg kind h :)

theorem name_eq_of_bare {s s' : Symbol} (h : s.bare = s'.bare) : s.name = s'.name := (congrArg name h :)

end Symbol

namespace SymbolTable

variable {t t' u : SymbolTable} {s s' x : Symbol} {n : Nat} {id : Int} {name : String} {kind : SymbolKind}

/-- Tables of one size that hold the same symbols have the same slots. -/
theorem slots_eq (size : t.slots.size = u.slots.size) (same : ∀ id, t.at? id = u.at? id) :
    t.slots = u.slots := by
  apply Array.ext size
  intro i inside inside'
  have entry := same i
  rw [at?_natCast, at?_natCast, Array.getElem?_eq_getElem inside, Array.getElem?_eq_getElem inside',
    Option.join_some, Option.join_some] at entry
  exact entry

/-- The last slot of a table without gaps holds a symbol. -/
theorem Lawful.exists_last (lawful : t.Lawful) :
    ∃ i : Nat, t.slots.size = i + 1 ∧ ∃ s, t.at? i = some s := by
  have slots : t.slots.toList = none :: none :: t.symbols.map some := lawful.dense
  have filled : t.symbols ≠ [] := by
    obtain ⟨s, at_s, -⟩ := lawful.endMarker
    exact List.ne_nil_of_mem (mem_symbols.2 ⟨_, at_s⟩)
  obtain ⟨front, last, parts⟩ := (List.eq_nil_or_concat' t.symbols).resolve_left filled
  refine ⟨front.length + 2, ?_, last, ?_⟩
  · rw [← Array.length_toList, slots, parts]
    simp
  · rw [at?_natCast, ← Array.getElem?_toList, slots, parts]
    simp

theorem size_update (t : SymbolTable) (s : Symbol) : (t.update s).slots.size = t.slots.size :=
  Array.size_map ..

theorem size_install (t : SymbolTable) (slot : Nat) (s : Symbol) :
    (t.install slot s).slots.size = max t.slots.size (slot + 1) := by
  rw [install, Array.size_setIfInBounds, Array.size_append, Array.size_replicate]
  omega

theorem Seated.update_self (seated : t.Seated) (at_s : t.at? s.id = some s) : t.update s = t := by
  have same : ∀ id, (t.update s).at? id = t.at? id := by
    intro id
    rw [seated.at?_update at_s rfl]
    split
    · rename_i place
      rw [place, at_s]
    · rfl
  show (⟨(t.update s).slots, t.frozen⟩ : SymbolTable) = t
  rw [slots_eq (size_update t s) same]

theorem at?_of_size_le (high : t.slots.size ≤ id) : t.at? id = none := by
  cases found : t.at? id with
  | none => rfl
  | some s =>
    obtain ⟨i, rfl, slot⟩ := at?_eq_some.1 found
    have := (Array.getElem?_eq_some_iff.1 slot).1
    omega

/-- The list of symbols depends on what stands in the slots only, not on how many there are. -/
theorem symbols_eq_range (t : SymbolTable) (h : t.slots.size ≤ n) :
    t.symbols = (List.range n).filterMap fun i : Nat => t.at? i := by
  have slots : (List.range n).map (fun i : Nat => t.at? i) =
      t.slots.toList ++ List.replicate (n - t.slots.size) none := by
    refine List.ext_getElem? fun i => ?_
    have slot : t.slots.toList[i]? = t.slots[i]? := Array.getElem?_toList
    rw [List.getElem?_map, List.getElem?_append, Array.length_toList, List.getElem?_replicate, slot]
    by_cases low : i < t.slots.size
    · rw [if_pos low, List.getElem?_range (by omega), Option.map_some, at?_natCast,
        Array.getElem?_eq_getElem low, Option.join_some]
    · rw [if_neg low]
      by_cases inside : i < n
      · rw [List.getElem?_range inside, if_pos (by omega), Option.map_some,
          at?_of_size_le (by omega)]
      · rw [if_neg (by omega), List.getElem?_eq_none (by simpa using Nat.not_lt.1 inside)]
        rfl
  have vacant : (List.replicate (n - t.slots.size) (none : Option Symbol)).filterMap id = [] := by
    rw [List.filterMap_eq_nil_iff]
    exact fun _ mem => (List.mem_replicate.1 mem).2
  have unfolded : ((List.range n).map fun i : Nat => t.at? i).filterMap id =
      (List.range n).filterMap fun i : Nat => t.at? i := List.filterMap_map
  rw [← unfolded, slots, List.filterMap_append, vacant, List.append_nil, symbols]

/-! ## One symbol -/

/-- The second table is the first one with the symbol in its seat. Where the seat was taken, it was by a symbol of
that name, whose productions are kept. -/
structure Seats (t : SymbolTable) (s : Symbol) (t' : SymbolTable) : Prop where
  seated : t'.Seated
  entry : ∀ id, t'.at? id = if id = s.id then some s else t.at? id
  old : ∀ {x}, t.at? s.id = some x → x.name = s.name ∧ s.productions = x.productions
  new : t.at? s.id = none → s.productions = []

theorem Seated.seats_update (seated : t.Seated) (at_s : t.at? s'.id = some s) (named : s'.name = s.name)
    (filed : s'.productions = s.productions) : t.Seats s' (t.update s') where
  seated := seated.update at_s named
  entry := seated.at?_update at_s named
  old := by
    intro x at_x
    rw [at_s] at at_x
    cases at_x
    exact ⟨named.symm, filed⟩
  new := by
    intro vacant
    rw [at_s] at vacant
    cases vacant

theorem Seated.seats_install (seated : t.Seated) (absent : t.find? s.name = none) (place : s.id = n)
    (vacant : t.at? n = none) (unfiled : s.productions = []) : t.Seats s (t.install n s) where
  seated := seated.install absent place
  entry := by
    rw [place]
    exact t.at?_install n s
  old := by
    intro x at_x
    rw [place, vacant] at at_x
    cases at_x
  new _ := unfiled

/-- What was put in a seat is replaced. -/
theorem Seats.update (h : t.Seats s u) (id_eq : s'.id = s.id) (named : s'.name = s.name)
    (filed : s'.productions = s.productions) : t.Seats s' (u.update s') := by
  have at_s : u.at? s'.id = some s := by rw [h.entry, if_pos id_eq]
  refine ⟨h.seated.update at_s named, fun id => ?_, fun at_x => ?_, fun vacant => ?_⟩
  · rw [h.seated.at?_update at_s named, h.entry, id_eq]
    split <;> rfl
  · rw [id_eq] at at_x
    rw [named, filed]
    exact h.old at_x
  · rw [id_eq] at vacant
    rw [filed]
    exact h.new vacant

theorem Seated.restore_of_found (seated : t.Seated) (at_x : t.at? id = some x) (named : x.name = name) :
    t.restore name id kind = .ok ({ x with kind := kind }, t.update { x with kind := kind }) := by
  have id_eq := seated.id_eq at_x
  have found : t.find? name = some x := seated.find?_eq_some.2 ⟨id_eq.symm ▸ at_x, named⟩
  rw [restore, found]
  simp only [seated.current?_eq at_x, if_neg (not_not.2 id_eq)]

theorem restore_of_absent (absent : t.find? name = none) (vacant : t.at? n = none) :
    t.restore name n kind = .ok ({ name := name, id := n, kind := kind },
      t.install n { name := name, id := n, kind := kind }) := by
  rw [restore, absent]
  simp only
  by_cases inside : (n : Int) < t.slots.size
  · have place : t.slotOf? n = some n := by
      rw [slotOf?]
      simp [inside, Int.not_lt.2 (Int.natCast_nonneg n)]
    rw [at?_natCast] at vacant
    rw [if_pos inside, place]
    simp only [vacant]
  · rw [if_neg inside, Int.toNat_natCast]

/-- A symbol that is restored under a natural identifier takes its seat. -/
theorem Seated.seats_restore (seated : t.Seated) (natural : 0 ≤ id)
    (restored : t.restore name id kind = .ok (s, t')) : t.Seats s t' := by
  cases found : t.find? name with
  | some x =>
    obtain ⟨at_x, named⟩ := seated.find?_eq_some.1 found
    by_cases place : x.id = id
    · rw [seated.restore_of_found (place ▸ at_x) named] at restored
      cases restored
      exact seated.seats_update at_x rfl rfl
    · rw [restore, found] at restored
      simp only [seated.current?_eq at_x, if_pos place] at restored
      cases restored
  | none =>
    obtain ⟨n, rfl⟩ := Int.eq_ofNat_of_zero_le natural
    cases vacant : t.at? n with
    | none =>
      rw [restore_of_absent found vacant] at restored
      cases restored
      exact seated.seats_install found rfl vacant rfl
    | some holder =>
      obtain ⟨i, eq, slot⟩ := at?_eq_some.1 vacant
      obtain rfl : n = i := by omega
      have inside : n < t.slots.size := (Array.getElem?_eq_some_iff.1 slot).1
      have place : t.slotOf? n = some n := by
        rw [slotOf?]
        simp [inside, Int.not_lt.2 (Int.natCast_nonneg n)]
      have taken : (t.slots[n]?).join = some holder := by rw [slot]; rfl
      rw [restore, found] at restored
      simp only [if_pos (Int.ofNat_lt.2 inside), place, taken] at restored
      cases restored

/-! ## All symbols of a table -/

/-- The table holds the symbols of another one below a number, without productions; the rest of it is new. -/
structure Restored (t : SymbolTable) (n : Nat) (u : SymbolTable) : Prop where
  seated : u.Seated
  unfrozen : u.frozen = false
  size : u.slots.size ≤ max 3 n
  low : ∀ id : Int, id < n → u.at? id = (t.at? id).map Symbol.bare
  high : ∀ id : Int, n ≤ id → u.at? id = fresh.at? id

theorem at?_fresh (id : Int) : fresh.at? id = if id = endMarkerId then
    some { name := endMarkerName, id := endMarkerId, kind := .endMarker } else none := by
  by_cases own : id = endMarkerId
  · rw [if_pos own, own]
    rfl
  · rw [if_neg own]
    cases found : fresh.at? id with
    | none => rfl
    | some s =>
      obtain ⟨i, rfl, slot⟩ := at?_eq_some.1 found
      match i with
      | 0 | 1 => cases slot
      | 2 => exact absurd rfl own
      | i + 3 => cases slot

theorem restored_fresh (t : SymbolTable) : t.Restored 0 .fresh where
  seated := lawful_fresh.seated
  unfrozen := rfl
  size := Nat.le_refl 3
  low := by
    intro id negative
    rw [at?_of_neg negative, at?_of_neg negative]
    rfl
  high _ _ := rfl

section

variable (seated : t.Seated) (endMarker : ∃ s, t.at? endMarkerId = some s ∧ s.name = endMarkerName)

theorem Restored.at?_eq (h : t.Restored t.slots.size u) (endMarker : ∃ s, t.at? endMarkerId = some s)
    (id : Int) : u.at? id = (t.at? id).map Symbol.bare := by
  by_cases low : id < t.slots.size
  · exact h.low id low
  · have high : t.slots.size ≤ id := Int.not_lt.1 low
    rw [at?_of_size_le high, h.high id high, at?_fresh, if_neg]
    · rfl
    · rintro rfl
      obtain ⟨s, at_s⟩ := endMarker
      rw [at?_of_size_le high] at at_s
      cases at_s

/-- A slot that was skipped stays vacant. -/
theorem Restored.skip (h : t.Restored n u) (endMarker : ∃ s, t.at? endMarkerId = some s)
    (vacant : t.at? n = none) : t.Restored (n + 1) u where
  seated := h.seated
  unfrozen := h.unfrozen
  size := Nat.le_trans h.size (by omega)
  low := by
    intro id low
    by_cases last : id = n
    · have other : (n : Int) ≠ endMarkerId := by
        intro own
        obtain ⟨s, at_s⟩ := endMarker
        rw [← own, vacant] at at_s
        cases at_s
      rw [last, h.high n (Int.le_refl _), at?_fresh, if_neg other, vacant]
      rfl
    · exact h.low id (by omega)
  high id high := h.high id (by omega)

include seated endMarker

/-- The next symbol takes its seat, which is vacant unless it is the end marker's. -/
theorem Restored.exists_seats (h : t.Restored n u) (at_s : t.at? n = some s) :
    ∃ u', u.restore s.name s.id s.kind = .ok (s.blank, u') ∧ u.Seats s.blank u' ∧
      u'.frozen = false ∧ u'.slots.size ≤ max 3 (n + 1) := by
  have place : s.id = n := seated.id_eq at_s
  obtain ⟨e, at_e, named⟩ := endMarker
  by_cases own : (n : Int) = endMarkerId
  · rw [own, at_e] at at_s
    cases at_s
    have there : u.at? endMarkerId =
        some { name := endMarkerName, id := endMarkerId, kind := .endMarker } := by
      rw [h.high _ (Int.le_of_eq own), at?_fresh, if_pos rfl]
    have blank : s.blank = { name := endMarkerName, id := endMarkerId, kind := s.kind } := by
      rw [Symbol.blank, named, place, own]
    refine ⟨u.update s.blank, ?_, ?_, h.unfrozen, ?_⟩
    · rw [blank, named, place, own]
      exact h.seated.restore_of_found there rfl
    · rw [blank]
      exact h.seated.seats_update (s := { name := endMarkerName, id := endMarkerId, kind := .endMarker })
        there rfl rfl
    · rw [size_update]
      exact Nat.le_trans h.size (by omega)
  · have vacant : u.at? n = none := by rw [h.high _ (Int.le_refl _), at?_fresh, if_neg own]
    have absent : u.find? s.name = none := by
      rw [find?_eq_none]
      intro id x at_x same
      by_cases low : id < n
      · rw [h.low id low, Option.map_eq_some_iff] at at_x
        obtain ⟨y, at_y, rfl⟩ := at_x
        have := seated.name_inj at_y at_s same
        omega
      · rw [h.high id (Int.not_lt.1 low), at?_fresh] at at_x
        split at at_x
        · cases at_x
          exact own (seated.name_inj at_s at_e (same.symm.trans named.symm))
        · cases at_x
    have blank : s.blank = { name := s.name, id := n, kind := s.kind } := by rw [Symbol.blank, place]
    refine ⟨u.install n s.blank, ?_, h.seated.seats_install absent place vacant rfl, h.unfrozen, ?_⟩
    · rw [blank, place]
      exact restore_of_absent absent vacant
    · rw [size_install]
      exact Nat.max_le.2 ⟨Nat.le_trans h.size (by omega), by omega⟩

/-- The next symbol is restored with all it has but its productions. -/
theorem Restored.seat (h : t.Restored n u) (at_s : t.at? n = some s) :
    ∃ u', u.restore s.name s.id s.kind = .ok (s.blank, u') ∧ t.Restored (n + 1) (u'.update s.bare) := by
  have place : s.bare.id = n := (show s.id = n from seated.id_eq at_s)
  obtain ⟨u', restored, seats, unfrozen, size⟩ := h.exists_seats seated endMarker at_s
  have seats : u.Seats s.bare (u'.update s.bare) := seats.update rfl rfl rfl
  refine ⟨u', restored, seats.seated, unfrozen, (size_update u' s.bare).symm ▸ size, ?_, ?_⟩
  · intro id low
    rw [seats.entry]
    by_cases last : id = n
    · rw [if_pos (last.trans place.symm), last, at_s]
      rfl
    · rw [if_neg (place.symm ▸ last), h.low id (by omega)]
  · intro id high
    rw [seats.entry, if_neg (by omega), h.high id (by omega)]

end

end SymbolTable

end ParserGenerator
