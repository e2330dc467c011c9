import ParserGenerator.Grammar.Close
import ParserGenerator.Proofs.Collection.OrderedMap
import ParserGenerator.Proofs.Grammar.Build
import ParserGenerator.Proofs.Symbol.Table

/-!
# Lawful grammars

In a lawful grammar every production is filed under its number and with its left-hand side, and uses
registered symbols only. An open grammar is lawful and still takes productions; a settled one is closed:
its productions are listed by number, every symbol is known, and production 0, which was filed last,
leads from the start marker to the start symbol. A grammar grows when its symbols are extended and all
else stays that matters.
-/

namespace ParserGenerator.Grammar

open SymbolTable (Declarable)

structure Lawful (g : Grammar) : Prop where
  table : g.symbols.Lawful
  kinds : ∀ {id s}, g.symbols.at? id = some s →
    s.kind = .endMarker ∧ id = endMarkerId ∨ Declarable s.kind ∧ id ≠ endMarkerId
  number_eq : ∀ {n p}, g.byNumber.get? n = some p → p.number = n
  left : ∀ {n p}, g.byNumber.get? n = some p →
    ∃ s, g.symbols.at? p.left = some s ∧ s.kind = .nonterminal
  right : ∀ {n p}, g.byNumber.get? n = some p → ∀ id ∈ p.right,
    id ≠ endMarkerId ∧ ∃ s, g.symbols.at? id = some s
  filed : ∀ {id s}, g.symbols.at? id = some s →
    s.productions = (g.byNumber.values.filter (·.left = id)).map Production.number

/-- A grammar that takes productions. The productions are numbered from 1 on, and the start marker is not
in use. -/
structure Open (g : Grammar) : Prop extends Lawful g where
  closed : g.closed = false
  frozen : g.symbols.frozen = false
  unmarked : g.symbols.find? startMarkerName = none
  facts : g.facts = {}
  numbered : ∃ n : Nat, g.nextNumber = n + 1 ∧
    g.byNumber.keys = (List.range n).map fun i : Nat => (i : Int) + 1

/-- A closed grammar, with its start marker and its start symbol. -/
structure Settled (g : Grammar) (marker start : Int) : Prop extends Lawful g where
  closed : g.closed = true
  frozen : g.symbols.frozen = true
  known : ∀ {id s}, g.symbols.at? id = some s → s.kind ≠ .unknown
  listed : ∀ i : Nat, g.productions[i]? = g.byNumber.get? i
  natural : ∀ {n p}, g.byNumber.get? n = some p → ∃ i : Nat, n = i
  counted : g.productionCount = g.productions.size
  ordered : ∃ n, g.byNumber.keys = (List.range n).map (fun i : Nat => (i : Int) + 1) ++ [0]
  produced : ∀ {id s}, g.symbols.at? id = some s → s.kind = .nonterminal → s.productions ≠ []
  marker_kind : ∃ s, g.symbols.at? marker = some s ∧ s.kind = .nonterminal
  marker_name : ∃ s, g.symbols.at? marker = some s ∧ s.name = startMarkerName
  start_kind : ∃ s, g.symbols.at? start = some s ∧ s.kind = .nonterminal
  start_name : ∃ s name, g.symbols.at? start = some s ∧ g.start = some name ∧ s.name = name
  zero : g.byNumber.get? 0 = some ⟨0, marker, [start], none, none⟩
  marker_left : ∀ {n p}, g.byNumber.get? n = some p → p.left = marker → n = 0
  marker_right : ∀ {n p}, g.byNumber.get? n = some p → marker ∉ p.right

variable {g g' g'' : Grammar} {marker start : Int}

theorem mem_sortedProductions {p : Production} :
    p ∈ g.sortedProductions ↔ ∃ n, g.byNumber.get? n = some p := by
  rw [sortedProductions, mem_sortBy, OrderedMap.mem_values]

/-- Productions are filed under their numbers. -/
theorem Lawful.map_number_values (sound : g.Lawful) :
    g.byNumber.values.map Production.number = g.byNumber.keys := by
  rw [OrderedMap.values, OrderedMap.keys, List.map_map]
  exact List.map_congr_left fun e mem => sound.number_eq (OrderedMap.mem_toList.1 mem)

theorem open_fresh : Open .fresh where
  table := SymbolTable.lawful_fresh
  kinds := by
    intro id s h
    obtain ⟨i, rfl, slot⟩ := SymbolTable.at?_eq_some.1 h
    match i with
    | 0 | 1 => cases slot
    | 2 => cases slot; exact .inl ⟨rfl, rfl⟩
    | i + 3 => cases slot
  number_eq := nofun
  left := nofun
  right := nofun
  filed := by
    intro id s h
    obtain ⟨i, rfl, slot⟩ := SymbolTable.at?_eq_some.1 h
    match i with
    | 0 | 1 => cases slot
    | 2 => cases slot; rfl
    | i + 3 => cases slot
  closed := rfl
  frozen := rfl
  unmarked := rfl
  facts := rfl
  numbered := ⟨0, rfl, rfl⟩

theorem Settled.idOf_marker (settled : g.Settled marker start) : g.idOfStartMarker = .ok marker :=
  settled.table.idOf_eq_ok.2 settled.marker_name

theorem Settled.idOf_start (settled : g.Settled marker start) : g.idOfStart = .ok start := by
  obtain ⟨s, name, at_s, chosen, named⟩ := settled.start_name
  unfold idOfStart
  rw [chosen]
  exact settled.table.idOf_eq_ok.2 ⟨s, at_s, named⟩

/-- With an extended symbol table and the same productions a grammar stays lawful. -/
theorem Lawful.extend (sound : g.Lawful) (lawful : g'.symbols.Lawful)
    (extended : g.symbols.Extends g'.symbols) (byNumber : g'.byNumber = g.byNumber) :
    g'.Lawful where
  table := lawful
  kinds := by
    intro id s' at_s'
    rcases extended.origin at_s' with ⟨s, at_s, -, -, same | ⟨unknown, declarable⟩⟩ | ⟨vacant, -, declarable, -⟩
    · rw [same]
      exact sound.kinds at_s
    · rcases sound.kinds at_s with ⟨ended, -⟩ | ⟨-, other⟩
      · cases unknown.symm.trans ended
      · exact .inr ⟨declarable, other⟩
    · refine .inr ⟨declarable, ?_⟩
      rintro rfl
      obtain ⟨s, at_s, -⟩ := sound.table.endMarker
      cases vacant.symm.trans at_s
  number_eq := by
    rw [byNumber]
    exact sound.number_eq
  left := by
    rw [byNumber]
    intro n p hp
    obtain ⟨s, at_s, kind⟩ := sound.left hp
    obtain ⟨s', at_s', -, same⟩ := extended.keeps at_s (by rw [kind]; decide)
    exact ⟨s', at_s', same.trans kind⟩
  right := by
    rw [byNumber]
    intro n p hp id hid
    obtain ⟨other, s, at_s⟩ := sound.right hp id hid
    obtain ⟨s', at_s', -⟩ := extended.old at_s
    exact ⟨other, s', at_s'⟩
  filed := by
    rw [byNumber]
    intro id s' at_s'
    rcases extended.origin at_s' with ⟨s, at_s, -, filed, -⟩ | ⟨vacant, empty, -⟩
    · rw [filed]
      exact sound.filed at_s
    · rw [empty, eq_comm, List.map_eq_nil_iff, List.filter_eq_nil_iff]
      intro p hp left
      obtain ⟨n, hn⟩ := OrderedMap.mem_values.1 hp
      obtain ⟨s, at_s, -⟩ := sound.left hn
      rw [of_decide_eq_true left, vacant] at at_s
      cases at_s

/-! ## Growth -/

/-- A change of the symbols that registers names and settles kinds, and of declarations. -/
structure Grows (g g' : Grammar) : Prop where
  lawful : g'.symbols.Lawful
  extended : g.symbols.Extends g'.symbols
  unmarked : g.symbols.find? startMarkerName = none → g'.symbols.find? startMarkerName = none
  byNumber : g'.byNumber = g.byNumber
  productions : g'.productions = g.productions
  nextNumber : g'.nextNumber = g.nextNumber
  closed : g'.closed = g.closed
  start : g'.start = g.start
  facts : g'.facts = g.facts

namespace Grows

theorem refl (lawful : g.symbols.Lawful) : g.Grows g :=
  ⟨lawful, .refl _, id, rfl, rfl, rfl, rfl, rfl, rfl⟩

theorem trans (h : g.Grows g') (h' : g'.Grows g'') : g.Grows g'' where
  lawful := h'.lawful
  extended := h.extended.trans h'.extended
  unmarked := fun free => h'.unmarked (h.unmarked free)
  byNumber := h'.byNumber.trans h.byNumber
  productions := h'.productions.trans h.productions
  nextNumber := h'.nextNumber.trans h.nextNumber
  closed := h'.closed.trans h.closed
  start := h'.start.trans h.start
  facts := h'.facts.trans h.facts

/-- A registered symbol of another kind than unknown keeps its kind. -/
theorem keeps (h : g.Grows g') {id : Int} {s : Symbol} (at_s : g.symbols.at? id = some s)
    (known : s.kind ≠ .unknown) :
    ∃ s', g'.symbols.at? id = some s' ∧ s'.name = s.name ∧ s'.kind = s.kind :=
  h.extended.keeps at_s known

theorem lawful_of_lawful (h : g.Grows g') (sound : g.Lawful) : g'.Lawful :=
  sound.extend h.lawful h.extended h.byNumber

theorem open_of_open (h : g.Grows g') (sound : g.Open) : g'.Open where
  toLawful := h.lawful_of_lawful sound.toLawful
  closed := h.closed.trans sound.closed
  frozen := h.extended.frozen.trans sound.frozen
  unmarked := h.unmarked sound.unmarked
  facts := h.facts.trans sound.facts
  numbered := by
    rw [h.byNumber, h.nextNumber]
    exact sound.numbered

/-- What is registered in a grown grammar was registered before, if that was frozen. -/
theorem before_of_frozen (h : g.Grows g') (frozen : g.symbols.frozen = true) {id : Int} {s' : Symbol}
    (at_s' : g'.symbols.at? id = some s') : ∃ s, g.symbols.at? id = some s ∧ s'.name = s.name ∧
      s'.productions = s.productions ∧ (s'.kind = s.kind ∨ s.kind = .unknown ∧ Declarable s'.kind) := by
  rcases h.extended.origin at_s' with old | ⟨-, -, -, unfrozen⟩
  · exact old
  · cases frozen.symm.trans unfrozen

theorem settled_of_settled (h : g.Grows g') (sound : g.Settled marker start) :
    g'.Settled marker start where
  toLawful := h.lawful_of_lawful sound.toLawful
  closed := h.closed.trans sound.closed
  frozen := h.extended.frozen.trans sound.frozen
  known := by
    intro id s' at_s'
    obtain ⟨s, at_s, -, -, same | ⟨unknown, -⟩⟩ := h.before_of_frozen sound.frozen at_s'
    · rw [same]
      exact sound.known at_s
    · exact absurd unknown (sound.known at_s)
  listed := by
    rw [h.productions, h.byNumber]
    exact sound.listed
  natural := by
    rw [h.byNumber]
    exact sound.natural
  counted := by
    rw [productionCount, h.productions, h.byNumber]
    exact sound.counted
  ordered := by
    rw [h.byNumber]
    exact sound.ordered
  produced := by
    intro id s' at_s' kind
    obtain ⟨s, at_s, -, filed, same | ⟨unknown, -⟩⟩ := h.before_of_frozen sound.frozen at_s'
    · rw [filed]
      exact sound.produced at_s (same ▸ kind)
    · exact absurd unknown (sound.known at_s)
  marker_kind := by
    obtain ⟨s, at_s, kind⟩ := sound.marker_kind
    obtain ⟨s', at_s', -, same⟩ := h.keeps at_s (sound.known at_s)
    exact ⟨s', at_s', same.trans kind⟩
  marker_name := by
    obtain ⟨s, at_s, named⟩ := sound.marker_name
    obtain ⟨s', at_s', same, -⟩ := h.keeps at_s (sound.known at_s)
    exact ⟨s', at_s', same.trans named⟩
  start_kind := by
    obtain ⟨s, at_s, kind⟩ := sound.start_kind
    obtain ⟨s', at_s', -, same⟩ := h.keeps at_s (sound.known at_s)
    exact ⟨s', at_s', same.trans kind⟩
  start_name := by
    obtain ⟨s, name, at_s, chosen, named⟩ := sound.start_name
    obtain ⟨s', at_s', same, -⟩ := h.keeps at_s (sound.known at_s)
    exact ⟨s', name, at_s', h.start.trans chosen, same.trans named⟩
  zero := by
    rw [h.byNumber]
    exact sound.zero
  marker_left := by
    rw [h.byNumber]
    exact sound.marker_left
  marker_right := by
    rw [h.byNumber]
    exact sound.marker_right

end Grows

end ParserGenerator.Grammar
