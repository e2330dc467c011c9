import ParserGenerator.Proofs.Grammar.Calls
import ParserGenerator.Proofs.Grammar.Order
import ParserGenerator.Proofs.Storage.Storable
import ParserGenerator.Storage.Stream

/-!
# A grammar is made again from its parts

The symbols of a grammar that can be stored are registered again under their identifiers, at first without
any productions; each production is then filed under its number and with its left-hand side. Closing changes
nothing but the list of productions, since the precedences are in place and production 0 is there.
-/

namespace ParserGenerator.Storage

open Build Grammar
open SymbolTable (Restored)

variable {t u : SymbolTable} {g g' k : Grammar} {s : Symbol} {n : Nat} {marker start : Int} {name : String}

/-! ## Symbols and labels -/

theorem parsePrecedence_eq (p : Precedence) :
    parsePrecedence (p.associativity.name, p.level) g = .ok p g := by
  rw [parsePrecedence, Associativity.ofName?_name]
  rfl

theorem restoreSymbol_eq
    (restored : k.symbols.restore s.name s.id s.kind = .ok (s.blank, u)) :
    restoreSymbol (.ofSymbol s) k = .ok () { k with symbols := u.update s.bare } := by
  have found : SymbolKind.ofTag? (SymbolRecord.ofSymbol s).tag = some s.kind :=
    SymbolKind.ofTag?_tag s.kind
  rw [restoreSymbol, found]
  refine bind_eq_ok.2 ⟨s.blank, { k with symbols := u }, onSymbols_eq restored, ?_⟩
  cases declared : s.precedence with
  | none =>
    have absent : (SymbolRecord.ofSymbol s).precedence = none := by
      rw [SymbolRecord.ofSymbol, declared]
      rfl
    have made : s.bare =
        { s.blank with initialiser := s.initialiser, actionText := s.actionText } := by
      rw [Symbol.bare, declared]
      rfl
    rw [made]
    simp only [absent]
    rfl
  | some p =>
    have stored : (SymbolRecord.ofSymbol s).precedence = some (p.associativity.name, p.level) := by
      rw [SymbolRecord.ofSymbol, declared]
      rfl
    have made : s.bare = { s.blank with
        initialiser := s.initialiser, actionText := s.actionText, precedence := some p } := by
      rw [Symbol.bare, declared]
      rfl
    rw [made]
    simp only [stored]
    exact bind_eq_ok.2 ⟨p, _, parsePrecedence_eq p, rfl⟩

section

variable (seated : t.Seated) (endMarker : ∃ s, t.at? endMarkerId = some s ∧ s.name = endMarkerName)
include seated endMarker

/-- The symbols in the slots from a number on are registered one after the other. -/
theorem restoreSymbols_from {slots : List (Option Symbol)} (listed : ∀ i, slots[i]? = t.slots[n + i]?)
    (h : t.Restored n k.symbols) :
    ∃ u, ((slots.filterMap id).map SymbolRecord.ofSymbol).forM restoreSymbol k =
        .ok () { k with symbols := u } ∧ t.Restored (n + slots.length) u := by
  induction slots generalizing n k with
  | nil => exact ⟨k.symbols, rfl, h⟩
  | cons slot slots ih =>
    have here : t.at? n = slot := by
      rw [SymbolTable.at?_natCast, ← Nat.add_zero n, ← listed 0]
      rfl
    have later : ∀ i, slots[i]? = t.slots[n + 1 + i]? := by
      intro i
      rw [Nat.add_right_comm]
      exact listed (i + 1)
    have length : n + 1 + slots.length = n + (slot :: slots).length := by
      rw [List.length_cons]
      omega
    cases slot with
    | none =>
      obtain ⟨e, at_e, -⟩ := endMarker
      rw [← length]
      exact ih later (h.skip ⟨e, at_e⟩ here)
    | some s =>
      obtain ⟨u', restored, next⟩ := h.seat seated endMarker here
      obtain ⟨u, rest, all⟩ := ih later (k := { k with symbols := u'.update s.bare }) next
      rw [← length]
      exact ⟨u, bind_eq_ok.2 ⟨(), _, restoreSymbol_eq restored, rest⟩, all⟩

/-- All symbols of a table are registered again. -/
theorem restoreSymbols :
    ∃ u, (t.symbols.map SymbolRecord.ofSymbol).forM restoreSymbol .fresh =
        .ok () { Grammar.fresh with symbols := u } ∧ t.Restored t.slots.size u := by
  have listed : ∀ i, t.slots.toList[i]? = t.slots[0 + i]? := by
    intro i
    rw [Nat.zero_add, Array.getElem?_toList]
  obtain ⟨u, restored, all⟩ := restoreSymbols_from seated endMarker listed (k := .fresh)
    (SymbolTable.restored_fresh t)
  rw [Array.length_toList, Nat.zero_add] at all
  exact ⟨u, restored, all⟩

end

/-- The labels are declared again in the same order. -/
theorem restoreLabels {es : List (String × Precedence)} :
    (es.map fun (l, p) => (l, p.associativity.name, p.level)).forM restoreLabel k =
      .ok () { k with labels := es.foldl (fun m e => m.insert e.1 e.2) k.labels } := by
  induction es generalizing k with
  | nil => rfl
  | cons e es ih =>
    have step : restoreLabel (e.1, e.2.associativity.name, e.2.level) k =
        .ok () { k with labels := k.labels.insert e.1 e.2 } :=
      bind_eq_ok.2 ⟨e.2, k, parsePrecedence_eq e.2, rfl⟩
    exact bind_eq_ok.2 ⟨(), _, step, ih⟩

/-! ## Productions -/

/-- The grammar holds the symbols of another one and has filed the given productions. -/
structure Refiled (g k : Grammar) (ps : List Production) : Prop where
  seated : k.symbols.Seated
  size : k.symbols.slots.size ≤ g.symbols.slots.size
  unfrozen : k.symbols.frozen = false
  bare : ∀ id, (k.symbols.at? id).map Symbol.bare = (g.symbols.at? id).map Symbol.bare
  entries : k.byNumber.toList = ps.map fun p => (p.number, p)
  filed : ∀ {id s}, k.symbols.at? id = some s →
    s.productions = (ps.filter (·.left = id)).map Production.number

theorem refiled_nil (gathered : g.Gathered) (h : g.symbols.Restored g.symbols.slots.size k.symbols)
    (unfiled : k.byNumber = ∅) : Refiled g k [] := by
  obtain ⟨e, at_e, -⟩ := gathered.endMarker
  have same := h.at?_eq ⟨e, at_e⟩
  exact {
    seated := h.seated
    size := by
      obtain ⟨i, own, slot⟩ := SymbolTable.at?_eq_some.1 at_e
      have inside := (Array.getElem?_eq_some_iff.1 slot).1
      have := h.size
      have : endMarkerId = 2 := rfl
      omega
    unfrozen := h.unfrozen
    bare := by
      intro id
      rw [same, Option.map_map]
      rfl
    entries := by
      rw [unfiled]
      rfl
    filed := by
      intro id s at_s
      rw [same, Option.map_eq_some_iff] at at_s
      obtain ⟨x, -, rfl⟩ := at_s
      rfl }

namespace Refiled

variable {p : Production} {ps qs : List Production}

theorem exists_symbol (h : Refiled g k ps) {id : Int} {x : Symbol} (at_x : g.symbols.at? id = some x) :
    ∃ y, k.symbols.at? id = some y ∧ y.bare = x.bare := by
  have same := h.bare id
  rw [at_x, Option.map_some, Option.map_eq_some_iff] at same
  exact same

theorem exists_original (h : Refiled g k ps) {id : Int} {y : Symbol} (at_y : k.symbols.at? id = some y) :
    ∃ x, g.symbols.at? id = some x ∧ y.bare = x.bare := by
  have same := (h.bare id).symm
  rw [at_y, Option.map_some, Option.map_eq_some_iff] at same
  obtain ⟨x, at_x, eq⟩ := same
  exact ⟨x, at_x, eq.symm⟩

theorem keys_eq (h : Refiled g k ps) : k.byNumber.keys = ps.map Production.number := by
  rw [OrderedMap.keys, h.entries, List.map_map]
  rfl

theorem values_eq (h : Refiled g k ps) : k.byNumber.values = ps := by
  rw [OrderedMap.values, h.entries, List.map_map]
  exact List.map_id' ps

/-- A production is filed if its number is new. -/
theorem restoreProduction (h : Refiled g k ps) (left : ∃ s, g.symbols.at? p.left = some s)
    (new : p.number ∉ ps.map Production.number) :
    ∃ k', Grammar.restoreProduction p k = .ok p k' ∧ Refiled g k' (ps ++ [p]) ∧
      ∃ u m n, k' = { k with symbols := u, byNumber := m, nextNumber := n } := by
  have absent : k.byNumber.get? p.number = none := OrderedMap.get?_eq_none.2 (h.keys_eq ▸ new)
  obtain ⟨x, at_x⟩ := left
  obtain ⟨s, at_s, -⟩ := h.exists_symbol at_x
  have after := at?_withProduction h.seated at_s
  have place : k.symbols.at? ({ s with productions := s.productions ++ [p.number] } : Symbol).id = some s :=
    (h.seated.id_eq at_s).symm ▸ at_s
  refine ⟨{ k.withProduction p s with nextNumber := max k.nextNumber (p.number + 1) },
    bind_eq_ok.2 ⟨(), _, register_eq absent at_s, rfl⟩, ?_, _, _, _, rfl⟩
  exact {
    seated := h.seated.update place rfl
    size := Nat.le_trans (Nat.le_of_eq (SymbolTable.size_update _ _)) h.size
    unfrozen := h.unfrozen
    bare := by
      intro id
      show ((k.withProduction p s).symbols.at? id).map Symbol.bare = _
      rw [after, ← h.bare]
      split
      · rename_i place
        rw [place, at_s]
        rfl
      · rfl
    entries := by
      show (k.byNumber.insert p.number p).toList = _
      rw [OrderedMap.toList_insert absent, h.entries, List.map_append]
      rfl
    filed := by
      intro id y at_y
      have at_y : (k.withProduction p s).symbols.at? id = some y := at_y
      rw [after] at at_y
      rw [List.filter_append, List.map_append]
      by_cases own : id = p.left
      · rw [if_pos own] at at_y
        cases at_y
        rw [h.filed at_s, ← own]
        simp [own]
      · rw [if_neg own] at at_y
        have other : p.left ≠ id := fun eq => own eq.symm
        rw [h.filed at_y]
        simp [other] }

theorem restoreProductions (h : Refiled g k ps) (left : ∀ p ∈ qs, ∃ s, g.symbols.at? p.left = some s)
    (distinct : ((ps ++ qs).map Production.number).Nodup) :
    ∃ k', (qs.forM fun p => do let _ ← Grammar.restoreProduction p) k = .ok () k' ∧
      Refiled g k' (ps ++ qs) ∧ ∃ u m n, k' = { k with symbols := u, byNumber := m, nextNumber := n } := by
  induction qs generalizing k ps with
  | nil => exact ⟨k, rfl, by rwa [List.append_nil], _, _, _, rfl⟩
  | cons q qs ih =>
    obtain ⟨first, later⟩ := List.forall_mem_cons.1 left
    have new : q.number ∉ ps.map Production.number := by
      intro mem
      rw [List.map_append, List.nodup_append] at distinct
      exact distinct.2.2 _ mem _ (List.mem_map_of_mem List.mem_cons_self) rfl
    obtain ⟨k₁, step, h₁, u, m, n, rfl⟩ := h.restoreProduction first new
    rw [List.append_cons] at distinct
    obtain ⟨k₂, rest, h₂, u', m', n', rfl⟩ := ih h₁ later distinct
    refine ⟨_, bind_eq_ok.2 ⟨(), _, bind_eq_ok.2 ⟨q, _, step, rfl⟩, rest⟩, ?_, _, _, _, rfl⟩
    rw [List.append_cons]
    exact h₂

/-! ## Closing again -/

section

variable (h : Refiled g k g.sortedProductions) (storable : g.Storable name)
include h storable

theorem get?_eq (n : Int) : k.byNumber.get? n = g.byNumber.get? n := by
  apply OrderedMap.get?_eq_of_entries
  intro p
  rw [h.entries, List.mem_map]
  constructor
  · rintro ⟨p', mem, eq⟩
    cases eq
    exact storable.get?_of_mem_sorted mem
  · intro hp
    refine ⟨p, mem_sortedProductions.2 ⟨n, hp⟩, ?_⟩
    rw [storable.number_eq hp]

theorem checkKnown_eq {p : Production} (mem : p ∈ g.sortedProductions) : k.checkKnown p = .ok () := by
  rw [checkKnown, Attempt.forM_eq_ok]
  intro id hid
  obtain ⟨x, at_x⟩ := storable.right (storable.get?_of_mem_sorted mem) id hid
  obtain ⟨s, at_s, same⟩ := h.exists_symbol at_x
  have kind : s.kind = x.kind := Symbol.kind_eq_of_bare same
  refine Attempt.bind_eq_ok.2 ⟨s, SymbolTable.symbol_eq_ok at_s, ?_⟩
  rw [if_neg (kind ▸ storable.known at_x)]
  rfl

/-- A nonterminal has its productions again. -/
theorem checkSymbol_eq {s : Symbol} (mem : s ∈ k.symbols.symbols) : checkSymbol s = .ok () := by
  obtain ⟨id, at_s⟩ := SymbolTable.mem_symbols.1 mem
  obtain ⟨x, at_x, same⟩ := h.exists_original at_s
  have kind : s.kind = x.kind := Symbol.kind_eq_of_bare same
  have named : s.name = x.name := Symbol.name_eq_of_bare same
  have productive : ¬ (s.kind = .nonterminal ∧ s.productions = [] ∧ s.name ≠ startMarkerName) := by
    rintro ⟨nonterminal, empty, plain⟩
    have filed := storable.produced at_x (kind ▸ nonterminal) (named ▸ plain)
    obtain ⟨n, mem⟩ := List.exists_mem_of_ne_nil _ filed
    obtain ⟨p, hp, left⟩ := storable.filed at_x mem
    rw [h.filed at_s, List.map_eq_nil_iff, List.filter_eq_nil_iff] at empty
    exact empty p (mem_sortedProductions.2 ⟨n, hp⟩) (decide_eq_true left)
  rw [checkSymbol, if_neg (kind ▸ storable.known at_x)]
  simp only [if_neg productive]
  rfl

/-- The precedences are in place already. -/
theorem applyLabel_eq {label : String × Precedence} (bears : g.Bears label) :
    applyLabel label k = .ok () k := by
  rw [applyLabel]
  apply bind_eq_ok.2
  refine ⟨k, k, rfl, ?_⟩
  cases found : k.symbols.get? label.1 with
  | none => rfl
  | some s =>
    obtain ⟨at_s, named⟩ := h.seated.get?_eq_some.1 found
    obtain ⟨x, at_x, eq⟩ := h.exists_original at_s
    have place : x.id = s.id := storable.seated.id_eq at_x
    by_cases terminal : s.kind = .terminal
    · have precedence : s.precedence = some label.2 :=
        (congrArg Symbol.precedence eq).trans ((bears_iff storable.seated).1 bears x (place.symm ▸ at_x)
          ((Symbol.name_eq_of_bare eq).symm.trans named) ((Symbol.kind_eq_of_bare eq).symm.trans terminal))
      have same : ({ s with precedence := some label.2 } : Symbol) = s := by
        rw [← precedence]
      simp only [if_pos terminal, same]
      show EStateM.Result.ok () { k with symbols := k.symbols.update s } = _
      rw [h.seated.update_self at_s]
    · simp only [if_neg terminal]
      rfl

theorem applyLabels_eq (labels : k.labels = g.labels) : k.labels.toList.forM applyLabel k = .ok () k := by
  rw [labels]
  have each : ∀ label ∈ g.labels.toList, applyLabel label k = .ok () k :=
    fun label mem => h.applyLabel_eq storable (storable.labelled label mem)
  generalize g.labels.toList = es at each
  induction es with
  | nil => rfl
  | cons e es ih =>
    obtain ⟨first, later⟩ := List.forall_mem_cons.1 each
    exact bind_eq_ok.2 ⟨(), k, first, ih later⟩

theorem listProductions_eq : k.listProductions = .ok g.productions := by
  have counted : k.productionCount = g.productionCount := by
    have same : k.byNumber.values.Perm g.byNumber.values := h.values_eq ▸ sortBy_perm _ _
    have := same.length_eq
    rwa [OrderedMap.values, OrderedMap.values, List.length_map, List.length_map] at this
  rw [listProductions_congr (h.get?_eq storable) counted, storable.listed]

theorem startSymbol_eq : ∃ s, k.startSymbol name = .ok s := by
  obtain ⟨x, at_x, named, kind⟩ := storable.start
  obtain ⟨s, at_s, same⟩ := h.exists_symbol at_x
  have place : s.id = x.id := h.seated.id_eq at_s
  have found : k.symbols.get? name = some s :=
    h.seated.get?_eq_some.2 ⟨place.symm ▸ at_s, (Symbol.name_eq_of_bare same).trans named⟩
  refine ⟨s, ?_⟩
  rw [startSymbol, found]
  exact if_pos ((Symbol.kind_eq_of_bare same).trans kind)

/-- The grammar is closed again. -/
theorem close_eq (unclosed : k.closed = false) (labels : k.labels = g.labels) :
    close (some name) k = .ok () (({ k with start := g.start } : Grammar).sealed g.productions) := by
  rw [storable.chosen]
  let k' : Grammar := { k with start := some name }
  have h' : Refiled g k' g.sortedProductions := ⟨h.seated, h.size, h.unfrozen, h.bare, h.entries, h.filed⟩
  have known : query (fun g => g.byNumber.values.forM g.checkKnown) k' = .ok () k' := by
    apply query_of_ok
    rw [Attempt.forM_eq_ok, h'.values_eq]
    exact fun p => h'.checkKnown_eq storable
  have checked : query (fun g => g.symbols.symbols.forM checkSymbol) k' = .ok () k' := by
    apply query_of_ok
    rw [Attempt.forM_eq_ok]
    exact fun s => h'.checkSymbol_eq storable
  obtain ⟨s, found⟩ := h'.startSymbol_eq storable
  have marked : markStart s k' = .ok () k' := by
    have there : k'.byNumber.contains 0 = true := by
      obtain ⟨p, hp⟩ := storable.zero
      rw [OrderedMap.contains, h'.get?_eq storable, hp]
      rfl
    rw [markStart]
    refine bind_eq_ok.2 ⟨k', k', rfl, ?_⟩
    rw [if_neg (by simp [there])]
    rfl
  have closed : closeOver name k' = .ok () (k'.sealed g.productions) := by
    rw [closeOver, bind_of_ok known, bind_of_ok checked, bind_of_ok (query_of_ok found)]
    refine bind_eq_ok.2 ⟨k', k', rfl, ?_⟩
    rw [bind_of_ok (h'.applyLabels_eq storable labels), bind_of_ok marked,
      bind_of_ok (query_of_ok (h'.listProductions_eq storable))]
    rfl
  rw [close]
  refine bind_eq_ok.2 ⟨k, k, rfl, ?_⟩
  rw [if_neg (by simp [unclosed])]
  exact bind_eq_ok.2 ⟨(), k', rfl, bind_eq_ok.2 ⟨k', k', rfl, closed⟩⟩

end

/-- With all productions filed the symbols of a settled grammar are the same, and not yet frozen. -/
theorem symbols_eq (h : Refiled g k g.sortedProductions) (settled : g.Settled marker start) :
    k.symbols = { g.symbols with frozen := false } := by
  have same : ∀ id, k.symbols.at? id = g.symbols.at? id := by
    intro id
    cases at_y : g.symbols.at? id with
    | none =>
      have bare := h.bare id
      rw [at_y] at bare
      exact Option.map_eq_none_iff.1 bare
    | some y =>
      obtain ⟨x, at_x, eq⟩ := h.exists_symbol at_y
      rw [at_x, Symbol.eq_of_bare eq]
      rw [h.filed at_x, settled.filed at_y, settled.filter_left_sorted]
  have size : k.symbols.slots.size = g.symbols.slots.size := by
    obtain ⟨i, size, s, at_s⟩ := settled.table.exists_last
    rw [← same] at at_s
    obtain ⟨j, eq, slot⟩ := SymbolTable.at?_eq_some.1 at_s
    have := (Array.getElem?_eq_some_iff.1 slot).1
    have := h.size
    omega
  show k.symbols = ⟨g.symbols.slots, false⟩
  rw [← SymbolTable.slots_eq size same, ← h.unfrozen]

end Refiled

/-! ## All parts -/

/-- The grammar was made from the parts of another one. -/
def Remade (g g' : Grammar) : Prop :=
  ∃ u m n, Refiled g { Grammar.fresh with symbols := u, labels := g.labels, byNumber := m, nextNumber := n }
      g.sortedProductions ∧
    g' = Grammar.sealed { Grammar.fresh with
      symbols := u, start := g.start, labels := g.labels, byNumber := m, nextNumber := n } g.productions

/-- All parts of a grammar that can be stored make one again. -/
theorem exists_remade (storable : g.Storable name) :
    ∃ g₁ g₂ g₃ g', (g.symbols.symbols.map SymbolRecord.ofSymbol).forM restoreSymbol .fresh = .ok () g₁ ∧
      (g.labels.toList.map fun (l, p) => (l, p.associativity.name, p.level)).forM restoreLabel g₁ =
        .ok () g₂ ∧
      (g.sortedProductions.forM fun p => do let _ ← Grammar.restoreProduction p) g₂ = .ok () g₃ ∧
      close (some name) g₃ = .ok () g' ∧ Remade g g' := by
  obtain ⟨u, symbols, restored⟩ := restoreSymbols storable.seated storable.endMarker
  let g₂ : Grammar := { Grammar.fresh with symbols := u, labels := g.labels }
  have labels : (g.labels.toList.map fun (l, p) => (l, p.associativity.name, p.level)).forM
      restoreLabel { Grammar.fresh with symbols := u } = .ok () g₂ := by
    rw [restoreLabels]
    show EStateM.Result.ok () { g₂ with labels := OrderedMap.ofList g.labels.toList } = _
    rw [OrderedMap.ofList_toList]
  have left : ∀ p ∈ g.sortedProductions, ∃ s, g.symbols.at? p.left = some s :=
    fun p mem => storable.left (storable.get?_of_mem_sorted mem)
  have distinct : (([] ++ g.sortedProductions).map Production.number).Nodup := by
    rw [List.nil_append, List.Nodup, List.pairwise_map]
    exact storable.pairwise_sorted.imp Int.ne_of_lt
  have nil : Refiled g g₂ [] := refiled_nil storable.toGathered restored rfl
  obtain ⟨g₃, productions, refiled, v, m, n, rfl⟩ := nil.restoreProductions left distinct
  rw [List.nil_append] at refiled
  exact ⟨_, _, _, _, symbols, labels, productions, refiled.close_eq storable rfl rfl, v, m, n, refiled, rfl⟩

theorem Remade.sortedProductions_eq (remade : Remade g g') (gathered : g.Gathered) :
    g'.sortedProductions = g.sortedProductions := by
  obtain ⟨u, m, n, refiled, rfl⟩ := remade
  have values : m.values = g.sortedProductions := refiled.values_eq
  show sortBy _ m.values = _
  rw [values]
  exact sortBy_of_pairwise (gathered.pairwise_sorted.imp fun h => decide_eq_true (Int.le_of_lt h))

/-- A settled grammar is made again but for the order in which productions were filed. -/
theorem Remade.alike (remade : Remade g g') (settled : g.Settled marker start) (untouched : g.facts = {})
    (storable : g.Storable name) : g.Alike g' := by
  have sorted := remade.sortedProductions_eq storable.toGathered
  obtain ⟨u, m, n, refiled, rfl⟩ := remade
  have symbols : u.freeze = g.symbols := by
    have eq : u = { g.symbols with frozen := false } := refiled.symbols_eq settled
    rw [eq, SymbolTable.freeze, ← settled.frozen]
  refine ⟨⟨n, 0, 0, ?_⟩, refiled.get?_eq storable, sorted⟩
  show Grammar.mk u.freeze g.start g.labels m g.productions n 0 0 true {} =
    ⟨g.symbols, g.start, g.labels, m, g.productions, n, 0, 0, g.closed, g.facts⟩
  rw [symbols, settled.closed, untouched]

end ParserGenerator.Storage
