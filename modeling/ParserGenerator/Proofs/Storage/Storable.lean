import ParserGenerator.Proofs.Collection.Sorted
import ParserGenerator.Proofs.Grammar.Close
import ParserGenerator.Proofs.Symbol.Restored

/-!
# Grammars that can be stored

A grammar from storage has its symbols in their seats, where some seats may be skipped, and productions under
any numbers. One that passed the checks of closing can be stored and is made again from its parts; settled
grammars are such.
-/

namespace ParserGenerator.Grammar

/-- The symbols have their seats, the end marker its own, and productions are filed under their numbers; what
is filed with a symbol has it on the left. -/
structure Gathered (g : Grammar) : Prop where
  seated : g.symbols.Seated
  endMarker : ∃ s, g.symbols.at? endMarkerId = some s ∧ s.name = endMarkerName
  number_eq : ∀ {n p}, g.byNumber.get? n = some p → p.number = n
  left : ∀ {n p}, g.byNumber.get? n = some p → ∃ s, g.symbols.at? p.left = some s
  filed : ∀ {id s n}, g.symbols.at? id = some s → n ∈ s.productions →
    ∃ p, g.byNumber.get? n = some p ∧ p.left = id

/-- A grammar that passed the checks of closing it over the symbol of a name. -/
structure Vetted (g : Grammar) (name : String) : Prop extends Gathered g where
  right : ∀ {n p}, g.byNumber.get? n = some p → ∀ id ∈ p.right, ∃ s, g.symbols.at? id = some s
  known : ∀ {id s}, g.symbols.at? id = some s → s.kind ≠ .unknown
  produced : ∀ {id s}, g.symbols.at? id = some s → s.kind = .nonterminal → s.name ≠ startMarkerName →
    s.productions ≠ []
  start : ∃ s, g.symbols.at? s.id = some s ∧ s.name = name ∧ s.kind = .nonterminal
  chosen : g.start = some name

/-- A grammar that was closed: its terminals have the precedences that were declared for them, and its
productions are listed from production 0 on. -/
structure Storable (g : Grammar) (name : String) : Prop extends Vetted g name where
  labelled : g.Labelled
  zero : ∃ p, g.byNumber.get? 0 = some p
  listed : g.listProductions = .ok g.productions

variable {g h : Grammar} {marker start : Int} {name : String}

theorem Lawful.gathered (sound : g.Lawful) : g.Gathered where
  seated := sound.table.seated
  endMarker := sound.table.endMarker
  number_eq := sound.number_eq
  left := by
    intro n p hp
    obtain ⟨s, at_s, -⟩ := sound.left hp
    exact ⟨s, at_s⟩
  filed := by
    intro id s n at_s mem
    rw [sound.filed at_s] at mem
    obtain ⟨p, held, rfl⟩ := List.mem_map.1 mem
    obtain ⟨value, left⟩ := List.mem_filter.1 held
    obtain ⟨n, hp⟩ := OrderedMap.mem_values.1 value
    rw [sound.number_eq hp]
    exact ⟨p, hp, of_decide_eq_true left⟩

/-- Which productions are listed depends on what is found under each number. -/
theorem listProductions_congr (same : ∀ n, h.byNumber.get? n = g.byNumber.get? n)
    (counted : h.productionCount = g.productionCount) : h.listProductions = g.listProductions := by
  have found : h.byNumber.get? = g.byNumber.get? := funext same
  have held : h.byNumber.contains = g.byNumber.contains := by
    funext n
    rw [OrderedMap.contains, OrderedMap.contains, same]
  rw [listProductions, listProductions, counted, found, held]

theorem Settled.listed_eq (settled : g.Settled marker start) : g.listProductions = .ok g.productions := by
  have complete : ∀ i : Nat, i < g.productionCount → ∃ p, g.byNumber.get? i = some p := by
    intro i hi
    rw [← settled.listed]
    rw [settled.counted] at hi
    exact ⟨_, Array.getElem?_eq_getElem hi⟩
  obtain ⟨ps, listed, size, entries⟩ := listProductions_eq complete
  have same : ps = g.productions := by
    apply Array.ext_getElem?
    intro i
    rw [settled.listed]
    by_cases inside : i < g.productionCount
    · exact entries i inside
    · have size' : g.productions.size ≤ i := by
        rw [← settled.counted]
        omega
      rw [← settled.listed, Array.getElem?_eq_none size', Array.getElem?_eq_none (by omega)]
  rw [listed, same]

theorem Settled.storable (settled : g.Settled marker start) (labelled : g.Labelled)
    (chosen : g.start = some name) : g.Storable name where
  toGathered := settled.gathered
  right := by
    intro n p hp id mem
    obtain ⟨-, s, at_s⟩ := settled.right hp id mem
    exact ⟨s, at_s⟩
  known := settled.known
  produced at_s kind _ := settled.produced at_s kind
  start := by
    obtain ⟨s, name', at_s, chosen', named⟩ := settled.start_name
    obtain ⟨s', at_s', kind⟩ := settled.start_kind
    rw [at_s] at at_s'
    cases at_s'
    rw [chosen] at chosen'
    cases chosen'
    exact ⟨s, (settled.table.id_eq at_s).symm ▸ at_s, named, kind⟩
  chosen := chosen
  labelled := labelled
  zero := ⟨_, settled.zero⟩
  listed := settled.listed_eq

namespace Gathered

theorem get?_of_mem_sorted (gathered : g.Gathered) {p : Production} (mem : p ∈ g.sortedProductions) :
    g.byNumber.get? p.number = some p := by
  obtain ⟨n, hp⟩ := mem_sortedProductions.1 mem
  rwa [gathered.number_eq hp]

/-- By number, no two productions have the same one. -/
theorem pairwise_sorted (gathered : g.Gathered) :
    g.sortedProductions.Pairwise fun p q => p.number < q.number := by
  have ordered : g.sortedProductions.Pairwise fun p q => p.number ≤ q.number := by
    refine (pairwise_sortBy (fun p q => ?_) (fun {p q r} h h' => ?_) _).imp of_decide_eq_true
    · rw [decide_eq_true_iff, decide_eq_true_iff]
      omega
    · rw [decide_eq_true_iff] at h h' ⊢
      omega
  have distinct : g.sortedProductions.Pairwise fun p q => p.number ≠ q.number := by
    have numbers : g.byNumber.values.map Production.number = g.byNumber.keys := by
      rw [OrderedMap.values, OrderedMap.keys, List.map_map]
      exact List.map_congr_left fun e mem => gathered.number_eq (OrderedMap.mem_toList.1 mem)
    have nodup : (g.sortedProductions.map Production.number).Nodup := by
      have perm : g.sortedProductions.Perm g.byNumber.values := sortBy_perm _ _
      rw [(perm.map _).nodup_iff, numbers]
      exact g.byNumber.nodup
    exact List.pairwise_map.1 nodup
  exact (ordered.and distinct).imp Int.lt_iff_le_and_ne.2

end Gathered

end ParserGenerator.Grammar
