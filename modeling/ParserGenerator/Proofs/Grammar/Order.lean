import ParserGenerator.Proofs.Grammar.Lawful

/-!
# The order of productions

A settled grammar filed its productions in the order 1, 2, …, and production 0 last. By number, production
0 comes first and the others follow as they were filed. Little depends on the order in which productions
were filed; grammars that differ in it are alike.
-/

namespace ParserGenerator.Grammar

variable {g : Grammar} {marker start : Int}

/-- The production that closing adds. -/
def opening (marker start : Int) : Production := ⟨0, marker, [start], none, none⟩

/-- Productions that are numbered one after the other from 1 on. -/
theorem increasing_of_numbers {ps : List Production} {n : Nat}
    (numbers : ps.map Production.number = (List.range n).map fun i : Nat => (i : Int) + 1) :
    ps.Pairwise (fun p q => p.number < q.number) ∧ ∀ p ∈ ps, 0 < p.number := by
  constructor
  · have increasing : ((List.range n).map fun i : Nat => (i : Int) + 1).Pairwise (· < ·) := by
      rw [List.pairwise_map]
      exact List.pairwise_lt_range.imp fun h => by omega
    rw [← numbers, List.pairwise_map] at increasing
    exact increasing
  · intro p hp
    have mem : p.number ∈ ps.map Production.number := List.mem_map_of_mem hp
    rw [numbers] at mem
    obtain ⟨i, -, eq⟩ := List.mem_map.1 mem
    omega

namespace Settled

theorem exists_filed (settled : g.Settled marker start) :
    ∃ ps : List Production, g.byNumber.values = ps ++ [opening marker start] ∧
      ps.Pairwise (fun p q => p.number < q.number) ∧ ∀ p ∈ ps, 0 < p.number := by
  obtain ⟨n, keys⟩ := settled.ordered
  obtain ⟨front, back, parts, front_keys, back_keys⟩ := List.map_eq_append_iff.1 keys
  obtain ⟨last, rfl, last_key⟩ := List.map_eq_singleton_iff.1 back_keys
  have numbered : ∀ e ∈ g.byNumber.toList, e.2.number = e.1 :=
    fun e he => settled.number_eq (OrderedMap.mem_toList.1 he)
  have same : last.2 = opening marker start := by
    have found : g.byNumber.get? last.1 = some last.2 :=
      OrderedMap.mem_toList.1 (parts ▸ List.mem_append_right _ List.mem_cons_self)
    rw [last_key, settled.zero] at found
    exact (Option.some.inj found).symm
  have numbers : (front.map Prod.snd).map Production.number =
      (List.range n).map fun i : Nat => (i : Int) + 1 := by
    rw [← front_keys, List.map_map]
    exact List.map_congr_left fun e he => numbered e (parts ▸ List.mem_append_left _ he)
  refine ⟨front.map Prod.snd, ?_, increasing_of_numbers numbers⟩
  rw [OrderedMap.values, parts, List.map_append, List.map_singleton, same]

/-- None of the productions with positive numbers has the marker on the left. -/
theorem filter_marker (settled : g.Settled marker start) {ps : List Production}
    (filed : ∀ p ∈ ps, p ∈ g.byNumber.values) (positive : ∀ p ∈ ps, 0 < p.number) :
    ps.filter (·.left = marker) = [] := by
  rw [List.filter_eq_nil_iff]
  intro p mem left
  obtain ⟨n, hn⟩ := OrderedMap.mem_values.1 (filed p mem)
  have zero := settled.marker_left hn (of_decide_eq_true left)
  have := settled.number_eq hn
  have := positive p mem
  omega

theorem productions_marker (settled : g.Settled marker start) {s : Symbol}
    (at_s : g.symbols.at? marker = some s) : s.productions = [0] := by
  obtain ⟨ps, filed, -, positive⟩ := settled.exists_filed
  rw [settled.filed at_s, filed, List.filter_append,
    settled.filter_marker (fun p mem => filed ▸ List.mem_append_left _ mem) positive]
  simp [opening]

/-- The productions as they were filed, and by number. -/
theorem exists_sorted (settled : g.Settled marker start) :
    ∃ ps : List Production, g.byNumber.values = ps ++ [opening marker start] ∧
      g.sortedProductions = opening marker start :: ps ∧
      g.sortedProductions.Pairwise (fun p q => p.number < q.number) := by
  obtain ⟨ps, filed, increasing, positive⟩ := settled.exists_filed
  have sorted : g.sortedProductions = opening marker start :: ps := by
    rw [sortedProductions, filed]
    apply sortBy_append_singleton
    · exact increasing.imp fun h => decide_eq_true (Int.le_of_lt h)
    · exact fun p hp => decide_eq_false (Int.not_le.2 (positive p hp))
  exact ⟨ps, filed, sorted, sorted ▸ List.pairwise_cons.2 ⟨positive, increasing⟩⟩

theorem map_number_sorted (settled : g.Settled marker start) :
    ∃ n, g.sortedProductions.map Production.number = (List.range (n + 1)).map fun i : Nat => (i : Int) := by
  obtain ⟨ps, filed, sorted, -⟩ := settled.exists_sorted
  obtain ⟨n, keys⟩ := settled.ordered
  have numbers := settled.map_number_values
  rw [filed, keys, List.map_append] at numbers
  refine ⟨n, ?_⟩
  rw [sorted, List.map_cons, List.append_cancel_right numbers, List.range_succ_eq_map, List.map_cons, List.map_map]
  rfl

/-- A settled grammar lists its productions by number. -/
theorem toList_productions (settled : g.Settled marker start) :
    g.productions.toList = g.sortedProductions := by
  obtain ⟨n, numbers⟩ := settled.map_number_sorted
  have length : g.sortedProductions.length = n + 1 := by
    rw [← List.length_map Production.number, numbers, List.length_map, List.length_range]
  have filed : ∀ p ∈ g.sortedProductions, g.byNumber.get? p.number = some p := by
    intro p mem
    obtain ⟨k, hp⟩ := mem_sortedProductions.1 mem
    rwa [settled.number_eq hp]
  refine List.ext_getElem? fun i => ?_
  rw [Array.getElem?_toList, settled.listed]
  by_cases inside : i < n + 1
  · have at_i := List.getElem?_eq_getElem (length ▸ inside)
    have number : g.sortedProductions[i].number = i := by
      have := congrArg (·[i]?) numbers
      simpa [inside, at_i] using this
    rw [at_i, ← number, filed _ (List.getElem_mem _)]
  · rw [List.getElem?_eq_none (by omega), OrderedMap.get?_eq_none]
    intro mem
    obtain ⟨p, hp⟩ := OrderedMap.mem_keys.1 mem
    have : p.number ∈ (List.range (n + 1)).map fun i : Nat => (i : Int) :=
      numbers ▸ List.mem_map_of_mem (mem_sortedProductions.2 ⟨_, hp⟩)
    obtain ⟨j, hj, eq⟩ := List.mem_map.1 this
    have := List.mem_range.1 hj
    rw [settled.number_eq hp] at eq
    omega

/-- The productions of one left-hand side stand in the same order both ways. -/
theorem filter_left_sorted (settled : g.Settled marker start) (id : Int) :
    g.sortedProductions.filter (·.left = id) = g.byNumber.values.filter (·.left = id) := by
  obtain ⟨ps, filed, sorted, increasing⟩ := settled.exists_sorted
  rw [sorted, filed, List.filter_append]
  by_cases place : marker = id
  · have others : ps.filter (·.left = id) = [] := by
      rw [sorted] at increasing
      exact place ▸ settled.filter_marker (fun p hp => filed ▸ List.mem_append_left _ hp)
        (List.pairwise_cons.1 increasing).1
    simp [List.filter_cons, others]
  · have other : ¬ (opening marker start).left = id := place
    simp [other]

end Settled

/-! ## Productions filed in another order -/

/-- The grammars hold the same, up to the order in which productions were filed and to what only counts
for further declarations. -/
structure Alike (g h : Grammar) : Prop where
  rest : ∃ n l c, h = { g with byNumber := h.byNumber, nextNumber := n, level := l, actionCount := c }
  numbered : ∀ n, h.byNumber.get? n = g.byNumber.get? n
  sorted : h.sortedProductions = g.sortedProductions

end ParserGenerator.Grammar
