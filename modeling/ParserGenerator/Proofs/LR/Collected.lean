import ParserGenerator.Proofs.LR.Digraph
import ParserGenerator.Proofs.LR.Search
import Mathlib.Data.List.Dedup

/-!
# What a search collects

A search that knows a set for each node on its way gets to its end. Each node that it has met then holds the
members of all nodes that it reaches, each other node its own; the given sets are as they were.
-/

namespace ParserGenerator.Digraph

variable {α : Type} [DecidableEq α] {g : Digraph α} {nodes : List α} {own : SetTable α} {w : Search α}
  {x y : α}

theorem run_of_idle (idle : w.visits = []) : g.run w = .ok w := by
  rw [run]
  split
  · rfl
  · rename_i visiting
    rw [idle] at visiting
    cases visiting

theorem run_of_step {w' : Search α} (visiting : w.visits ≠ []) (stepped : g.step w = .ok w') :
    g.run w = g.run w' := by
  rw [run]
  split
  · rename_i idle
    exact absurd idle visiting
  · split
    · rename_i stepped'
      rw [stepped] at stepped'
      cases stepped'
      rfl
    · rename_i failed
      rw [stepped] at failed
      cases failed

/-- Reached nodes have in a table what they gather, the others what they had, each in a set of its own. -/
structure Collects (g : Digraph α) (nodes : List α) (own t : SetTable α) : Prop where
  apart : t.Apart own.heap
  keys : t.place.keys = own.place.keys
  gathers : ∀ x, g.Reached nodes x → t.members x = g.gathered own.members x
  keeps : ∀ x, ¬ g.Reached nodes x → t.of x = own.of x

section Runs

variable (present : ∀ x, g.Reached nodes x → x ∈ own.place.keys)
  (few : ∀ S : List α, S.Nodup → (∀ x ∈ S, g.Reached nodes x) → S.length < bottom)

include present few

theorem Underway.run (inv : Underway g nodes own [] w) :
    ∃ w', g.run w = .ok w' ∧ Underway g nodes own [] w' ∧ w'.visits = [] ∧
      ∀ x, w.depth.contains x → w'.depth.contains x := by
  -- every step leaves less work
  induction left : g.work w using Nat.strong_induction_on generalizing w with
  | _ n ih =>
    cases visiting : w.visits with
    | nil => exact ⟨w, run_of_idle visiting, inv, visiting, fun _ met => met⟩
    | cons v visits =>
      obtain ⟨u, stepped, inv⟩ := inv.step present few visiting
      obtain ⟨w', ran, inv, idle, met⟩ := ih _ (left ▸ work_step visiting stepped) inv rfl
      have visited : w.visits ≠ [] := visiting ▸ List.cons_ne_nil v visits
      exact ⟨w', (run_of_step visited stepped).trans ran, inv, idle,
        fun x before => met x (met_step stepped before)⟩

theorem Underway.searchFrom (inv : Underway g nodes own [] w) (idle : w.visits = []) (root : x ∈ nodes) :
    ∃ w', g.searchFrom w x = .ok w' ∧ Underway g nodes own [] w' ∧ w'.visits = [] ∧
      w'.depth.contains x ∧ ∀ y, w.depth.contains y → w'.depth.contains y := by
  by_cases met : w.depth.contains x
  · exact ⟨w, if_pos met, inv, idle, met, fun _ met => met⟩
  · have entered := (inv.between idle [x]).enter few met ⟨x, root, .refl⟩
    obtain ⟨w', ran, inv, idle, kept⟩ := entered.run present few
    refine ⟨w', (if_neg met).trans ran, inv, idle, kept x (contains_insert.2 (.inl rfl)), fun y met => ?_⟩
    exact kept y (contains_insert.2 (.inr met))

theorem Underway.searchAll (inv : Underway g nodes own [] w) (idle : w.visits = []) {roots : List α}
    (among : ∀ x ∈ roots, x ∈ nodes) :
    ∃ w', roots.foldlM g.searchFrom w = .ok w' ∧ Underway g nodes own [] w' ∧ w'.visits = [] ∧
      ∀ x, x ∈ roots ∨ w.depth.contains x → w'.depth.contains x := by
  induction roots generalizing w with
  | nil => exact ⟨w, rfl, inv, idle, fun x met => met.resolve_left List.not_mem_nil⟩
  | cons root roots ih =>
    obtain ⟨u, searched, inv, idle, first, kept⟩ :=
      inv.searchFrom present few idle (among root List.mem_cons_self)
    obtain ⟨w', done, inv, idle, met⟩ := ih inv idle fun x mem => among x (List.mem_cons_of_mem _ mem)
    refine ⟨w', ?_, inv, idle, fun x which => met x ?_⟩
    · rw [List.foldlM_cons, searched]
      exact done
    · rcases which with mem | before
      · rcases List.mem_cons.1 mem with rfl | mem
        · exact .inr first
        · exact .inl mem
      · exact .inr (kept x before)

/-- A search gets to its end with all that there is to collect. -/
theorem exists_collect : ∃ t, g.collect nodes own = .ok t ∧ g.Collects nodes own t := by
  obtain ⟨w, searched, inv, idle, met⟩ :=
    (underway_begin g nodes own).searchAll present few rfl fun x mem => mem
  have empty : w.stack = [] := by
    have layered := inv.layered
    rw [idle] at layered
    exact layered.stack_eq_nil
  have done : ∀ x, g.Reached nodes x → w.depthOf x = bottom := by
    rintro x ⟨root, mem, path⟩
    induction path with
    | refl =>
      refine ((inv.met root).1 (met root (.inl mem))).resolve_right fun on => ?_
      rw [empty] at on
      exact List.not_mem_nil on
    | tail _ edge ih => exact (inv.done _ ih).2 _ edge
  refine ⟨w.table, ?_, ⟨inv.apart, inv.keys, ?_, ?_⟩⟩
  · rw [collect, searched]
    rfl
  · exact fun x reached => (inv.within x).antisymm (inv.done x (done x reached)).1
  · exact fun x off => inv.unmet x fun met => off (inv.reached x met)

end Runs

/-! ## Least solutions -/

theorem mem_targets (edge : y ∈ g.successors x) : y ∈ g.targets := by
  rw [successors, OrderedMap.getD] at edge
  cases listed : g.edges.get? x with
  | none =>
    rw [listed] at edge
    exact absurd edge List.not_mem_nil
  | some ys =>
    rw [listed] at edge
    exact List.mem_flatten.2 ⟨ys, OrderedMap.mem_values.2 ⟨x, listed⟩, edge⟩

theorem Reached.mem (reached : g.Reached nodes x) : x ∈ nodes ∨ x ∈ g.targets := by
  obtain ⟨root, mem, path⟩ := reached
  cases path with
  | refl => exact .inl mem
  | tail _ edge => exact .inr (mem_targets edge)

theorem exists_collect_of_listed (present : ∀ x, x ∈ nodes ∨ x ∈ g.targets → x ∈ own.place.keys)
    (few : (nodes ++ g.targets).dedup.length < bottom) :
    ∃ t, g.collect nodes own = .ok t ∧ g.Collects nodes own t := by
  refine exists_collect (fun x reached => present x reached.mem) fun S nodup reached => ?_
  have within : S ⊆ (nodes ++ g.targets).dedup := by
    intro x mem
    rw [List.mem_dedup, List.mem_append]
    exact (reached x mem).mem
  exact Nat.lt_of_le_of_lt (List.subperm_of_subset nodup within).length_le few

/-- Each reached node has its own members and those of its successors. -/
def Solves (g : Digraph α) (nodes : List α) (own sets : α → Set Int) : Prop :=
  ∀ x, g.Reached nodes x → sets x = own x ∪ {i | ∃ y ∈ g.successors x, i ∈ sets y}

theorem solves_gathered (own : α → Set Int) : g.Solves nodes own (g.gathered own) := by
  intro x _
  ext i
  constructor
  · rintro ⟨y, path, mem⟩
    rcases Relation.ReflTransGen.cases_head path with rfl | ⟨z, edge, rest⟩
    · exact .inl mem
    · exact .inr ⟨z, edge, y, rest, mem⟩
  · rintro (mem | ⟨y, edge, mem⟩)
    · exact own_subset_gathered mem
    · exact (Reaches.of_edge edge).gathered_subset mem

theorem Solves.gathered_subset {own sets : α → Set Int} (solves : g.Solves nodes own sets)
    (reached : g.Reached nodes x) : g.gathered own x ⊆ sets x := by
  rintro i ⟨y, path, mem⟩
  induction path using Relation.ReflTransGen.head_induction_on with
  | refl =>
    rw [solves y reached]
    exact .inl mem
  | head edge _ ih =>
    rw [solves _ reached]
    exact .inr ⟨_, edge, ih (reached.edge edge)⟩

theorem Solves.congr {own sets sets' : α → Set Int} (solves : g.Solves nodes own sets)
    (same : ∀ x, g.Reached nodes x → sets' x = sets x) : g.Solves nodes own sets' := by
  intro x reached
  rw [same x reached, solves x reached]
  congr 1
  ext i
  exact exists_congr fun y => and_congr_right fun edge => by rw [same y (reached.edge edge)]

/-- Collecting ends with the least solution, which gathers along all paths; nodes of one component have the
same members. Nodes that are not reached keep their sets, and none of the given sets changes. -/
theorem collect_least
    (present : ∀ x, x ∈ nodes ∨ x ∈ g.targets → x ∈ own.place.keys)
    (few : (nodes ++ g.targets).dedup.length < 2 ^ 30) :
    ∃ t, g.collect nodes own = .ok t ∧
      t.place.keys = own.place.keys ∧
      (∀ x, g.Reached nodes x → ∀ i, i ∈ t.of x ↔ ∃ y, g.Reaches x y ∧ i ∈ own.of y) ∧
      (∀ x, ¬ g.Reached nodes x → t.of x = own.of x) ∧
      (∀ x y, g.Reached nodes x → g.Reaches x y → g.Reaches y x → ∀ i, i ∈ t.of x ↔ i ∈ t.of y) ∧
      g.Solves nodes own.members t.members ∧
      (∀ sets, g.Solves nodes own.members sets → ∀ x, g.Reached nodes x → t.members x ⊆ sets x) ∧
      ∀ a < own.heap.size, t.heap[a]? = own.heap[a]? := by
  obtain ⟨t, collected, collects⟩ := exists_collect_of_listed present few
  have gathers := collects.gathers
  refine ⟨t, collected, collects.keys, ?_, collects.keeps, ?_, ?_, ?_, collects.apart.kept⟩
  · exact fun x reached i => Set.ext_iff.1 (gathers x reached) i
  · rintro x y ⟨root, mem, path⟩ there back i
    have same : t.members x = t.members y := by
      rw [gathers x ⟨root, mem, path⟩, gathers y ⟨root, mem, path.trans there⟩, there.gathered_eq back]
    exact Set.ext_iff.1 same i
  · exact (solves_gathered own.members).congr gathers
  · exact fun sets solves x reached => gathers x reached ▸ solves.gathered_subset reached

/-- Two rings with an edge from one to the other, and a node from which both are reached. -/
def rings : Digraph Nat := ⟨.ofList [(0, [0, 1, 1]), (1, [2]), (2, [1, 4]), (3, [0])]⟩

def ringSets : SetTable Nat where
  heap := #[.ofList [10], .ofList [20], .ofList [30]]
  place := .ofList [(0, 0), (1, 1), (2, 1), (3, 2), (4, 2)]

theorem collect_least_rings :
    ∃ t, rings.collect [0, 4, 0] ringSets = .ok t ∧ (10 ∈ t.of 0 ∧ 20 ∈ t.of 0 ∧ 30 ∈ t.of 0) ∧
      (∀ i, i ∈ t.of 1 ↔ i ∈ t.of 2) ∧ t.of 3 = ringSets.of 3 ∧ t.heap[1]? = ringSets.heap[1]? := by
  have listed : ∀ x ∈ [0, 4, 0] ++ rings.targets, x ∈ ringSets.place.keys := by decide
  have present : ∀ x, x ∈ [0, 4, 0] ∨ x ∈ rings.targets → x ∈ ringSets.place.keys :=
    fun x mem => listed x (List.mem_append.2 mem)
  obtain ⟨t, collected, -, gathers, kept, rings', -, -, heap⟩ :=
    collect_least present (by decide)
  have to_one : rings.Reaches 0 1 := .of_edge (by decide)
  have to_two : rings.Reaches 1 2 := .of_edge (by decide)
  have to_four : rings.Reaches 2 4 := .of_edge (by decide)
  have root : ∀ {x}, rings.Reaches 0 x → rings.Reached [0, 4, 0] x := fun path => ⟨0, by decide, path⟩
  refine ⟨t, collected, ⟨?_, ?_, ?_⟩, ?_, ?_, heap 1 (by decide)⟩
  · exact (gathers 0 (root .refl) 10).2 ⟨0, .refl, by decide⟩
  · exact (gathers 0 (root .refl) 20).2 ⟨1, to_one, by decide⟩
  · exact (gathers 0 (root .refl) 30).2 ⟨4, to_one.trans (to_two.trans to_four), by decide⟩
  · exact rings' 1 2 (root to_one) to_two (.of_edge (by decide))
  · apply kept
    have step : ∀ x ∈ [0, 1, 2, 4], ∀ y ∈ rings.successors x, y ∈ [0, 1, 2, 4] := by decide
    have along : ∀ {r x}, rings.Reaches r x → r ∈ [0, 1, 2, 4] → x ∈ [0, 1, 2, 4] := by
      intro r x path start
      induction path with
      | refl => exact start
      | tail _ edge ih => exact step _ ih _ edge
    have roots : ∀ r ∈ [0, 4, 0], r ∈ [0, 1, 2, 4] := by decide
    rintro ⟨r, mem, path⟩
    exact absurd (along path (roots r mem)) (by decide)

/-- The sets of a map are collected likewise. -/
theorem exists_solve {own : OrderedMap α (OrderedSet Int)}
    (present : ∀ x, x ∈ nodes ∨ x ∈ g.targets → x ∈ own.keys)
    (few : (nodes ++ g.targets).dedup.length < bottom) :
    ∃ out, g.solve nodes own = .ok out ∧ out.keys = own.keys ∧
      (∀ x, g.Reached nodes x → ∀ i, i ∈ out.getD x ∅ ↔ ∃ y, g.Reaches x y ∧ i ∈ own.getD y ∅) ∧
      ∀ x, ¬ g.Reached nodes x → out.get? x = own.get? x := by
  have placed : ∀ x, x ∈ nodes ∨ x ∈ g.targets → x ∈ (SetTable.ofSets own).place.keys :=
    fun x listed => SetTable.mem_keys_ofSets.2 (present x listed)
  obtain ⟨t, collected, collects⟩ := exists_collect_of_listed placed few
  have found : ∀ x, (own.mapValues fun x _ => t.of x).get? x = (own.get? x).map fun _ => t.of x :=
    fun x => OrderedMap.get?_mapValues
  refine ⟨own.mapValues fun x _ => t.of x, ?_, ?_, fun x reached i => ?_, fun x off => ?_⟩
  · rw [solve, collected]
    rfl
  · rw [OrderedMap.keys, OrderedMap.mapValues, List.map_map]
    rfl
  · obtain ⟨s, held⟩ := OrderedMap.mem_keys.1 (present x (Reached.mem reached))
    rw [OrderedMap.getD, found, held, Option.map_some, Option.getD_some]
    refine (Set.ext_iff.1 (collects.gathers x reached) i).trans (exists_congr fun y => ?_)
    rw [SetTable.mem_members, SetTable.of_ofSets]
  · rw [found]
    cases held : own.get? x with
    | none => rfl
    | some s => rw [Option.map_some, collects.keeps x off, SetTable.of_ofSets, OrderedMap.getD, held, Option.getD_some]

/-! ## Numbered nodes -/

section Numbered

variable {edges : List (Nat × Nat)} {sets : Array (OrderedSet Int)}

/-- The graph of the given edges between numbered nodes. -/
def ofEdges (size : Nat) (edges : List (Nat × Nat)) : Digraph Nat :=
  ⟨.ofList ((List.range size).map fun n => (n, (edges.filter (·.1 = n)).map (·.2)))⟩

theorem mem_successors_ofEdges (inside : ∀ e ∈ edges, e.1 < sets.size ∧ e.2 < sets.size) {x y : Nat} :
    y ∈ (ofEdges sets.size edges).successors x ↔ (x, y) ∈ edges := by
  have distinct : (((List.range sets.size).map fun n =>
      (n, (edges.filter (·.1 = n)).map (·.2))).map Prod.fst).Nodup := by
    rw [List.map_map]
    exact (List.map_id _).symm ▸ List.nodup_range
  have row : ∀ ys, (ofEdges sets.size edges).edges.get? x = some ys ↔
      x < sets.size ∧ ys = (edges.filter (·.1 = x)).map (·.2) := by
    intro ys
    rw [ofEdges, OrderedMap.get?_ofList distinct, List.mem_map]
    constructor
    · rintro ⟨n, mem, eq⟩
      cases eq
      exact ⟨List.mem_range.1 mem, rfl⟩
    · rintro ⟨small, rfl⟩
      exact ⟨x, List.mem_range.2 small, rfl⟩
  have leaving : y ∈ (edges.filter (·.1 = x)).map (·.2) ↔ (x, y) ∈ edges := by
    simp
  rw [successors, OrderedMap.getD]
  by_cases small : x < sets.size
  · rw [(row _).2 ⟨small, rfl⟩, Option.getD_some, leaving]
  · cases listed : (ofEdges sets.size edges).edges.get? x with
    | some ys => exact absurd ((row ys).1 listed).1 small
    | none =>
      rw [Option.getD_none]
      exact iff_of_false List.not_mem_nil fun edge => small (inside _ edge).1

/-- Taking the edges to and fro collects what a search from all nodes does. -/
theorem exists_collect_saturate (inside : ∀ e ∈ edges, e.1 < sets.size ∧ e.2 < sets.size)
    (few : sets.size < bottom) :
    ∃ t, (ofEdges sets.size edges).collect (List.range sets.size) (.ofArray sets) = .ok t ∧
      ∀ n < sets.size, ∀ i, i ∈ t.of n ↔ i ∈ (saturate edges sets).getD n ∅ := by
  have edge : ∀ {x y}, y ∈ (ofEdges sets.size edges).successors x ↔ (x, y) ∈ edges :=
    mem_successors_ofEdges inside
  have same : (fun x y => y ∈ (ofEdges sets.size edges).successors x) = fun x y => (x, y) ∈ edges :=
    funext₂ fun _ _ => propext edge
  have leads : ∀ x y, (ofEdges sets.size edges).Reaches x y ↔ Leads edges x y := by
    intro x y
    rw [Reaches, same, Leads]
  have small : ∀ x, (ofEdges sets.size edges).Reached (List.range sets.size) x → x < sets.size := by
    rintro x ⟨root, mem, path⟩
    cases path with
    | refl => exact List.mem_range.1 mem
    | tail _ last => exact (inside _ (edge.1 last)).2
  have placed : ∀ x, (ofEdges sets.size edges).Reached (List.range sets.size) x →
      x ∈ (SetTable.ofArray sets).place.keys := fun x reached => SetTable.mem_keys_ofArray.2 (small x reached)
  obtain ⟨t, collected, collects⟩ := exists_collect placed fun S nodup reached => by
    have within : S ⊆ List.range sets.size := fun x mem => List.mem_range.2 (small x (reached x mem))
    have := (List.subperm_of_subset nodup within).length_le
    rw [List.length_range] at this
    omega
  refine ⟨t, collected, fun n inside' i => ?_⟩
  have members := Set.ext_iff.1 (collects.gathers n ⟨n, List.mem_range.2 inside', .refl⟩) i
  refine members.trans ((exists_congr fun m => ?_).trans (mem_saturate fun e mem => (inside e mem).1).symm)
  rw [leads, SetTable.mem_members, SetTable.of_ofArray]

end Numbered

end ParserGenerator.Digraph
