import ParserGenerator.LR.Lookahead
import ParserGenerator.Proofs.Collection.OrderedMap

/-!
# Numbers of transitions

The transitions on nonterminals are listed state by state, and each has the number of its place.
-/

namespace ParserGenerator

namespace TransitionIndex

variable {x : TransitionIndex} {ids : List Int} {q n : Nat} {id : Int}

/-- The list and the rows agree, and hold the given nonterminals of each state. -/
structure Lists (x : TransitionIndex) (expected : List (List Int)) : Prop where
  rows : x.rows.size = expected.length
  number : ∀ {q id n}, x.number? (q, id) = some n ↔ x.all[n]? = some (q, id)
  mem : ∀ {q id}, (q, id) ∈ x.all ↔ ∃ ids, expected[q]? = some ids ∧ id ∈ ids

theorem lists_empty : Lists {} [] where
  rows := rfl
  number := by
    intro q id n
    exact ⟨nofun, nofun⟩
  mem := by
    intro q id
    simp

theorem getElem?_all_addState : (x.addState ids).all[n]? =
    if n < x.all.size then x.all[n]? else ids[n - x.all.size]?.map (x.rows.size, ·) := by
  simp [addState, Array.getElem?_append]

theorem number?_addState_old (old : q < x.rows.size) :
    (x.addState ids).number? (q, id) = x.number? (q, id) := by
  simp [addState, number?, Array.getElem?_push, Nat.ne_of_lt old]

theorem number?_addState_new (distinct : ids.Nodup) :
    (x.addState ids).number? (x.rows.size, id) = some n ↔
      x.all.size ≤ n ∧ ids[n - x.all.size]? = some id := by
  have keys : ((ids.zipIdx x.all.size).map Prod.fst).Nodup := by rwa [List.zipIdx_map_fst]
  simp [addState, number?, OrderedMap.get?_ofList keys, List.mk_mem_zipIdx_iff_le_and_getElem?_sub]

theorem number?_addState_later (later : x.rows.size < q) :
    (x.addState ids).number? (q, id) = none := by
  have outside : (x.rows.push (OrderedMap.ofList (ids.zipIdx x.all.size)))[q]? = none := by
    simp
    omega
  simp [addState, number?, outside]

theorem Lists.inside {expected : List (List Int)} (h : x.Lists expected)
    (at_n : x.all[n]? = some (q, id)) : q < x.rows.size := by
  obtain ⟨ids, at_q, -⟩ := h.mem.1 (Array.mem_of_getElem? at_n)
  rw [h.rows]
  exact (List.getElem?_eq_some_iff.1 at_q).1

theorem Lists.addState {expected : List (List Int)} (h : x.Lists expected) (distinct : ids.Nodup) :
    (x.addState ids).Lists (expected ++ [ids]) where
  rows := by simp [TransitionIndex.addState, h.rows]
  number := by
    intro q id n
    have inside : x.all[n]? = some (q, id) → q < x.rows.size := h.inside
    have early : n < x.all.size ∨ x.all[n]? = none := by
      rw [Array.getElem?_eq_none_iff]
      exact Nat.lt_or_ge n x.all.size
    rw [getElem?_all_addState]
    rcases Nat.lt_trichotomy q x.rows.size with old | rfl | later
    · rw [number?_addState_old old, h.number]
      grind
    · rw [number?_addState_new distinct]
      grind
    · rw [number?_addState_later later]
      grind
  mem := by
    intro q id
    have all : (x.addState ids).all = x.all ++ (ids.map fun id => (x.rows.size, id)).toArray := rfl
    rw [all, Array.mem_append, h.mem, h.rows, List.mem_toArray, List.mem_map]
    grind

end TransitionIndex

namespace Grammar

variable {g : Grammar} {states : Array State} {q n : Nat} {id : Int} {t : Transition}

/-- The nonterminals on which a state has transitions. -/
def nonterminalsOf (g : Grammar) (s : State) : List Int := s.transitions.keys.filter g.isNonterminal

theorem lists_foldl {ss : List State} {x : TransitionIndex} {expected : List (List Int)}
    (h : x.Lists expected) :
    (ss.foldl (fun x s => x.addState (g.nonterminalsOf s)) x).Lists
      (expected ++ ss.map g.nonterminalsOf) := by
  induction ss generalizing x expected with
  | nil => simpa using h
  | cons s ss ih =>
    have distinct : (g.nonterminalsOf s).Nodup := s.transitions.nodup.filter _
    have := ih (h.addState distinct)
    simpa using this

theorem lists_nonterminalTransitions :
    (g.nonterminalTransitions states).Lists (states.toList.map g.nonterminalsOf) := by
  rw [nonterminalTransitions, ← Array.foldl_toList]
  exact lists_foldl TransitionIndex.lists_empty

theorem number?_eq_some : (g.nonterminalTransitions states).number? t = some n ↔
    (g.nonterminalTransitions states).all[n]? = some t :=
  lists_nonterminalTransitions.number

theorem mem_nonterminalTransitions : (q, id) ∈ (g.nonterminalTransitions states).all ↔
    g.isNonterminal id = true ∧ ∃ r, goto? states q id = some r := by
  rw [lists_nonterminalTransitions.mem, goto?, List.getElem?_map, Array.getElem?_toList]
  cases states[q]? with
  | none => simp
  | some s => simp [nonterminalsOf, OrderedMap.mem_keys, and_comm]

/-- Exactly the transitions on nonterminals have numbers. -/
theorem exists_number : (∃ n : Nat, (g.nonterminalTransitions states).all[n]? = some (q, id)) ↔
    g.isNonterminal id = true ∧ ∃ r, goto? states q id = some r := by
  rw [← mem_nonterminalTransitions, Array.mem_iff_getElem?]

end Grammar

end ParserGenerator
