import ParserGenerator.Proofs.LR.Closure
import Mathlib.Data.Finset.Powerset
import Mathlib.Data.Fintype.Card

/-!
# The automaton that is explored

The exploration ends with all states: the first holds the closure of the first item, a transition leads to
the state that holds the closure of the items moved over its symbol, and there is a transition on every
symbol behind a dot that is no action symbol. States with the same items are one state, and every state
is reached from the first.
-/

namespace ParserGenerator.Grammar

variable {g : Grammar} {marker start : Int} {states : Array State} {q r i : Nat} {id : Int}
  {it : Item} {s s' : State}

/-- The item belongs to the state of a number. -/
def Holds (states : Array State) (q : Nat) (it : Item) : Prop :=
  ∃ s, states[q]? = some s ∧ it ∈ s.items

instance (states : Array State) (q : Nat) (it : Item) : Decidable (Holds states q it) :=
  decidable_of_iff ((states[q]?).any fun s => it ∈ s.items) (by
    rw [Option.any_eq_true]
    simp only [decide_eq_true_eq]
    rfl)

/-- The item comes from one of a list by moving its dot over a symbol. -/
def MovedOver (g : Grammar) (items : List Item) (id : Int) (it : Item) : Prop :=
  ∃ it' ∈ items, g.Expects it' id ∧ it = it'.advance

/-- Transitions lead from one state to another over the symbols of a sequence. -/
inductive Trail (states : Array State) : Nat → List Int → Nat → Prop
  | nil (q : Nat) : Trail states q [] q
  | cons {q r r' : Nat} {id : Int} {ids : List Int} : goto? states q id = some r →
      Trail states r ids r' → Trail states q (id :: ids) r'

theorem goto?_eq_some : goto? states q id = some r ↔
    ∃ s, states[q]? = some s ∧ s.transitions.get? id = some r := Option.bind_eq_some_iff

/-! ## One transition -/

theorem Coherent.mem_nextSymbols (coherent : g.Coherent) {items : List Item}
    (valid : ∀ it ∈ items, g.Valid it) : id ∈ g.nextSymbols items ↔
      g.isAction id = false ∧ ∃ it ∈ items, g.Expects it id := by
  rw [nextSymbols, distinct, ← OrderedSet.mem_def, OrderedSet.mem_ofList, List.mem_filter,
    List.mem_filterMap]
  constructor
  · rintro ⟨⟨it, mem, next⟩, plain⟩
    obtain ⟨s, at_s, plain⟩ := (Option.any_eq_true _ _).1 plain
    refine ⟨?_, it, mem, (coherent.next?_eq (valid it mem)).1 next⟩
    rw [isAction_eq at_s]
    simpa using plain
  · rintro ⟨plain, it, mem, expects⟩
    refine ⟨⟨it, mem, (coherent.next?_eq (valid it mem)).2 expects⟩, ?_⟩
    obtain ⟨p, hp, next⟩ := expects
    obtain ⟨s, at_s⟩ := coherent.right hp id (List.mem_of_getElem? next)
    rw [isAction_eq at_s] at plain
    rw [at_s]
    simpa using plain

theorem Coherent.mem_advanceOver (coherent : g.Coherent) {items : List Item}
    (valid : ∀ it ∈ items, g.Valid it) :
    it ∈ g.advanceOver items id ↔ g.MovedOver items id it := by
  rw [advanceOver, List.mem_map]
  constructor
  · rintro ⟨it', mem, rfl⟩
    obtain ⟨mem, next⟩ := List.mem_filter.1 mem
    exact ⟨it', mem, (coherent.next?_eq (valid it' mem)).1 (of_decide_eq_true next), rfl⟩
  · rintro ⟨it', mem, expects, rfl⟩
    exact ⟨it', List.mem_filter.2 ⟨mem, decide_eq_true
      ((coherent.next?_eq (valid it' mem)).2 expects)⟩, rfl⟩

theorem Coherent.valid_advanceOver (coherent : g.Coherent) {items : List Item}
    (valid : ∀ it ∈ items, g.Valid it) (id : Int) : ∀ it ∈ g.advanceOver items id, g.Valid it := by
  intro it mem
  obtain ⟨it', -, expects, rfl⟩ := (coherent.mem_advanceOver valid).1 mem
  exact expects.valid_advance

/-- What is listed behind a transition. -/
theorem Coherent.closure_advanceOver (coherent : g.Coherent) {items : List Item}
    (valid : ∀ it ∈ items, g.Valid it) (id : Int) :
    (g.closure (g.advanceOver items id)).Nodup ∧
      (∀ it ∈ g.closure (g.advanceOver items id), g.Valid it) ∧
      ∀ it, it ∈ g.closure (g.advanceOver items id) ↔
        Reachable (·.consequences g) (g.advanceOver items id) it := by
  have kernel := coherent.valid_advanceOver valid id
  obtain ⟨nodup, spec⟩ := coherent.closure_spec kernel
  exact ⟨nodup, fun it mem => coherent.valid_of_reachable kernel ((spec it).1 mem), spec⟩

/-- What the closure behind a transition holds. -/
theorem Settled.closure_advanceOver (settled : g.Settled marker start) {items : List Item}
    (valid : ∀ it ∈ items, g.Valid it) (id : Int) (it : Item) :
    it ∈ g.closure (g.advanceOver items id) ↔ g.Closure (g.MovedOver items id) it := by
  have coherent := settled.coherent
  obtain ⟨-, spec⟩ := settled.closure_spec (coherent.valid_advanceOver valid id)
  refine (spec it).trans ?_
  exact ⟨.mono fun it => (coherent.mem_advanceOver valid).1, .mono fun it => (coherent.mem_advanceOver valid).2⟩

theorem sameItems_iff {a b : List Item} (distinct : a.Nodup) (distinct' : b.Nodup) :
    sameItems a b = true ↔ ∀ it, it ∈ a ↔ it ∈ b := by
  rw [sameItems, Bool.and_eq_true, decide_eq_true_eq, List.all_eq_true]
  simp only [List.contains_iff_mem]
  constructor
  · rintro ⟨length, sub⟩ it
    have perm := (List.subperm_of_subset distinct sub).perm_of_length_le (by omega)
    exact perm.mem_iff
  · intro same
    exact ⟨((List.perm_ext_iff_of_nodup distinct distinct').2 same).length_eq,
      fun it mem => (same it).1 mem⟩

theorem stateNumber_spec (states : Array State) (items : List Item) :
    (stateNumber states items < states.size ∧
      ∃ s : State, states[stateNumber states items]? = some s ∧ sameItems s.items items = true) ∨
    (stateNumber states items = states.size ∧
      ∀ (q : Nat) (s : State), states[q]? = some s → sameItems s.items items = false) := by
  rw [stateNumber]
  cases found : states.findIdx? fun s : State => sameItems s.items items with
  | some q =>
    obtain ⟨inside, same, -⟩ := Array.findIdx?_eq_some_iff_getElem.1 found
    exact .inl ⟨inside, states[q], Array.getElem?_eq_getElem inside, same⟩
  | none =>
    refine .inr ⟨rfl, fun q s at_q => ?_⟩
    have mem : s ∈ states := by
      obtain ⟨inside, eq⟩ := Array.getElem?_eq_some_iff.1 at_q
      exact eq ▸ Array.getElem_mem inside
    exact Array.findIdx?_eq_none_iff.1 found s mem

/-- The states before a transition is made: with its target, if that is new. -/
def prepared (g : Grammar) (items : List Item) (states : Array State) (id : Int) : Array State :=
  let target := g.closure (g.advanceOver items id)
  if stateNumber states target < states.size then states else states.push ⟨some id, target, ∅⟩

/-- The number of the state that a transition leads to. -/
def targetNumber (g : Grammar) (items : List Item) (states : Array State) (id : Int) : Nat :=
  stateNumber states (g.closure (g.advanceOver items id))

theorem getElem?_connect (g : Grammar) (source : Nat) (items : List Item) (states : Array State)
    (id : Int) (q : Nat) :
    (g.connect source items states id)[q]? = if source = q then
      (prepared g items states id)[q]?.map fun s =>
        { s with transitions := s.transitions.insert id (targetNumber g items states id) }
    else (prepared g items states id)[q]? := Array.getElem?_modify

section Connect

variable {source : Nat} {items : List Item}

theorem prepared_cases (at_q : (prepared g items states id)[q]? = some s) :
    states[q]? = some s ∨ (q = states.size ∧ targetNumber g items states id = states.size ∧
      s = ⟨some id, g.closure (g.advanceOver items id), ∅⟩) := by
  rw [prepared] at at_q
  split at at_q
  · exact .inl at_q
  · rename_i new
    rw [Array.getElem?_push] at at_q
    split at at_q
    · rename_i last
      cases at_q
      refine .inr ⟨last, ?_, rfl⟩
      rcases stateNumber_spec states (g.closure (g.advanceOver items id)) with ⟨old, -⟩ | ⟨eq, -⟩
      · exact absurd old new
      · exact eq
    · exact .inl at_q

theorem getElem?_prepared (at_q : states[q]? = some s) :
    (prepared g items states id)[q]? = some s := by
  rw [prepared]
  split
  · exact at_q
  · have inside := (Array.getElem?_eq_some_iff.1 at_q).1
    rw [Array.getElem?_push, if_neg (by omega), at_q]

theorem prepared_target (nodup : (g.closure (g.advanceOver items id)).Nodup)
    (distinct : ∀ {q : Nat} {s : State}, states[q]? = some s → s.items.Nodup) :
    ∃ s : State, (prepared g items states id)[targetNumber g items states id]? = some s ∧
      ∀ it, it ∈ s.items ↔ it ∈ g.closure (g.advanceOver items id) := by
  rcases stateNumber_spec states (g.closure (g.advanceOver items id)) with
    ⟨old, s, at_s, same⟩ | ⟨eq, -⟩
  · refine ⟨s, getElem?_prepared at_s, (sameItems_iff (distinct at_s) nodup).1 same⟩
  · refine ⟨⟨some id, g.closure (g.advanceOver items id), ∅⟩, ?_, fun it => Iff.rfl⟩
    rw [prepared, targetNumber, eq]
    simp only [Nat.lt_irrefl, if_false, Array.getElem?_push_size]

/-- A transition changes one entry of its source. -/
theorem connect_old (source : Nat) (items : List Item) (id : Int) (at_q : states[q]? = some s) :
    ∃ s' : State, (g.connect source items states id)[q]? = some s' ∧ s'.items = s.items ∧
      s'.transitions = if source = q then
        s.transitions.insert id (targetNumber g items states id) else s.transitions := by
  rw [getElem?_connect, getElem?_prepared at_q]
  split
  · exact ⟨_, rfl, rfl, rfl⟩
  · exact ⟨s, rfl, rfl, rfl⟩

theorem connect_goto (items : List Item) (id : Int) (at_source : states[source]? = some s) :
    goto? (g.connect source items states id) source id =
      some (targetNumber g items states id) := by
  obtain ⟨s', at_s', -, transitions⟩ := connect_old (g := g) source items id at_source
  refine goto?_eq_some.2 ⟨s', at_s', ?_⟩
  rw [transitions, if_pos rfl, OrderedMap.get?_insert, if_pos rfl]

/-- Which symbol leads into a state is told when the state is made. -/
theorem connect_accessing (at_q : (g.connect source items states id)[q]? = some s') :
    ∃ s : State, (prepared g items states id)[q]? = some s ∧ s'.accessing = s.accessing := by
  rw [getElem?_connect] at at_q
  split at at_q
  · obtain ⟨s, at_s, rfl⟩ := Option.map_eq_some_iff.1 at_q
    exact ⟨s, at_s, rfl⟩
  · exact ⟨s', at_q, rfl⟩

theorem connect_cases (inside : source < states.size)
    (at_q : (g.connect source items states id)[q]? = some s') :
    (∃ s : State, states[q]? = some s ∧ s'.items = s.items ∧
      s'.transitions = if source = q then
        s.transitions.insert id (targetNumber g items states id) else s.transitions) ∨
    (q = states.size ∧ targetNumber g items states id = states.size ∧
      s' = ⟨some id, g.closure (g.advanceOver items id), ∅⟩) := by
  cases before : states[q]? with
  | some s =>
    obtain ⟨x, at_x, same, transitions⟩ := connect_old (g := g) source items id before
    rw [at_q] at at_x
    cases at_x
    exact .inl ⟨s, rfl, same, transitions⟩
  | none =>
    have outside : source ≠ q := by
      rintro rfl
      rw [Array.getElem?_eq_getElem inside] at before
      cases before
    rw [getElem?_connect, if_neg outside] at at_q
    rcases prepared_cases at_q with old | new
    · rw [before] at old
      cases old
    · exact .inr new

theorem connect_target (source : Nat) (nodup : (g.closure (g.advanceOver items id)).Nodup)
    (distinct : ∀ {q : Nat} {s : State}, states[q]? = some s → s.items.Nodup) :
    ∃ s : State, (g.connect source items states id)[targetNumber g items states id]? = some s ∧
      ∀ it, it ∈ s.items ↔ it ∈ g.closure (g.advanceOver items id) := by
  obtain ⟨s, at_s, same⟩ := prepared_target nodup distinct
  rw [getElem?_connect, at_s]
  split
  · exact ⟨_, rfl, same⟩
  · exact ⟨s, rfl, same⟩

end Connect

/-! ## The exploration -/

/-- What holds while states are explored. The property tells which transitions are made. -/
structure Explored (g : Grammar) (made : Nat → Int → Prop) (states : Array State) : Prop where
  first : ∃ s : State, states[0]? = some s ∧ s.items = g.closure [.initial]
  nodup : ∀ {q : Nat} {s : State}, states[q]? = some s → s.items.Nodup
  valid : ∀ {q : Nat} {s : State}, states[q]? = some s → ∀ it ∈ s.items, g.Valid it
  distinct : ∀ {q q' : Nat} {s s' : State}, states[q]? = some s → states[q']? = some s' →
    (∀ it, it ∈ s.items ↔ it ∈ s'.items) → q = q'
  targets : ∀ {q : Nat} {s : State} {id : Int} {r : Nat}, states[q]? = some s →
    s.transitions.get? id = some r → made q id ∧ id ∈ g.nextSymbols s.items ∧
      ∃ s' : State, states[r]? = some s' ∧
        ∀ it, it ∈ s'.items ↔ it ∈ g.closure (g.advanceOver s.items id)
  total : ∀ {q : Nat} {s : State} {id : Int}, states[q]? = some s → made q id →
    id ∈ g.nextSymbols s.items → ∃ r, s.transitions.get? id = some r
  within : ∀ {q : Nat} {id : Int}, made q id → q < states.size
  reached : ∀ {q : Nat} {s : State}, states[q]? = some s → ∃ γ, Trail states 0 γ q
  accessed : ∀ {q : Nat} {s : State}, states[q]? = some s →
    q = 0 ∨ ∃ p id, s.accessing = some id ∧ goto? states p id = some q

theorem Trail.mono {states' : Array State} {γ : List Int}
    (keeps : ∀ {q id r}, goto? states q id = some r → goto? states' q id = some r)
    (h : Trail states q γ r) : Trail states' q γ r := by
  induction h with
  | nil q => exact .nil q
  | cons step _ ih => exact .cons (keeps step) ih

theorem Trail.append {r' : Nat} {γ δ : List Int} (h : Trail states q γ r) (h' : Trail states r δ r') :
    Trail states q (γ ++ δ) r' := by
  induction h with
  | nil q => exact h'
  | cons step _ ih => exact .cons step (ih h')

theorem Trail.snoc {r' : Nat} {γ : List Int} (h : Trail states q γ r)
    (step : goto? states r id = some r') : Trail states q (γ ++ [id]) r' :=
  h.append (.cons step (.nil r'))

theorem Trail.split {r' : Nat} {γ δ : List Int} (h : Trail states q (γ ++ δ) r') :
    ∃ r, Trail states q γ r ∧ Trail states r δ r' := by
  induction γ generalizing q with
  | nil => exact ⟨q, .nil q, h⟩
  | cons x γ ih =>
    cases h with
    | cons step rest =>
      obtain ⟨r, first, second⟩ := ih rest
      exact ⟨r, .cons step first, second⟩

theorem Trail.unique {r r' : Nat} {γ : List Int} (h : Trail states q γ r) (h' : Trail states q γ r') :
    r = r' := by
  induction h with
  | nil q =>
    cases h'
    rfl
  | cons step _ ih =>
    cases h' with
    | cons step' rest =>
      rw [step] at step'
      cases step'
      exact ih rest

section Transition

variable {made : Nat → Int → Prop} {source : Nat} (h : g.Explored made states)
  (at_source : states[source]? = some s) (fresh : ¬ made source id)
include h

include fresh in
theorem Explored.connect_keeps {x : Int} (step : goto? states q x = some r) :
    goto? (g.connect source s.items states id) q x = some r := by
  obtain ⟨a, at_a, get⟩ := goto?_eq_some.1 step
  obtain ⟨a', at_a', -, transitions⟩ := connect_old (g := g) source s.items id at_a
  refine goto?_eq_some.2 ⟨a', at_a', ?_⟩
  rw [transitions]
  split
  · rename_i eq
    subst eq
    rw [OrderedMap.get?_insert, if_neg, get]
    rintro rfl
    exact fresh (h.targets at_a get).1
  · exact get

/-- A state with the items of a target that is new is not among those that there are. -/
theorem Explored.ne_target {items : List Item} (nodup : (g.closure (g.advanceOver items id)).Nodup)
    (new : targetNumber g items states id = states.size) {a : State} (at_q : states[q]? = some a) :
    ¬ ∀ it, it ∈ a.items ↔ it ∈ g.closure (g.advanceOver items id) := by
  intro same
  rcases stateNumber_spec states (g.closure (g.advanceOver items id)) with ⟨lt, -⟩ | ⟨-, other⟩
  · rw [targetNumber] at new
    omega
  · have differs := other q a at_q
    rw [(sameItems_iff (h.nodup at_q) nodup).2 same] at differs
    cases differs

include at_source

theorem Explored.connect_distinct (nodup : (g.closure (g.advanceOver s.items id)).Nodup)
    {q q' : Nat} {a a' : State} (at_q : (g.connect source s.items states id)[q]? = some a)
    (at_q' : (g.connect source s.items states id)[q']? = some a')
    (same : ∀ it, it ∈ a.items ↔ it ∈ a'.items) : q = q' := by
  have inside := (Array.getElem?_eq_some_iff.1 at_source).1
  rcases connect_cases inside at_q with ⟨b, at_b, eq, -⟩ | ⟨last, new, rfl⟩
  · rcases connect_cases inside at_q' with ⟨b', at_b', eq', -⟩ | ⟨-, new', rfl⟩
    · rw [eq, eq'] at same
      exact h.distinct at_b at_b' same
    · rw [eq] at same
      exact absurd same (h.ne_target nodup new' at_b)
  · rcases connect_cases inside at_q' with ⟨b', at_b', eq', -⟩ | ⟨last', -, -⟩
    · rw [eq'] at same
      exact absurd (fun it => (same it).symm) (h.ne_target nodup new at_b')
    · rw [last, last']

theorem Explored.connect_targets (nodup : (g.closure (g.advanceOver s.items id)).Nodup)
    (next : id ∈ g.nextSymbols s.items) {a : State} {x : Int}
    (at_q : (g.connect source s.items states id)[q]? = some a) (get : a.transitions.get? x = some r) :
    (made q x ∨ q = source ∧ x = id) ∧ x ∈ g.nextSymbols a.items ∧
      ∃ b : State, (g.connect source s.items states id)[r]? = some b ∧
        ∀ it, it ∈ b.items ↔ it ∈ g.closure (g.advanceOver a.items x) := by
  have inside := (Array.getElem?_eq_some_iff.1 at_source).1
  rcases connect_cases inside at_q with ⟨a₀, at_a₀, same, transitions⟩ | ⟨-, -, rfl⟩
  · rw [same]
    rw [transitions] at get
    have before : a₀.transitions.get? x = some r → (made q x ∨ q = source ∧ x = id) ∧
        x ∈ g.nextSymbols a₀.items ∧
        ∃ b : State, (g.connect source s.items states id)[r]? = some b ∧
          ∀ it, it ∈ b.items ↔ it ∈ g.closure (g.advanceOver a₀.items x) := by
      intro get
      obtain ⟨made_x, next_x, b, at_b, same_b⟩ := h.targets at_a₀ get
      obtain ⟨b', at_b', eq, -⟩ := connect_old (g := g) source s.items id at_b
      exact ⟨.inl made_x, next_x, b', at_b', eq ▸ same_b⟩
    split at get
    · rename_i eq
      subst eq
      rw [at_source] at at_a₀
      cases at_a₀
      rw [OrderedMap.get?_insert] at get
      split at get
      · rename_i eq
        subst eq
        cases get
        exact ⟨.inr ⟨rfl, rfl⟩, next, connect_target source nodup h.nodup⟩
      · exact before get
    · exact before get
  · cases get

include fresh

theorem Explored.connect_total {a : State} {x : Int}
    (at_q : (g.connect source s.items states id)[q]? = some a)
    (made_x : made q x ∨ q = source ∧ x = id) (next_x : x ∈ g.nextSymbols a.items) :
    ∃ r, a.transitions.get? x = some r := by
  have inside := (Array.getElem?_eq_some_iff.1 at_source).1
  rcases connect_cases inside at_q with ⟨a₀, at_a₀, same, transitions⟩ | ⟨last, -, rfl⟩
  · rw [same] at next_x
    by_cases here : source = q ∧ x = id
    · rw [transitions, if_pos here.1, here.2, OrderedMap.get?_insert, if_pos rfl]
      exact ⟨_, rfl⟩
    · have made_x : made q x := made_x.resolve_right fun eq => here ⟨eq.1.symm, eq.2⟩
      obtain ⟨r, get⟩ := h.total at_a₀ made_x next_x
      have step := h.connect_keeps (s := s) fresh (goto?_eq_some.2 ⟨a₀, at_a₀, get⟩)
      obtain ⟨b, at_b, get'⟩ := goto?_eq_some.1 step
      rw [at_q] at at_b
      cases at_b
      exact ⟨r, get'⟩
  · rcases made_x with made_x | ⟨eq, -⟩
    · have := h.within made_x
      omega
    · omega

theorem Explored.connect_reached {a : State}
    (at_q : (g.connect source s.items states id)[q]? = some a) :
    ∃ γ, Trail (g.connect source s.items states id) 0 γ q := by
  have inside := (Array.getElem?_eq_some_iff.1 at_source).1
  rcases connect_cases inside at_q with ⟨b, at_b, -, -⟩ | ⟨last, new, -⟩
  · obtain ⟨γ, trail⟩ := h.reached at_b
    exact ⟨γ, trail.mono (h.connect_keeps fresh)⟩
  · obtain ⟨γ, trail⟩ := h.reached at_source
    rw [last, ← new]
    exact ⟨γ ++ [id], (trail.mono (h.connect_keeps fresh)).snoc (connect_goto s.items id at_source)⟩

theorem Explored.connect_accessed {a : State}
    (at_q : (g.connect source s.items states id)[q]? = some a) :
    q = 0 ∨ ∃ p x, a.accessing = some x ∧
      goto? (g.connect source s.items states id) p x = some q := by
  obtain ⟨b, at_b, same⟩ := connect_accessing at_q
  rw [same]
  rcases prepared_cases at_b with old | ⟨last, new, rfl⟩
  · refine (h.accessed old).imp_right ?_
    rintro ⟨p, x, leads, step⟩
    exact ⟨p, x, leads, h.connect_keeps fresh step⟩
  · rw [last, ← new]
    exact .inr ⟨source, id, rfl, connect_goto s.items id at_source⟩

theorem Explored.connect (coherent : g.Coherent) (next : id ∈ g.nextSymbols s.items) :
    g.Explored (fun q x => made q x ∨ q = source ∧ x = id) (g.connect source s.items states id) := by
  have inside := (Array.getElem?_eq_some_iff.1 at_source).1
  obtain ⟨nodup, valid, -⟩ := coherent.closure_advanceOver (h.valid at_source) id
  exact {
    first := by
      obtain ⟨a, at_a, eq⟩ := h.first
      obtain ⟨a', at_a', same, -⟩ := connect_old (g := g) source s.items id at_a
      exact ⟨a', at_a', same.trans eq⟩
    nodup := by
      intro q a' at_q
      rcases connect_cases inside at_q with ⟨a, at_a, same, -⟩ | ⟨-, -, rfl⟩
      · rw [same]
        exact h.nodup at_a
      · exact nodup
    valid := by
      intro q a' at_q
      rcases connect_cases inside at_q with ⟨a, at_a, same, -⟩ | ⟨-, -, rfl⟩
      · rw [same]
        exact h.valid at_a
      · exact valid
    distinct := h.connect_distinct at_source nodup
    targets := h.connect_targets at_source nodup next
    total := h.connect_total at_source fresh
    within := by
      intro q x made_x
      have bound : q < states.size := by
        rcases made_x with made_x | ⟨rfl, -⟩
        · exact h.within made_x
        · exact inside
      obtain ⟨a, at_a, -⟩ := connect_old (g := g) source s.items id (Array.getElem?_eq_getElem bound)
      exact (Array.getElem?_eq_some_iff.1 at_a).1
    reached := h.connect_reached at_source fresh
    accessed := h.connect_accessed at_source fresh }

end Transition

/-- A visit makes the transitions of a state one after the other. -/
theorem Coherent.explored_foldl (coherent : g.Coherent) {made : Nat → Int → Prop}
    {source : Nat} {items : List Item} {ids : List Int} (nodup : ids.Nodup)
    (next : ∀ x ∈ ids, x ∈ g.nextSymbols items) (fresh : ∀ x ∈ ids, ¬ made source x)
    (h : g.Explored made states) (at_source : states[source]? = some s) (same : s.items = items) :
    g.Explored (fun q x => made q x ∨ q = source ∧ x ∈ ids)
      (ids.foldl (g.connect source items) states) ∧
    ∃ s' : State, (ids.foldl (g.connect source items) states)[source]? = some s' ∧
      s'.items = items := by
  induction ids generalizing made states s with
  | nil =>
    have same_made : (fun q x => made q x ∨ q = source ∧ x ∈ ([] : List Int)) = made := by
      funext q x
      simp
    rw [same_made]
    exact ⟨h, s, at_source, same⟩
  | cons id ids ih =>
    subst same
    obtain ⟨out, rest⟩ := List.nodup_cons.1 nodup
    have step := h.connect at_source (fresh id List.mem_cons_self) coherent (next id List.mem_cons_self)
    obtain ⟨s', at_s', same, -⟩ := connect_old (g := g) source s.items id at_source
    have later := ih rest (fun x mem => next x (List.mem_cons_of_mem _ mem)) (by
      rintro x mem (before | ⟨-, rfl⟩)
      · exact fresh x (List.mem_cons_of_mem _ mem) before
      · exact out mem) step at_s' same
    have same_made : (fun q x => made q x ∨ q = source ∧ x ∈ id :: ids) =
        fun q x => (made q x ∨ q = source ∧ x = id) ∨ q = source ∧ x ∈ ids := by
      funext q x
      rw [List.mem_cons, and_or_left, or_assoc]
    rw [same_made, List.foldl_cons]
    exact later

theorem Explored.remade {made made' : Nat → Int → Prop} (h : g.Explored made states)
    (widen : ∀ {q id}, made q id → made' q id)
    (narrow : ∀ {q : Nat} {s : State} {id : Int}, states[q]? = some s →
      id ∈ g.nextSymbols s.items → made' q id → made q id)
    (within : ∀ {q id}, made' q id → q < states.size) : g.Explored made' states where
  first := h.first
  nodup := h.nodup
  valid := h.valid
  distinct := h.distinct
  targets := fun at_q get => (h.targets at_q get).imp_left widen
  total := fun at_q made_x next => h.total at_q (narrow at_q next made_x) next
  within := within
  reached := h.reached
  accessed := h.accessed

theorem Explored.size_le (coherent : g.Coherent) {made : Nat → Int → Prop}
    (h : g.Explored made states) : states.size ≤ 2 ^ g.itemBound := by
  -- Each state has its own set of items.
  let sets (q : Fin states.size) : Finset Item := states[q].items.toFinset
  have injective : Function.Injective sets := by
    intro q q' eq
    have at_q : states[q.1]? = some states[q] := Array.getElem?_eq_getElem q.2
    have at_q' : states[q'.1]? = some states[q'] := Array.getElem?_eq_getElem q'.2
    apply Fin.ext
    apply h.distinct at_q at_q'
    intro it
    rw [← List.mem_toFinset, ← List.mem_toFinset]
    exact Finset.ext_iff.1 eq it
  have among : ∀ q ∈ Finset.univ, sets q ∈ g.itemPool.powerset := by
    intro q _
    rw [Finset.mem_powerset]
    intro it mem
    have at_q : states[q.1]? = some states[q] := Array.getElem?_eq_getElem q.2
    exact coherent.mem_itemPool (h.valid at_q it (List.mem_toFinset.1 mem))
  calc states.size = (Finset.univ : Finset (Fin states.size)).card := by
        rw [Finset.card_univ, Fintype.card_fin]
    _ ≤ g.itemPool.powerset.card :=
        Finset.card_le_card_of_injOn sets among (injective.injOn)
    _ = 2 ^ g.itemPool.card := Finset.card_powerset _
    _ ≤ 2 ^ g.itemBound := Nat.pow_le_pow_right (by omega) g.card_itemPool

theorem Coherent.valid_initial (coherent : g.Coherent) : g.Valid .initial := by
  obtain ⟨p, hp, -⟩ := coherent.zero
  exact ⟨p, hp, Nat.zero_le _⟩

theorem Coherent.explored_first (coherent : g.Coherent) :
    g.Explored (fun _ _ => False) #[⟨none, g.closure [.initial], ∅⟩] := by
  have kernel : ∀ it ∈ [Item.initial], g.Valid it := by
    intro it mem
    rw [List.mem_singleton.1 mem]
    exact coherent.valid_initial
  obtain ⟨nodup, spec⟩ := coherent.closure_spec kernel
  have only : ∀ {q : Nat} {s : State},
      (#[⟨none, g.closure [.initial], ∅⟩] : Array State)[q]? = some s →
      q = 0 ∧ s = ⟨none, g.closure [.initial], ∅⟩ := by
    intro q s at_q
    cases q with
    | zero => cases at_q; exact ⟨rfl, rfl⟩
    | succ q => cases at_q
  constructor
  · exact ⟨_, rfl, rfl⟩
  · intro q s at_q
    obtain ⟨-, rfl⟩ := only at_q
    exact nodup
  · intro q s at_q it mem
    obtain ⟨-, rfl⟩ := only at_q
    exact coherent.valid_of_reachable kernel ((spec it).1 mem)
  · intro q q' s s' at_q at_q' _
    rw [(only at_q).1, (only at_q').1]
  · intro q s id r at_q get
    obtain ⟨-, rfl⟩ := only at_q
    cases get
  · exact fun _ made => made.elim
  · exact fun made => made.elim
  · intro q s at_q
    obtain ⟨rfl, -⟩ := only at_q
    exact ⟨[], .nil 0⟩
  · exact fun at_q => .inl (only at_q).1

theorem nodup_nextSymbols (g : Grammar) (items : List Item) : (g.nextSymbols items).Nodup :=
  OrderedSet.nodup _

theorem Coherent.explored_visit (coherent : g.Coherent) (inside : i < states.size)
    (h : g.Explored (fun q _ => q < i) states) :
    g.Explored (fun q _ => q < i + 1)
      ((g.nextSymbols states[i].items).foldl (g.connect i states[i].items) states) := by
  have at_i : states[i]? = some states[i] := Array.getElem?_eq_getElem inside
  obtain ⟨step, s', at_s', same⟩ := coherent.explored_foldl (nodup_nextSymbols g states[i].items)
    (fun x mem => mem) (fun x _ lt => Nat.lt_irrefl i lt) h at_i rfl
  apply step.remade
  · rintro q x (lt | ⟨rfl, -⟩) <;> omega
  · intro q s x at_q next lt
    rcases Nat.lt_succ_iff_lt_or_eq.1 lt with lt | rfl
    · exact .inl lt
    · rw [at_q] at at_s'
      cases at_s'
      exact .inr ⟨rfl, same ▸ next⟩
  · intro q _ lt
    have last := (Array.getElem?_eq_some_iff.1 at_s').1
    omega

/-- In the end all transitions are made. -/
theorem Coherent.explored (coherent : g.Coherent) :
    g.Explored (fun q _ => q < g.explore.size) g.explore := by
  obtain ⟨j, ⟨inside, h⟩, all⟩ : ∃ j, (j ≤ g.explore.size ∧
      g.Explored (fun q _ => q < j) g.explore) ∧ g.explore.size ≤ j := by
    refine sweep_visits_all (I := fun i states => i ≤ states.size ∧
      g.Explored (fun q _ => q < i) states)
      (fun i s states => (g.nextSymbols s.items).foldl (g.connect i s.items) states) ?_
      (fun i xs h => h.2.size_le coherent) ⟨Nat.zero_le _, ?_⟩
    · rintro i xs inside ⟨-, h⟩
      have step := coherent.explored_visit inside h
      have at_i : xs[i]? = some xs[i] := Array.getElem?_eq_getElem inside
      obtain ⟨-, s', at_s', -⟩ := coherent.explored_foldl (nodup_nextSymbols g xs[i].items)
        (fun x mem => mem) (fun x _ lt => Nat.lt_irrefl i lt) h at_i rfl
      exact ⟨(Array.getElem?_eq_some_iff.1 at_s').1, step⟩
    · have none_made : (fun (q : Nat) (_ : Int) => q < 0) = fun _ _ => False := by
        funext q _
        simp
      rw [none_made]
      exact coherent.explored_first
  rw [Nat.le_antisymm inside all] at h
  exact h

end ParserGenerator.Grammar
