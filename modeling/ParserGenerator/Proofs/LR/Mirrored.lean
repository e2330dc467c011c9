import ParserGenerator.Proofs.Collection.OrderedSet
import ParserGenerator.Proofs.Grammar.Renaming
import ParserGenerator.Proofs.LR.Lookahead

/-!
# States of grammars with other identifiers

Items know their productions by number. So grammars that are the same but for the identifiers of their
symbols have the same states, found in the same order, with transitions between the same states on symbols
that correspond. With the states goes what follows the transitions, and on which terminals completed
productions are reduced.
-/

namespace ParserGenerator.Grammar

variable {g h : Grammar} {σ τ : Int → Int} {marker start marker' start' x t n : Int} {q r : Nat}
  {items : List Item} {it : Item} {s s' : State} {states states' : Array State} {α : List Int}

/-! ## Items -/

theorem Settled.next?_mem (settled : g.Settled marker start) (next : it.next? g = some x) : x ∈ g.ids := by
  rw [Item.next?, rightOf] at next
  have mem := List.mem_of_getElem? next
  cases found : g.productionAt? it.production with
  | none =>
    rw [found] at mem
    cases mem
  | some p =>
    rw [found] at mem
    rw [productionAt?] at found
    generalize (if it.production < 0 then _ else _ : Int) = i at found
    split at found
    · cases found
    · rw [settled.listed] at found
      exact settled.right_mem_ids found x mem

section Items

variable (mirrored : g.Mirrored σ τ h) (settled : g.Settled marker start) (settled' : h.Settled marker' start')
include mirrored settled settled'

theorem Mirrored.productions : h.productions.toList.map (fun p => (p.left, p.right)) =
    g.productions.toList.map fun p => (σ p.left, p.right.map σ) := by
  refine List.ext_getElem? fun i => ?_
  rw [List.getElem?_map, List.getElem?_map, Array.getElem?_toList, Array.getElem?_toList, settled.listed,
    settled'.listed]
  exact mirrored.there.rules i

theorem Mirrored.size_productions : h.productions.size = g.productions.size := by
  simpa using congrArg List.length (mirrored.productions settled settled')

theorem Mirrored.rightOf (n : Int) : h.rightOf n = (g.rightOf n).map σ := by
  have entry : ∀ i : Nat,
      (h.productions[i]?).map Production.right = (g.productions[i]?).map fun p => p.right.map σ := by
    intro i
    have rules := congrArg (Option.map Prod.snd) (mirrored.there.rules i)
    rw [Option.map_map, Option.map_map] at rules
    rw [settled.listed, settled'.listed]
    exact rules
  rw [Grammar.rightOf, Grammar.rightOf, productionAt?, productionAt?,
    mirrored.size_productions settled settled']
  generalize (if n < 0 then _ else _ : Int) = i
  split
  · rfl
  · rw [entry]
    cases g.productions[i.toNat]? <;> rfl

theorem Mirrored.next? (it : Item) : it.next? h = (it.next? g).map σ := by
  rw [Item.next?, Item.next?, mirrored.rightOf settled settled', List.getElem?_map]

theorem Mirrored.next?_iff (mem : x ∈ g.ids) : it.next? h = some (σ x) ↔ it.next? g = some x := by
  rw [mirrored.next? settled settled', Option.map_eq_some_iff]
  constructor
  · rintro ⟨y, next, same⟩
    rw [next, mirrored.inj (settled.next?_mem next) mem same]
  · exact fun next => ⟨x, next, rfl⟩

theorem Mirrored.isComplete (it : Item) : it.isComplete h = it.isComplete g := by
  rw [Item.isComplete, Item.isComplete, mirrored.rightOf settled settled', List.length_map]

/-- The keys of the productions are the same, in the same order. -/
theorem Mirrored.keys : h.byNumber.keys = g.byNumber.keys := by
  have sizes := mirrored.size_productions settled settled'
  obtain ⟨i, keys⟩ := settled.ordered
  obtain ⟨i', keys'⟩ := settled'.ordered
  have length : ∀ {k : Grammar} {j : Nat}, k.productionCount = k.productions.size →
      k.byNumber.keys = (List.range j).map (fun i : Nat => (i : Int) + 1) ++ [0] → k.productions.size = j + 1 := by
    intro k j counted keys
    have size := congrArg List.length keys
    rw [OrderedMap.keys, List.length_map, List.length_append, List.length_map, List.length_range] at size
    exact counted.symm.trans size
  have := length settled.counted keys
  have := length settled'.counted keys'
  obtain rfl : i' = i := by omega
  rw [keys, keys']

/-- Nonterminals list the same productions. -/
theorem Mirrored.symbol_productions {a b : Symbol} (at_x : g.symbols.at? x = some a)
    (at_x' : h.symbols.at? (σ x) = some b) : b.productions = a.productions := by
  have mem : x ∈ g.ids := (mem_ids settled.toLawful).2 ⟨a, at_x⟩
  have values : h.byNumber.values.map (fun p => (p.number, p.left)) =
      g.byNumber.values.map fun p => (p.number, σ p.left) := by
    refine OrderedMap.map_values_eq (mirrored.keys settled settled') fun n => ?_
    cases hp : g.byNumber.get? n with
    | none =>
      have rules := mirrored.there.rules n
      rw [hp, Option.map_none, Option.map_eq_none_iff] at rules
      rw [rules]
      rfl
    | some p =>
      obtain ⟨p', hp', left, -⟩ := mirrored.there.rule hp
      rw [hp', Option.map_some, Option.map_some, left, settled.number_eq hp, settled'.number_eq hp']
  have filed : ∀ {k : Grammar} {f : Production → Int × Int} {y : Int}, (∀ p, (f p).1 = p.number) →
      ((k.byNumber.values.map f).filter (·.2 = y)).map Prod.fst =
        (k.byNumber.values.filter fun p => (f p).2 = y).map Production.number := by
    intro k f y number
    rw [List.filter_map, List.map_map]
    exact List.map_congr_left fun p _ => number p
  rw [settled'.filed at_x', settled.filed at_x]
  refine (filed (f := fun p => (p.number, p.left)) fun _ => rfl).symm.trans ?_
  rw [values, filed fun _ => rfl]
  refine congrArg _ (List.filter_congr fun p listed => decide_eq_decide.2 ⟨fun same => ?_, congrArg σ⟩)
  obtain ⟨n, hp⟩ := OrderedMap.mem_values.1 listed
  exact mirrored.inj (settled.left_mem_ids hp) mem same

theorem Mirrored.consequences (it : Item) : it.consequences h = it.consequences g := by
  rw [Item.consequences, Item.consequences, mirrored.next? settled settled']
  cases next : it.next? g with
  | none => rfl
  | some x =>
    obtain ⟨a, at_x⟩ := (mem_ids settled.toLawful).1 (settled.next?_mem next)
    obtain ⟨b, at_x', kind, -⟩ := mirrored.symbol at_x
    simp only [Option.map_some, Option.bind_some, at_x, at_x', kind, Symbol.isAction,
      mirrored.symbol_productions settled settled' at_x at_x']
    rfl

theorem Mirrored.itemBound : h.itemBound = g.itemBound := by
  have counts : h.productionCount = g.productionCount := by
    rw [settled.counted, settled'.counted, mirrored.size_productions settled settled']
  have listed : h.productions.toList.map (·.right.length) = g.productions.toList.map (·.right.length) := by
    have lists := congrArg (List.map fun e => e.2.length) (mirrored.productions settled settled')
    rw [List.map_map, List.map_map] at lists
    simpa [Function.comp_def] using lists
  have values : h.byNumber.values.map (·.right.length) = g.byNumber.values.map (·.right.length) := by
    refine OrderedMap.map_values_eq (mirrored.keys settled settled') fun n => ?_
    have rules := congrArg (Option.map fun e => e.2.length) (mirrored.there.rules n)
    rw [Option.map_map, Option.map_map] at rules
    simpa [Function.comp_def] using rules
  have longest : ∀ k : Grammar, k.longestRight =
      (k.productions.toList.map (·.right.length) ++ k.byNumber.values.map (·.right.length)).foldl max 0 := by
    intro k
    rw [longestRight, ← List.map_append, List.foldl_map]
  rw [Grammar.itemBound, Grammar.itemBound, counts, longest, longest, listed, values]

theorem Mirrored.closure (kernel : List Item) : h.closure kernel = g.closure kernel := by
  rw [Grammar.closure, Grammar.closure, mirrored.itemBound settled settled',
    funext (mirrored.consequences settled settled')]

theorem Mirrored.nextSymbols (items : List Item) : h.nextSymbols items = (g.nextSymbols items).map σ := by
  have found : items.filterMap (·.next? h) = (items.filterMap (·.next? g)).map σ := by
    rw [List.map_filterMap, funext (mirrored.next? settled settled')]
  have known : ∀ x ∈ items.filterMap (·.next? g), x ∈ g.ids := by
    intro x mem
    obtain ⟨it, -, next⟩ := List.mem_filterMap.1 mem
    exact settled.next?_mem next
  have plain : ∀ x ∈ g.ids,
      (h.symbols.at? (σ x)).any (!·.isAction) = (g.symbols.at? x).any (!·.isAction) := by
    intro x mem
    obtain ⟨a, at_x⟩ := (mem_ids settled.toLawful).1 mem
    obtain ⟨b, at_x', kind, -⟩ := mirrored.symbol at_x
    simp only [at_x, at_x', Option.any_some, Symbol.isAction, kind]
  have kept : (items.filterMap (·.next? g)).filter
      ((fun id => (h.symbols.at? id).any (!·.isAction)) ∘ σ) =
      (items.filterMap (·.next? g)).filter fun id => (g.symbols.at? id).any (!·.isAction) :=
    List.filter_congr fun x mem => plain x (known x mem)
  rw [Grammar.nextSymbols, Grammar.nextSymbols, found, List.filter_map, kept]
  exact OrderedSet.toList_ofList_map (fun _ _ => mirrored.inj) fun x mem => known x (List.mem_filter.1 mem).1

theorem Mirrored.advanceOver (items : List Item) (mem : x ∈ g.ids) :
    h.advanceOver items (σ x) = g.advanceOver items x := by
  rw [Grammar.advanceOver, Grammar.advanceOver]
  refine congrArg _ (List.filter_congr fun it _ => decide_eq_decide.2 ?_)
  exact mirrored.next?_iff settled settled' mem

end Items

/-! ## States -/

/-- The states hold the same items, and have the same transitions on symbols that correspond. -/
structure SameState (g : Grammar) (σ : Int → Int) (s s' : State) : Prop where
  items : s'.items = s.items
  transitions : ∀ x ∈ g.ids, s'.transitions.get? (σ x) = s.transitions.get? x

/-- The states of one number are the same. -/
def SameStates (g : Grammar) (σ : Int → Int) (states states' : Array State) : Prop :=
  ∀ q : Nat, Option.Rel (g.SameState σ) states[q]? states'[q]?

namespace SameStates

variable (same : g.SameStates σ states states')
include same

theorem exists_state (at_q : states[q]? = some s) :
    ∃ s', states'[q]? = some s' ∧ g.SameState σ s s' := by
  have related := same q
  rw [at_q] at related
  cases at_q' : states'[q]? with
  | none =>
    rw [at_q'] at related
    cases related
  | some s' =>
    rw [at_q'] at related
    cases related with
    | some state => exact ⟨s', rfl, state⟩

theorem items_eq : states'.map State.items = states.map State.items := by
  refine Array.ext_getElem? fun q => ?_
  rw [Array.getElem?_map, Array.getElem?_map]
  have related := same q
  cases at_q : states[q]? with
  | none =>
    rw [at_q] at related
    cases at_q' : states'[q]? with
    | none => rfl
    | some s' =>
      rw [at_q'] at related
      cases related
  | some s =>
    obtain ⟨s', at_q', state⟩ := same.exists_state at_q
    rw [at_q', Option.map_some, Option.map_some, state.items]

theorem size_eq : states'.size = states.size := by
  simpa using congrArg Array.size same.items_eq

theorem stateNumber_eq (items : List Item) : stateNumber states' items = stateNumber states items := by
  have found : ∀ states : Array State, states.findIdx? (fun s => sameItems s.items items) =
      (states.map State.items).findIdx? fun own => sameItems own items := by
    intro states
    rw [Array.findIdx?_map]
    rfl
  rw [stateNumber, stateNumber, found, found, same.items_eq, same.size_eq]

theorem goto_eq (mem : x ∈ g.ids) : goto? states' q (σ x) = goto? states q x := by
  have related := same q
  cases at_q : states[q]? with
  | some s =>
    obtain ⟨s', at_q', state⟩ := same.exists_state at_q
    rw [goto?, goto?, at_q, at_q']
    exact state.transitions x mem
  | none =>
    rw [at_q] at related
    cases at_q' : states'[q]? with
    | none =>
      rw [goto?, goto?, at_q, at_q']
      rfl
    | some s' =>
      rw [at_q'] at related
      cases related

theorem holds_of (holds : Holds states q it) : Holds states' q it := by
  obtain ⟨s, at_q, mem⟩ := holds
  obtain ⟨s', at_q', state⟩ := same.exists_state at_q
  exact ⟨s', at_q', state.items ▸ mem⟩

end SameStates

section Explore

variable (mirrored : g.Mirrored σ τ h) (settled : g.Settled marker start) (settled' : h.Settled marker' start')
include mirrored settled settled'

theorem SameStates.prepared (same : g.SameStates σ states states') (items : List Item) (mem : x ∈ g.ids) :
    g.SameStates σ (prepared g items states x) (prepared h items states' (σ x)) := by
  intro q
  rw [Grammar.prepared, Grammar.prepared, mirrored.advanceOver settled settled' items mem,
    mirrored.closure settled settled', same.stateNumber_eq, same.size_eq]
  split
  · exact same q
  · rw [Array.getElem?_push, Array.getElem?_push, same.size_eq]
    split
    · exact .some ⟨rfl, fun _ _ => rfl⟩
    · exact same q

/-- A transition that is made in both grammars leads to the same state. -/
theorem SameStates.connect (same : g.SameStates σ states states') (source : Nat) (items : List Item)
    (mem : x ∈ g.ids) :
    g.SameStates σ (g.connect source items states x) (h.connect source items states' (σ x)) := by
  intro q
  have number : targetNumber h items states' (σ x) = targetNumber g items states x := by
    rw [targetNumber, targetNumber, mirrored.advanceOver settled settled' items mem,
      mirrored.closure settled settled', same.stateNumber_eq]
  rw [getElem?_connect, getElem?_connect, number]
  have before := same.prepared mirrored settled settled' items mem q
  generalize (Grammar.prepared g items states x)[q]? = a at before ⊢
  generalize (Grammar.prepared h items states' (σ x))[q]? = b at before ⊢
  split
  · cases before with
    | none => exact .none
    | some state =>
      refine .some ⟨state.items, fun y known => ?_⟩
      dsimp only
      rw [OrderedMap.get?_insert, OrderedMap.get?_insert, state.transitions y known]
      by_cases eq : x = y
      · rw [if_pos eq, if_pos (congrArg σ eq)]
      · rw [if_neg eq, if_neg fun eq' => eq (mirrored.inj mem known eq')]
  · exact before

theorem SameStates.foldl_connect (same : g.SameStates σ states states') (source : Nat) (items : List Item)
    {ids : List Int} (known : ∀ x ∈ ids, x ∈ g.ids) :
    g.SameStates σ (ids.foldl (g.connect source items) states)
      ((ids.map σ).foldl (h.connect source items) states') := by
  induction ids generalizing states states' with
  | nil => exact same
  | cons x ids ih =>
    obtain ⟨first, rest⟩ := List.forall_mem_cons.1 known
    exact ih (same.connect mirrored settled settled' source items first) rest

/-- Both explorations find the same states under the same numbers. -/
theorem Mirrored.explore : g.SameStates σ g.explore h.explore := by
  rw [Grammar.explore, Grammar.explore, mirrored.itemBound settled settled',
    mirrored.closure settled settled']
  refine sweep_related (R := g.SameStates σ) (fun same => same.size_eq) ?_ fun q => ?_
  · intro i states states' inside inside' same
    obtain ⟨s', at_i, state⟩ := same.exists_state (Array.getElem?_eq_getElem inside)
    cases (Array.getElem?_eq_getElem inside').symm.trans at_i
    rw [state.items, mirrored.nextSymbols settled settled']
    refine same.foldl_connect mirrored settled settled' i _ fun x mem => ?_
    rw [Grammar.nextSymbols, distinct, ← OrderedSet.mem_def, OrderedSet.mem_ofList, List.mem_filter,
      List.mem_filterMap] at mem
    obtain ⟨⟨it, -, next⟩, -⟩ := mem
    exact settled.next?_mem next
  · cases q with
    | zero => exact .some ⟨rfl, fun _ _ => rfl⟩
    | succ q => exact .none

/-- Production 0 takes the start symbol along. -/
theorem Mirrored.start_eq : start' = σ start := by
  obtain ⟨p', zero, -, right⟩ := mirrored.there.rule settled.zero
  cases zero.symm.trans settled'.zero
  exact (List.cons.inj right).1

end Explore

/-! ## What follows transitions -/

section Follow

variable (mirrored : g.Mirrored σ τ h) (same : g.SameStates σ states states')
include mirrored same

omit mirrored in
theorem SameStates.trail (trail : Trail states q α r) (known : ∀ x ∈ α, x ∈ g.ids) :
    Trail states' q (α.map σ) r := by
  induction trail with
  | nil => exact .nil _
  | cons step _ ih =>
    obtain ⟨first, rest⟩ := List.forall_mem_cons.1 known
    exact .cons ((same.goto_eq first).trans step) (ih rest)

theorem SameStates.follow (follow : Follow g states start q x t) :
    Follow h states' (σ start) q (σ x) (σ t) := by
  have sound := mirrored.lawful
  have sound' := mirrored.lawful'
  induction follow with
  | ends =>
    rw [mirrored.there.endMarker]
    exact .ends
  | first holds hp right nonterminal first =>
    obtain ⟨p', hp', -, right'⟩ := mirrored.there.rule hp
    rw [right, List.map_append, List.map_cons] at right'
    have holds' := same.holds_of holds
    rw [← List.length_map σ] at holds'
    exact .first holds' hp' right' (mirrored.isNonterminal nonterminal)
      (sound'.first_iff.2 (mirrored.begins (sound.first_iff.1 first)))
  | @includes o q α γ n _ _ p holds along hp ne right nonterminal nullable _ ih =>
    obtain ⟨p', hp', left, right'⟩ := mirrored.there.rule hp
    rw [right, List.map_append, List.map_cons] at right'
    have known : ∀ x ∈ α, x ∈ g.ids := fun x mem => sound.right_mem_ids hp x (by simp [right, mem])
    have along' := same.trail along fun x mem => known x (List.mem_filter.1 mem).1
    rw [← mirrored.erased known] at along'
    have vanish := sound.nullable_iff.1 nullable
    exact .includes (same.holds_of holds) along' hp' ne right' (mirrored.isNonterminal nonterminal)
      (sound'.nullable_iff.2 (List.forall_mem_map.2 fun x mem => mirrored.vanishes (vanish x mem)))
      (left ▸ ih)

theorem SameStates.looks (looks : g.Looks states start q n t) : h.Looks states' (σ start) q n (σ t) := by
  obtain ⟨p, o, hp, holds, along, follow⟩ := looks
  obtain ⟨p', hp', left, right⟩ := mirrored.there.rule hp
  have along' := same.trail along fun x mem =>
    mirrored.lawful.right_mem_ids hp x (List.mem_filter.1 mem).1
  rw [← mirrored.erased_right hp right] at along'
  exact ⟨p', o, hp', same.holds_of holds, along', left ▸ same.follow mirrored follow⟩

end Follow

section Agree

variable (mirrored : g.Mirrored σ τ h) (settled : g.Settled marker start) (settled' : h.Settled marker' start')
include mirrored settled settled'

/-- Lookahead sets have the same members, by other identifiers. -/
theorem Mirrored.looks_iff (mem : x ∈ g.ids) :
    h.Looks h.explore start' q n (σ x) ↔ g.Looks g.explore start q n x := by
  constructor
  · intro looks
    have back := (mirrored.symm.explore settled' settled).looks mirrored.symm looks
    rwa [mirrored.undone x mem, ← mirrored.symm.start_eq settled' settled] at back
  · intro looks
    rw [mirrored.start_eq settled settled']
    exact (mirrored.explore settled settled').looks mirrored looks

/-- FOLLOW has the same members, by other identifiers. -/
theorem Mirrored.follow_iff {f f' : Facts} (analysed : g.Analysed start f) (analysed' : h.Analysed start' f')
    (mem : x ∈ g.ids) (known : t ∈ g.ids) : σ t ∈ f'.followOf (σ x) ↔ t ∈ f.followOf x := by
  rw [analysed.mem_followOf, analysed'.mem_followOf]
  constructor
  · intro succeeds
    have back := mirrored.symm.succeeds succeeds
    rwa [mirrored.undone x mem, mirrored.undone t known, ← mirrored.symm.start_eq settled' settled] at back
  · intro succeeds
    rw [mirrored.start_eq settled settled']
    exact mirrored.succeeds succeeds

end Agree

end ParserGenerator.Grammar
