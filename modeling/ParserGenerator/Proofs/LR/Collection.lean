import ParserGenerator.Proofs.Analysis.FirstFollow
import ParserGenerator.Proofs.Grammar.Calls
import ParserGenerator.Proofs.LR.Paths

/-!
# The canonical collection

The states of a closed grammar are its canonical collection of sets of items: each is the least closed set
around its kernel, and a transition leads to the closure of the items that it moves over its symbol. One
symbol leads into a state. The state keeps it from the transition by which it was found, and its kernel
tells that no other transition has another one: directly in front of the dot of an item in the kernel stands
the symbol over which it was moved.
-/

namespace ParserGenerator.Grammar

variable {g : Grammar} {marker start id x : Int} {states : Array State} {q r p : Nat} {it : Item}
  {s : State} {kernel items : Item → Prop}

/-! ## Closed sets and kernels -/

/-- A dot before a nonterminal brings in its productions with the dot in front, and a dot before an action
symbol brings in the item one step further. -/
structure ClosedItems (g : Grammar) (items : Item → Prop) : Prop where
  expand : ∀ {it n p}, items it → g.Expects it p.left → g.byNumber.get? n = some p → items ⟨n, 0⟩
  skip : ∀ {it id}, items it → g.Expects it id → g.isAction id = true → items it.advance

/-- The item is the first one, or a symbol that is no action symbol stands directly in front of its dot. -/
def IsKernel (g : Grammar) (it : Item) : Prop :=
  it = .initial ∨ ∃ it' id, g.Expects it' id ∧ g.isAction id = false ∧ it = it'.advance

/-- The item belongs to the kernel of a state. -/
def Kernel (g : Grammar) (states : Array State) (q : Nat) (it : Item) : Prop :=
  Holds states q it ∧ g.IsKernel it

theorem Closure.least (closed : g.ClosedItems items) (within : ∀ it, kernel it → items it)
    (h : g.Closure kernel it) : items it := by
  induction h with
  | kernel mem => exact within _ mem
  | expand _ expects hp ih => exact closed.expand ih expects hp
  | skip _ expects action ih => exact closed.skip ih expects action

/-- Dots before terminals bring in nothing. -/
theorem closure_iff_of_inputs (sound : g.Lawful)
    (inputs : ∀ it x, kernel it → g.Expects it x → g.isInput x = true) :
    g.Closure kernel it ↔ kernel it := by
  refine ⟨Closure.least ⟨?_, ?_⟩ fun _ => id, .kernel⟩
  · intro it n rule mem expects hp
    have input := inputs it _ mem expects
    rw [isInput_of_isNonterminal (sound.isNonterminal_left hp)] at input
    cases input
  · intro it id mem expects action
    rw [isAction_of_isInput (inputs it id mem expects)] at action
    cases action

namespace Automaton

variable (settled : g.Settled marker start) (auto : g.Automaton states)

include auto in
theorem closed_holds (q : Nat) : g.ClosedItems (Holds states q) where
  expand := auto.expand
  skip := auto.skip

include auto in
theorem kernel_zero : g.Kernel states 0 it ↔ it = .initial := by
  constructor
  · rintro ⟨holds, rfl | ⟨it', id, expects, plain, rfl⟩⟩
    · rfl
    · exact (auto.traced.first_symbol holds expects plain).elim
  · rintro rfl
    exact ⟨auto.holds_initial, .inl rfl⟩

include settled auto in
/-- The kernel behind a transition consists of the items that it moves. -/
theorem kernel_goto (step : goto? states q id = some r) :
    g.Kernel states r it ↔ g.Moved states q id it := by
  constructor
  · rintro ⟨holds, rfl | ⟨it', x, expects, plain, rfl⟩⟩
    · exact absurd holds (auto.not_initial settled step)
    · obtain ⟨rfl, before⟩ := auto.traced.before_symbol step holds expects plain
      exact ⟨it', before, expects, rfl⟩
  · intro moved
    refine ⟨(auto.target step).2 (.kernel moved), .inr ?_⟩
    obtain ⟨it', -, expects, eq⟩ := moved
    exact ⟨it', id, expects, (auto.moves step).1, eq⟩

include settled auto in
theorem holds_closure_kernel (inside : q < states.size) :
    Holds states q it ↔ g.Closure (g.Kernel states q) it := by
  rcases auto.origin inside with rfl | ⟨p, x, step⟩
  · exact auto.first.trans ⟨.mono fun _ => auto.kernel_zero.2, .mono fun _ => auto.kernel_zero.1⟩
  · exact (auto.target step).trans ⟨.mono fun _ => (auto.kernel_goto settled step).2,
      .mono fun _ => (auto.kernel_goto settled step).1⟩

/-! ## The symbols of transitions -/

include auto in
theorem goto_isSome_iff : (∃ r, goto? states q id = some r) ↔
    g.isAction id = false ∧ ∃ it, Holds states q it ∧ g.Expects it id := by
  constructor
  · rintro ⟨r, step⟩
    exact auto.moves step
  · rintro ⟨plain, it, holds, expects⟩
    exact auto.total holds expects plain

include settled auto in
theorem goto_ne_zero : goto? states q id ≠ some 0 :=
  fun step => auto.not_initial settled step auto.holds_initial

include auto in
/-- One symbol leads into a state. -/
theorem symbol_unique (step : goto? states q id = some r) (step' : goto? states p x = some r) :
    id = x := by
  obtain ⟨plain, it, holds, expects⟩ := auto.moves step
  exact (auto.traced.before_symbol step' (auto.shift holds expects step) expects plain).1

include settled auto in
/-- Only the start symbol in the first state leads to the first production completed. -/
theorem holds_accepting : Holds states q .accepting ↔ goto? states 0 start = some q := by
  have expects : g.Expects .initial start := ⟨_, settled.zero, rfl⟩
  have plain := isAction_of_isNonterminal (isNonterminal_iff.2 settled.start_kind)
  constructor
  · intro holds
    have behind : Holds states q Item.initial.advance := holds
    rcases auto.origin holds.inside with rfl | ⟨p, x, step⟩
    · exact (auto.traced.first_symbol behind expects plain).elim
    · obtain ⟨rfl, front⟩ := auto.traced.before_symbol step behind expects plain
      rwa [auto.eq_zero_of_initial settled front] at step
  · exact auto.shift auto.holds_initial expects

end Automaton

theorem Explored.stateNumber_eq {made : Nat → Int → Prop} (h : g.Explored made states)
    (at_q : states[q]? = some s) : stateNumber states s.items = q := by
  rcases stateNumber_spec states s.items with ⟨-, s', at_s', same⟩ | ⟨-, other⟩
  · exact h.distinct at_s' at_q ((sameItems_iff (h.nodup at_s') (h.nodup at_q)).1 same)
  · have differs := other q s at_q
    rw [(sameItems_iff (h.nodup at_q) (h.nodup at_q)).2 fun _ => Iff.rfl] at differs
    cases differs

/-! ## The collection -/

/-- The states are the canonical collection of sets of items, and what is kept of each tells the truth. -/
structure Collection (g : Grammar) (start : Int) (states : Array State) : Prop where
  nodup : ∀ {q : Nat} {s : State}, states[q]? = some s → s.items.Nodup
  /-- A set of items is found under the number of its state, and so under no other. -/
  number : ∀ {q : Nat} {s : State}, states[q]? = some s → stateNumber states s.items = q
  distinct : ∀ {q r}, q < states.size → r < states.size →
    (∀ it, Holds states q it ↔ Holds states r it) → q = r
  closed : ∀ q, g.ClosedItems (Holds states q)
  least : ∀ {q} {items : Item → Prop}, g.ClosedItems items →
    (∀ it, g.Kernel states q it → items it) → ∀ it, Holds states q it → items it
  first : ∀ {it}, g.Kernel states 0 it ↔ it = .initial
  moves : ∀ {q id}, (∃ r, goto? states q id = some r) ↔
    g.isAction id = false ∧ ∃ it, Holds states q it ∧ g.Expects it id
  target : ∀ {q id r}, goto? states q id = some r → r < states.size ∧
    ∀ {it}, Holds states r it ↔ g.Closure (g.Moved states q id) it
  reached : ∀ {q}, q < states.size → ∃ γ, Trail states 0 γ q
  entered : ∀ {q id}, goto? states q id ≠ some 0
  accessing : ∀ {q id r}, goto? states q id = some r →
    ∃ s : State, states[r]? = some s ∧ s.accessing = some id
  accepts : ∀ {q : Nat} {s : State}, states[q]? = some s →
    (s.accepts = true ↔ goto? states 0 start = some q)

theorem Settled.accessing_eq (settled : g.Settled marker start)
    (step : goto? g.explore q id = some r) :
    ∃ s : State, g.explore[r]? = some s ∧ s.accessing = some id := by
  have auto := settled.automaton
  have inside := auto.inside step
  have at_r : g.explore[r]? = some g.explore[r] := Array.getElem?_eq_getElem inside
  refine ⟨_, at_r, ?_⟩
  rcases settled.coherent.explored.accessed at_r with rfl | ⟨p, x, leads, step'⟩
  · exact absurd step (auto.goto_ne_zero settled)
  · rw [leads, auto.symbol_unique step step']

theorem Settled.collection (settled : g.Settled marker start) : g.Collection start g.explore := by
  have auto := settled.automaton
  exact {
    nodup := auto.nodup
    number := settled.coherent.explored.stateNumber_eq
    distinct := auto.distinct
    closed := auto.closed_holds
    least := fun closed within _ holds =>
      ((auto.holds_closure_kernel settled holds.inside).1 holds).least closed within
    first := auto.kernel_zero
    moves := auto.goto_isSome_iff
    target := fun step => ⟨auto.inside step, auto.target step⟩
    reached := auto.reached
    entered := auto.goto_ne_zero settled
    accessing := settled.accessing_eq
    accepts := by
      intro q s at_q
      rw [State.accepts, List.contains_iff_mem, ← holds_iff at_q, auto.holds_accepting settled] }

/-- The states of a closed grammar that was made by calls are its canonical collection, and production 0,
with which the first state begins, leads from the start marker to the start symbol. -/
theorem Declared.states_canonical (declared : Declared g) (closed : g.closed = true) :
    ∃ states marker start, g.states = .ok states ∧ g.idOfStartMarker = .ok marker ∧
      g.idOfStart = .ok start ∧ g.byNumber.get? 0 = some ⟨0, marker, [start], none, none⟩ ∧
      g.Collection start states := by
  obtain ⟨⟨marker, start, settled⟩, -⟩ := declared.complete closed
  obtain ⟨m, at_m, named⟩ := settled.marker_name
  exact ⟨g.explore, marker, start, settled.states_eq, settled.table.idOf_eq_ok.2 ⟨m, at_m, named⟩,
    settled.idOfStart_eq g.facts, settled.zero, settled.collection⟩

/-- Behind a place the action of an assignment is passed in the state that the place leads to. -/
theorem states_canonical_pointers : Declared pointers ∧ pointers.closed = true ∧
    ∃ states, pointers.states = .ok states ∧ pointers.Collection 7 states ∧
      goto? states 0 8 = some 2 ∧ Holds states 2 ⟨1, 2⟩ ∧
      ∃ s : State, states[2]? = some s ∧ s.accessing = some 8 ∧ s.accepts = false := by
  obtain ⟨states, marker, start, found, -, started, -, collection⟩ :=
    declared_pointers.states_canonical closed_pointers
  cases idOfStart_pointers.symm.trans started
  obtain ⟨⟨_, _, settled⟩, -⟩ := declared_pointers.complete closed_pointers
  obtain rfl := Except.ok.inj (found.symm.trans settled.states_eq)
  have step : goto? pointers.explore 0 8 = some 2 := by decide +kernel
  have begins : goto? pointers.explore 0 7 = some 1 := by decide +kernel
  have front : Holds pointers.explore 2 ⟨1, 1⟩ := by decide +kernel
  obtain ⟨p, hp, action⟩ : ∃ p, pointers.byNumber.get? 1 = some p ∧ p.right[1]? = some 6 :=
    Option.bind_eq_some_iff.1 (by decide +kernel)
  obtain ⟨s, at_s, leads⟩ := collection.accessing step
  refine ⟨declared_pointers, closed_pointers, _, found, collection, step, ?_, s, at_s, leads, ?_⟩
  · exact (collection.closed 2).skip front ⟨p, hp, action⟩ (by decide +kernel)
  · rw [Bool.eq_false_iff, ne_eq, collection.accepts at_s, begins]
    decide

end ParserGenerator.Grammar
