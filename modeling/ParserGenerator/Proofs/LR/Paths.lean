import ParserGenerator.Proofs.Collection.Attempt
import ParserGenerator.Proofs.LR.Automaton

/-!
# Paths through the automaton

An automaton is described by what its states hold. Whatever way led into a state, an item with its dot
behind some symbols can be traced back over these symbols to a state that holds the item with its dot in
front.
-/

namespace ParserGenerator.Grammar

variable {g : Grammar} {marker start : Int} {states : Array State} {q r i k n : Nat} {id : Int}
  {it : Item}

/-- The item comes from one that a state holds by moving its dot over a symbol. -/
def Moved (g : Grammar) (states : Array State) (q : Nat) (id : Int) (it : Item) : Prop :=
  ∃ it', Holds states q it' ∧ g.Expects it' id ∧ it = it'.advance

/-- The states hold what they have to, and no other transitions are made than these. -/
structure Automaton (g : Grammar) (states : Array State) : Prop where
  first : ∀ {it}, Holds states 0 it ↔ g.Closure (· = .initial) it
  target : ∀ {q id r}, goto? states q id = some r →
    ∀ {it}, Holds states r it ↔ g.Closure (g.Moved states q id) it
  total : ∀ {q it id}, Holds states q it → g.Expects it id → g.isAction id = false →
    ∃ r, goto? states q id = some r
  moves : ∀ {q id r}, goto? states q id = some r →
    g.isAction id = false ∧ ∃ it, Holds states q it ∧ g.Expects it id
  inside : ∀ {q id r}, goto? states q id = some r → r < states.size
  valid : ∀ {q it}, Holds states q it → g.Valid it
  distinct : ∀ {q r}, q < states.size → r < states.size →
    (∀ it, Holds states q it ↔ Holds states r it) → q = r
  reached : ∀ {q}, q < states.size → ∃ γ, Trail states 0 γ q
  nodup : ∀ {q : Nat} {s : State}, states[q]? = some s → s.items.Nodup

theorem holds_iff {s : State} (at_q : states[q]? = some s) : Holds states q it ↔ it ∈ s.items := by
  constructor
  · rintro ⟨s', at_q', mem⟩
    rw [at_q] at at_q'
    cases at_q'
    exact mem
  · exact fun mem => ⟨s, at_q, mem⟩

theorem Settled.automaton (settled : g.Settled marker start) : g.Automaton g.explore := by
  have coherent := settled.coherent
  have h := coherent.explored
  have inside : ∀ {q : Nat} {s : State}, g.explore[q]? = some s → q < g.explore.size :=
    fun at_q => (Array.getElem?_eq_some_iff.1 at_q).1
  have next : ∀ {q : Nat} {s : State} {id : Int}, g.explore[q]? = some s →
      (id ∈ g.nextSymbols s.items ↔ g.isAction id = false ∧ ∃ it ∈ s.items, g.Expects it id) :=
    fun at_q => coherent.mem_nextSymbols (h.valid at_q)
  constructor
  · intro it
    obtain ⟨s, at_s, items⟩ := h.first
    have kernel : ∀ it ∈ [Item.initial], g.Valid it := by
      intro it mem
      rw [List.mem_singleton.1 mem]
      exact coherent.valid_initial
    rw [holds_iff at_s, items, (settled.closure_spec kernel).2 it]
    exact ⟨.mono fun _ mem => List.mem_singleton.1 mem, .mono fun _ eq => List.mem_singleton.2 eq⟩
  · intro q id r step it
    obtain ⟨s, at_s, get⟩ := goto?_eq_some.1 step
    obtain ⟨-, -, s', at_s', same⟩ := h.targets at_s get
    rw [holds_iff at_s', same it, settled.closure_advanceOver (h.valid at_s) id it]
    constructor
    · refine .mono ?_
      rintro it ⟨it', mem, expects, eq⟩
      exact ⟨it', ⟨s, at_s, mem⟩, expects, eq⟩
    · refine .mono ?_
      rintro it ⟨it', holds, expects, eq⟩
      exact ⟨it', (holds_iff at_s).1 holds, expects, eq⟩
  · rintro q it id ⟨s, at_s, mem⟩ expects plain
    obtain ⟨r, get⟩ := h.total at_s (inside at_s) ((next at_s).2 ⟨plain, it, mem, expects⟩)
    exact ⟨r, goto?_eq_some.2 ⟨s, at_s, get⟩⟩
  · intro q id r step
    obtain ⟨s, at_s, get⟩ := goto?_eq_some.1 step
    obtain ⟨-, mem, -⟩ := h.targets at_s get
    obtain ⟨plain, it, mem, expects⟩ := (next at_s).1 mem
    exact ⟨plain, it, ⟨s, at_s, mem⟩, expects⟩
  · intro q id r step
    obtain ⟨s, at_s, get⟩ := goto?_eq_some.1 step
    obtain ⟨-, -, s', at_s', -⟩ := h.targets at_s get
    exact inside at_s'
  · rintro q it ⟨s, at_s, mem⟩
    exact h.valid at_s it mem
  · intro q r hq hr same
    have at_q : g.explore[q]? = some g.explore[q] := Array.getElem?_eq_getElem hq
    have at_r : g.explore[r]? = some g.explore[r] := Array.getElem?_eq_getElem hr
    apply h.distinct at_q at_r
    intro it
    rw [← holds_iff at_q, ← holds_iff at_r]
    exact same it
  · intro q hq
    exact h.reached (Array.getElem?_eq_getElem hq)
  · exact h.nodup

/-- Every item of every state passes the check. -/
theorem Settled.states_eq (settled : g.Settled marker start) : g.states = .ok g.explore := by
  have checked : ∀ s ∈ g.explore.toList, (s.items.forM (Item.check g)) = .ok () := by
    intro s mem
    obtain ⟨q, hq, at_q⟩ := List.getElem_of_mem mem
    rw [Array.length_toList] at hq
    rw [Array.getElem_toList] at at_q
    have at_q : g.explore[q]? = some s := by rw [Array.getElem?_eq_getElem hq, at_q]
    refine Attempt.forM_eq_ok.2 fun it mem => ?_
    have valid := settled.coherent.explored.valid at_q it mem
    obtain ⟨p, hp, -⟩ := id valid
    rw [Item.check, settled.coherent.productionAt?_eq hp]
    cases next : it.next? g with
    | none => rfl
    | some id =>
      obtain ⟨p', hp', at_id⟩ := (settled.coherent.next?_eq valid).1 next
      obtain ⟨-, s, at_s⟩ := settled.right hp' id (List.mem_of_getElem? at_id)
      simp only [SymbolTable.symbol, at_s]
      rfl
  rw [Grammar.states]
  rw [Attempt.forM_eq_ok.2 checked]
  rfl

/-! ## Where items come from -/

theorem Settled.marker_ne (settled : g.Settled marker start) (expects : g.Expects it marker) : False := by
  obtain ⟨p, hp, next⟩ := expects
  exact settled.marker_right hp (List.mem_of_getElem? next)

/-- An item with its dot behind an action symbol comes from the one in front of it, unless it was there. -/
theorem Closure.before {kernel : Item → Prop} (h : g.Closure kernel it.advance)
    (expects : g.Expects it id) :
    kernel it.advance ∨ g.isAction id = true ∧ g.Closure kernel it := by
  generalize eq : it.advance = it' at h
  cases h with
  | kernel mem => exact .inl mem
  | expand _ _ _ => cases eq
  | skip before expects' action =>
    cases it
    rename_i it'' id' _ _
    cases it''
    cases eq
    exact .inr ⟨expects.inj expects' ▸ action, before⟩

/-- A production with its dot in front is expected by some item of the same set. -/
theorem Closure.expected {kernel : Item → Prop} (h : g.Closure kernel it) (front : it.position = 0)
    {p : Production} (hp : g.byNumber.get? it.production = some p) :
    kernel it ∨ ∃ it', g.Closure kernel it' ∧ g.Expects it' p.left := by
  cases h with
  | kernel mem => exact .inl mem
  | expand before expects hq =>
    rw [hq] at hp
    cases hp
    exact .inr ⟨_, before, expects⟩
  | skip _ _ _ => cases front

theorem advance_ne_initial (it : Item) : it.advance ≠ .initial :=
  fun eq => Nat.succ_ne_zero _ (congrArg Item.position eq)

theorem advance_inj {it' : Item} (same : it.advance = it'.advance) : it = it' := by
  cases it
  cases it'
  cases same
  rfl

theorem Automaton.origin (auto : g.Automaton states) (inside : q < states.size) :
    q = 0 ∨ ∃ p id, goto? states p id = some q := by
  obtain ⟨γ, trail⟩ := auto.reached inside
  rcases List.eq_nil_or_concat γ with rfl | ⟨γ', x, rfl⟩
  · cases trail
    exact .inl rfl
  · rw [List.concat_eq_append] at trail
    obtain ⟨p, -, last⟩ := trail.split
    cases last with
    | cons step rest =>
      cases rest
      exact .inr ⟨p, x, step⟩

theorem Holds.inside (h : Holds states q it) : q < states.size := by
  obtain ⟨s, at_q, -⟩ := h
  exact (Array.getElem?_eq_some_iff.1 at_q).1

/-- An item whose dot is behind a symbol was in front of it: in the same state if that is an action symbol, else
in the state before, from which that symbol led here. -/
structure Traced (g : Grammar) (states : Array State) : Prop where
  origin : ∀ {q it}, Holds states q it → q = 0 ∨ ∃ p id, goto? states p id = some q
  moves : ∀ {q id r}, goto? states q id = some r → g.isAction id = false
  first : ∀ {it id}, Holds states 0 it.advance → g.Expects it id →
    g.isAction id = true ∧ Holds states 0 it
  target : ∀ {q id r it x}, goto? states q id = some r → Holds states r it.advance → g.Expects it x →
    g.isAction x = true ∧ Holds states r it ∨ x = id ∧ Holds states q it

namespace Traced

variable (traced : g.Traced states)
include traced

theorem before_action (holds : Holds states q it.advance) (expects : g.Expects it id)
    (action : g.isAction id = true) : Holds states q it := by
  rcases traced.origin holds with rfl | ⟨p, x, step⟩
  · exact (traced.first holds expects).2
  · rcases traced.target step holds expects with ⟨-, before⟩ | ⟨rfl, -⟩
    · exact before
    · rw [traced.moves step] at action
      cases action

theorem before_symbol (step : goto? states q id = some r) {x : Int} (holds : Holds states r it.advance)
    (expects : g.Expects it x) (plain : g.isAction x = false) : x = id ∧ Holds states q it := by
  refine (traced.target step holds expects).resolve_left ?_
  rintro ⟨action, -⟩
  rw [plain] at action
  cases action

theorem first_symbol {x : Int} (holds : Holds states 0 it.advance) (expects : g.Expects it x)
    (plain : g.isAction x = false) : False := by
  rw [(traced.first holds expects).1] at plain
  cases plain

end Traced

theorem Automaton.traced (auto : g.Automaton states) : g.Traced states where
  origin := fun holds => auto.origin holds.inside
  moves := fun step => (auto.moves step).1
  first := by
    intro it id holds expects
    rcases (auto.first.1 holds).before expects with eq | ⟨action, before⟩
    · exact absurd eq (advance_ne_initial it)
    · exact ⟨action, auto.first.2 before⟩
  target := by
    intro q id r it x step holds expects
    rcases ((auto.target step).1 holds).before expects with ⟨it', holds', expects', eq⟩ | ⟨action, before⟩
    · obtain rfl := advance_inj eq
      exact .inr ⟨expects.inj expects', holds'⟩
    · exact .inl ⟨action, (auto.target step).2 before⟩

/-! ## States of a coherent grammar -/

/-- Items can be traced back to the front of their productions, and there the left-hand sides lead on. -/
structure Rooted (g : Grammar) (states : Array State) : Prop extends Traced g states where
  left : ∀ {q n p}, Holds states q ⟨n, 0⟩ → g.byNumber.get? n = some p → n ≠ 0 →
    g.isNonterminal p.left = true ∧ ∃ r, goto? states q p.left = some r

/-- An item of a state is in its kernel, begins a production of a nonterminal that is expected there, or is one
step further than an item there before an action symbol. -/
inductive Brought (g : Grammar) (states : Array State) (q : Nat) (kernel : Item → Prop) : Item → Prop
  | kernel {it : Item} : kernel it → Brought g states q kernel it
  | expand {it : Item} {n : Int} {p : Production} : Holds states q it → g.Expects it p.left →
      g.isNonterminal p.left = true → g.byNumber.get? n = some p → Brought g states q kernel ⟨n, 0⟩
  | skip {it : Item} {id : Int} : Holds states q it → g.Expects it id → g.isAction id = true →
      Brought g states q kernel it.advance

/-- A symbol is moved over in the same state if it is an action symbol, else in a state before. -/
theorem Brought.before {kernel : Item → Prop} (h : g.Brought states q kernel it.advance)
    (expects : g.Expects it id) : kernel it.advance ∨ g.isAction id = true ∧ Holds states q it := by
  generalize eq : it.advance = it' at h
  cases h with
  | kernel mem => exact .inl mem
  | expand _ _ _ _ => cases eq
  | skip holds expects' action =>
    obtain rfl := advance_inj eq
    exact .inr ⟨expects.inj expects' ▸ action, holds⟩

theorem Brought.front {kernel : Item → Prop} {n : Int} {p : Production}
    (h : g.Brought states q kernel ⟨n, 0⟩) (hp : g.byNumber.get? n = some p) :
    kernel ⟨n, 0⟩ ∨ g.isNonterminal p.left = true ∧ ∃ it, Holds states q it ∧ g.Expects it p.left := by
  generalize eq : (⟨n, 0⟩ : Item) = it at h
  cases h with
  | kernel mem => exact .inl mem
  | expand holds expects nonterminal hq =>
    cases eq
    cases hp.symm.trans hq
    exact .inr ⟨nonterminal, _, holds, expects⟩
  | skip _ _ _ => cases eq

section Coherent

variable (coherent : g.Coherent)
include coherent

theorem Coherent.valid_holds (holds : Holds g.explore q it) : g.Valid it := by
  obtain ⟨s, at_q, mem⟩ := holds
  exact coherent.explored.valid at_q it mem

theorem Coherent.origin (holds : Holds g.explore q it) :
    q = 0 ∨ ∃ p id, goto? g.explore p id = some q := by
  obtain ⟨s, at_q, -⟩ := holds
  refine (coherent.explored.accessed at_q).imp_right ?_
  rintro ⟨p, id, -, step⟩
  exact ⟨p, id, step⟩

theorem Coherent.brought {kernel : List Item}
    (spec : ∀ it, Holds g.explore q it ↔ Reachable (·.consequences g) kernel it)
    (holds : Holds g.explore q it) : g.Brought g.explore q (· ∈ kernel) it := by
  cases (spec it).1 holds with
  | seed mem => exact .kernel mem
  | step before mem =>
    have holds' := (spec _).2 before
    rcases coherent.consequences_cases (coherent.valid_holds holds') mem with
      ⟨n, p, expects, nonterminal, hp, rfl⟩ | ⟨id, expects, action, rfl⟩
    · exact .expand holds' expects nonterminal hp
    · exact .skip holds' expects action

theorem Coherent.brought_zero (holds : Holds g.explore 0 it) :
    g.Brought g.explore 0 (· = .initial) it := by
  obtain ⟨s, at_s, items⟩ := coherent.explored.first
  have valid : ∀ it ∈ [Item.initial], g.Valid it := by
    intro it mem
    rw [List.mem_singleton.1 mem]
    exact coherent.valid_initial
  have brought := coherent.brought (fun it => by
    rw [holds_iff at_s, items, (coherent.closure_spec valid).2 it]) holds
  simpa only [List.mem_singleton] using brought

theorem Coherent.brought_goto (step : goto? g.explore q id = some r) (holds : Holds g.explore r it) :
    g.Brought g.explore r (g.Moved g.explore q id) it := by
  obtain ⟨s, at_s, get⟩ := goto?_eq_some.1 step
  obtain ⟨-, -, s', at_s', same⟩ := coherent.explored.targets at_s get
  have valid := coherent.explored.valid at_s
  have moved : (· ∈ g.advanceOver s.items id) = g.Moved g.explore q id := by
    funext it
    rw [coherent.mem_advanceOver valid, MovedOver, Moved]
    simp only [holds_iff at_s]
  have brought := coherent.brought (fun it => by
    rw [holds_iff at_s', same it, (coherent.closure_advanceOver valid id).2.2 it]) holds
  rwa [moved] at brought

theorem Coherent.traced : g.Traced g.explore where
  origin := coherent.origin
  moves := by
    intro q id r step
    obtain ⟨s, at_s, get⟩ := goto?_eq_some.1 step
    obtain ⟨-, mem, -⟩ := coherent.explored.targets at_s get
    exact ((coherent.mem_nextSymbols (coherent.explored.valid at_s)).1 mem).1
  first := by
    intro it id holds expects
    exact ((coherent.brought_zero holds).before expects).resolve_left (advance_ne_initial it)
  target := by
    intro q id r it x step holds expects
    refine ((coherent.brought_goto step holds).before expects).symm.imp_right ?_
    rintro ⟨it', holds', expects', eq⟩
    obtain rfl := advance_inj eq
    exact ⟨expects.inj expects', holds'⟩

/-- A state that holds a production with its dot in front has a transition on its left-hand side. -/
theorem Coherent.goto_left {n : Int} {p : Production} (holds : Holds g.explore q ⟨n, 0⟩)
    (hp : g.byNumber.get? n = some p) (ne : n ≠ 0) :
    g.isNonterminal p.left = true ∧ ∃ r, goto? g.explore q p.left = some r := by
  have expected : g.isNonterminal p.left = true ∧ ∃ it, Holds g.explore q it ∧ g.Expects it p.left := by
    rcases coherent.origin holds with rfl | ⟨o, x, step⟩
    · exact ((coherent.brought_zero holds).front hp).resolve_left
        fun eq => ne (congrArg Item.production eq)
    · refine ((coherent.brought_goto step holds).front hp).resolve_left ?_
      rintro ⟨it, -, -, eq⟩
      cases eq
  obtain ⟨nonterminal, it, ⟨s, at_q, mem⟩, expects⟩ := expected
  have next := (coherent.mem_nextSymbols (coherent.explored.valid at_q)).2
    ⟨isAction_of_isNonterminal nonterminal, it, mem, expects⟩
  obtain ⟨r, get⟩ := coherent.explored.total at_q (Array.getElem?_eq_some_iff.1 at_q).1 next
  exact ⟨nonterminal, r, goto?_eq_some.2 ⟨s, at_q, get⟩⟩

theorem Coherent.rooted : g.Rooted g.explore where
  toTraced := coherent.traced
  left := coherent.goto_left

end Coherent

section Automaton

variable (settled : g.Settled marker start) (auto : g.Automaton states)

include settled auto in
/-- Only the first state holds the first item. -/
theorem Automaton.not_initial (step : goto? states q id = some r) : ¬ Holds states r .initial := by
  intro holds
  rcases ((auto.target step).1 holds).expected rfl settled.zero with
    ⟨it', -, -, eq⟩ | ⟨it', -, expects⟩
  · exact advance_ne_initial it' eq.symm
  · exact settled.marker_ne expects

include settled auto in
theorem Automaton.eq_zero_of_initial (holds : Holds states q .initial) : q = 0 := by
  rcases auto.origin holds.inside with zero | ⟨p, x, step⟩
  · exact zero
  · exact absurd holds (auto.not_initial settled step)

include auto in
/-- A state that holds a production with its dot in front has a transition on its left-hand side. -/
theorem Automaton.goto_left (sound : g.Lawful) {n : Int} {p : Production}
    (holds : Holds states q ⟨n, 0⟩) (hp : g.byNumber.get? n = some p) (ne : n ≠ 0) :
    ∃ r it, goto? states q p.left = some r ∧ Holds states q it ∧ g.Expects it p.left := by
  have expected : ∃ it, Holds states q it ∧ g.Expects it p.left := by
    rcases auto.origin holds.inside with rfl | ⟨m, x, step⟩
    · rcases (auto.first.1 holds).expected rfl hp with eq | ⟨it, closed, expects⟩
      · exact absurd (congrArg Item.production eq) ne
      · exact ⟨it, auto.first.2 closed, expects⟩
    · rcases ((auto.target step).1 holds).expected rfl hp with ⟨it, -, -, eq⟩ | ⟨it, closed, expects⟩
      · exact absurd (congrArg Item.position eq) (Nat.succ_ne_zero _).symm
      · exact ⟨it, (auto.target step).2 closed, expects⟩
  obtain ⟨it, holds, expects⟩ := expected
  have plain := isAction_of_isNonterminal (sound.isNonterminal_left hp)
  obtain ⟨r, step⟩ := auto.total holds expects plain
  exact ⟨r, it, step, holds, expects⟩

include auto in
theorem Automaton.rooted (sound : g.Lawful) : g.Rooted states where
  toTraced := auto.traced
  left := by
    intro q n p holds hp ne
    obtain ⟨r, -, step, -⟩ := auto.goto_left sound holds hp ne
    exact ⟨sound.isNonterminal_left hp, r, step⟩

include settled auto in
/-- A transition is made on a registered symbol, and on a nonterminal unless it reads its symbol. -/
theorem Automaton.kind_of_goto (step : goto? states q id = some r) :
    (∃ s, g.symbols.at? id = some s) ∧ (g.isInput id = false → g.isNonterminal id = true) := by
  obtain ⟨plain, it, -, p, hp, at_id⟩ := auto.moves step
  obtain ⟨-, s, at_s⟩ := settled.right hp id (List.mem_of_getElem? at_id)
  refine ⟨⟨s, at_s⟩, fun other => ?_⟩
  rcases settled.cases_kind at_s with input | nonterminal | action
  · rw [other] at input
    cases input
  · exact nonterminal
  · rw [plain] at action
    cases action

include settled auto in
/-- No production holds the end marker, so no transition is made on it. -/
theorem Automaton.no_goto_endMarker : goto? states q endMarkerId ≠ some r := by
  intro step
  obtain ⟨-, it, -, p, hp, at_end⟩ := auto.moves step
  exact (settled.right hp _ (List.mem_of_getElem? at_end)).1 rfl

/-! ## Where items lead -/

include auto in
/-- The productions of an expected nonterminal are held with their dots in front. -/
theorem Automaton.expand {n : Int} {p : Production} (holds : Holds states q it)
    (expects : g.Expects it p.left) (hp : g.byNumber.get? n = some p) : Holds states q ⟨n, 0⟩ := by
  rcases auto.origin holds.inside with rfl | ⟨m, x, step⟩
  · exact auto.first.2 (.expand (auto.first.1 holds) expects hp)
  · exact (auto.target step).2 (.expand ((auto.target step).1 holds) expects hp)

include auto in
theorem Automaton.skip (holds : Holds states q it) (expects : g.Expects it id)
    (action : g.isAction id = true) : Holds states q it.advance := by
  rcases auto.origin holds.inside with rfl | ⟨m, x, step⟩
  · exact auto.first.2 (.skip (auto.first.1 holds) expects action)
  · exact (auto.target step).2 (.skip ((auto.target step).1 holds) expects action)

include auto in
theorem Automaton.shift (holds : Holds states q it) (expects : g.Expects it id)
    (step : goto? states q id = some r) : Holds states r it.advance :=
  (auto.target step).2 (.kernel ⟨it, holds, expects, rfl⟩)

include auto in
theorem Automaton.holds_initial : Holds states 0 .initial := auto.first.2 (.kernel rfl)

include settled auto in
/-- The start symbol leads from the first state to an accepting one. -/
theorem Automaton.exists_accepting : ∃ r, goto? states 0 start = some r ∧ Holds states r .accepting := by
  have expects : g.Expects .initial start := ⟨_, settled.zero, rfl⟩
  have plain := isAction_of_isNonterminal (isNonterminal_iff.2 settled.start_kind)
  obtain ⟨r, step⟩ := auto.total auto.holds_initial expects plain
  exact ⟨r, step, auto.shift auto.holds_initial expects step⟩

include auto in
/-- Over the symbols behind its dot an item leads to a state that holds it with its dot behind them. -/
theorem Automaton.walk {n : Int} {p : Production} {α β γ : List Int}
    (hp : g.byNumber.get? n = some p) (right : p.right = α ++ (β ++ γ))
    (holds : Holds states q ⟨n, α.length⟩) :
    ∃ r, Trail states q (g.erased β) r ∧ Holds states r ⟨n, (α ++ β).length⟩ := by
  induction β generalizing α q with
  | nil => exact ⟨q, .nil q, by rwa [List.append_nil]⟩
  | cons x β ih =>
    have expects := expects_of_right hp right
    have right : p.right = (α ++ [x]) ++ (β ++ γ) := by
      rw [right, List.append_assoc]
      rfl
    have both : (α ++ [x]) ++ β = α ++ x :: β := by rw [List.append_assoc]; rfl
    by_cases action : g.isAction x = true
    · have next := auto.skip holds expects action
      rw [advance_of_length x] at next
      obtain ⟨r, trail, last⟩ := ih right next
      rw [erased_cons_of_action action]
      exact ⟨r, trail, both ▸ last⟩
    · have action : g.isAction x = false := by simpa using action
      obtain ⟨r, step⟩ := auto.total holds expects action
      have next := auto.shift holds expects step
      rw [advance_of_length x] at next
      obtain ⟨r', trail, last⟩ := ih right next
      rw [erased_cons action]
      exact ⟨r', .cons step trail, both ▸ last⟩

end Automaton

end ParserGenerator.Grammar
