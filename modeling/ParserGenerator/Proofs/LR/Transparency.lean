import Mathlib.Data.List.Sort
import ParserGenerator.Proofs.LR.Comparison
import ParserGenerator.Proofs.LR.Twins

/-!
# Tables that differ in action symbols

Twins have the same completed productions, and these have the same lookahead sets by name. So the same
candidates come up for their cells, are settled in the same way and make as many conflicts. The tables of
two grammars that are the same but for action symbols are the same up to the numbers of the states.
-/

namespace ParserGenerator

/-- The action with the state it shifts to numbered anew. -/
def Action.renumber (φ : Nat → Nat) (a : Action) : Action :=
  if a.kind = .shift then ⟨.shift, φ a.argument.toNat⟩ else a

theorem Action.renumber_other {φ : Nat → Nat} {a : Action} (other : a.kind ≠ .shift) : a.renumber φ = a :=
  if_neg other

theorem Action.kind_renumber (φ : Nat → Nat) (a : Action) : (a.renumber φ).kind = a.kind := by
  rw [renumber]
  split
  · rename_i shift
    exact shift.symm
  · rfl

namespace Grammar

variable {g h : Grammar} {start start' : Int} {states states' : Array State} {q q' : Nat}
  {n x y : Int} {p p' : Production} {s s' : State} {φ : Nat → Nat}

/-! ## Decisions -/

/-- FOLLOW is the same by name. -/
def FollowsAgree (g h : Grammar) : Prop :=
  ∀ {a b x y}, g.Namesakes h a b → g.Namesakes h x y →
    (y ∈ h.facts.followOf b ↔ x ∈ g.facts.followOf a)

theorem Kindred.verdict (kin : g.Kindred h) (follows : g.FollowsAgree h) (named : g.Namesakes h x y) :
    h.verdict y n = g.verdict x n := by
  cases hp : g.byNumber.get? n with
  | none =>
    cases hp' : h.byNumber.get? n with
    | none => simp only [Grammar.verdict, hp, hp']
    | some p' =>
      obtain ⟨p, hp₀, -⟩ := kin.symm.rule hp'
      rw [hp] at hp₀
      cases hp₀
  | some p =>
    obtain ⟨p', hp', left, -⟩ := kin.rule hp
    obtain ⟨level, leveled⟩ := kin.lawful.exists_levelOf hp
    obtain ⟨term, term', at_x, at_y, -, -, precedence⟩ := kin.symbols named
    rw [kin.lawful.verdict_eq hp at_x leveled,
      kin.lawful'.verdict_eq hp' at_y ((kin.levelOf hp hp').trans leveled), precedence]
    simp only [follows left named]

/-! ## Completed items -/

section Completed

variable {marker : Int} (settled : g.Settled marker start) (auto : g.Automaton states)
  (at_q : states[q]? = some s)
include settled auto at_q

theorem Settled.mem_completed_productions : n ∈ (s.completed g).map Item.production ↔
    ∃ p, g.byNumber.get? n = some p ∧ g.Dotted states q n (g.erased p.right).length := by
  rw [List.mem_map]
  constructor
  · rintro ⟨it, mem, rfl⟩
    obtain ⟨n, p, hp, rfl, holds⟩ := (settled.mem_completed auto at_q).1 mem
    exact ⟨p, hp, _, holds, rfl, progress_of_right hp (List.append_nil _).symm⟩
  · rintro ⟨p, hp, dotted⟩
    have holds := dotted.holds auto hp (List.append_nil _).symm rfl
    exact ⟨_, (settled.mem_completed auto at_q).2 ⟨n, p, hp, rfl, holds⟩, rfl⟩

end Completed

namespace Abreast

variable (pair : g.Abreast h start start' states states')
  (twins : g.Twins h states states' q q') (at_q : states[q]? = some s) (at_q' : states'[q']? = some s')
include pair twins at_q at_q'

/-- Twins have the same completed productions. -/
theorem completed : (s'.completed h).map Item.production = (s.completed g).map Item.production := by
  obtain ⟨_, settled⟩ := pair.settled
  obtain ⟨_, settled'⟩ := pair.settled'
  refine List.Pairwise.eq_of_mem_iff (settled'.completed_increasing pair.auto' at_q')
    (settled.completed_increasing pair.auto at_q) fun n => ?_
  rw [settled.mem_completed_productions pair.auto at_q,
    settled'.mem_completed_productions pair.auto' at_q']
  constructor
  · rintro ⟨p', hp', dotted⟩
    obtain ⟨p, hp, -, rights, -⟩ := pair.kindred.symm.rule hp'
    exact ⟨p, hp, (twins.dotted _ _).2 (rights.length_eq ▸ dotted)⟩
  · rintro ⟨p, hp, dotted⟩
    obtain ⟨p', hp', -, rights, -⟩ := pair.kindred.rule hp
    exact ⟨p', hp', (twins.dotted _ _).1 (rights.length_eq ▸ dotted)⟩

end Abreast

/-! ## Candidates -/

theorem map_renumber {as : List Action} (others : ∀ a ∈ as, a.kind ≠ .shift) :
    as.map (Action.renumber φ) = as :=
  (List.map_congr_left fun a mem => Action.renumber_other (others a mem)).trans (List.map_id _)

theorem filterMap_eq_of_productions {α : Type} {f f' : Item → Option α} {its its' : List Item}
    (same : its'.map Item.production = its.map Item.production)
    (agree : ∀ it ∈ its, ∀ it' ∈ its', it'.production = it.production → f' it' = f it) :
    its'.filterMap f' = its.filterMap f := by
  induction its generalizing its' with
  | nil => rw [List.map_eq_nil_iff.1 same, List.filterMap_nil, List.filterMap_nil]
  | cons it its ih =>
    obtain ⟨it', rest, rfl, first, later⟩ := List.map_eq_cons_iff.1 same
    have own := agree it List.mem_cons_self it' List.mem_cons_self first
    have others := ih later fun a mem b mem' =>
      agree a (List.mem_cons_of_mem _ mem) b (List.mem_cons_of_mem _ mem')
    rw [List.filterMap_cons, List.filterMap_cons, own, others]

namespace Abreast

variable (pair : g.Abreast h start start' states states')
  (numbered : ∀ q < states.size, g.Twins h states states' q (φ q))
include pair numbered

/-- Transitions are the same up to the numbers of the states. -/
theorem goto (twins : g.Twins h states states' q q') (named : g.Namesakes h x y) :
    goto? states' q' y = (goto? states q x).map φ := by
  cases step : goto? states q x with
  | some r =>
    obtain ⟨r', step', twins'⟩ := pair.step twins named step
    rw [step', Option.map_some, pair.eq_of_twins twins' (numbered r twins'.inside)]
  | none =>
    cases step' : goto? states' q' y with
    | none => rfl
    | some r' =>
      obtain ⟨r, step₀, -⟩ := pair.symm.step twins.symm named.symm step'
      rw [step] at step₀
      cases step₀

/-- The candidates for the cells of twins are the same up to the numbers of the states. -/
theorem candidates {look look' : Item → Except Error TerminalSet}
    (twins : g.Twins h states states' q q') (at_q : states[q]? = some s)
    (at_q' : states'[q']? = some s') (named : g.Namesakes h x y)
    (agree : ∀ it ∈ s.completed g, ∀ it' ∈ s'.completed h, it'.production = it.production →
      demanded look' y it' = demanded look x it) :
    h.candidates s' look' y = (g.candidates s look x).map (Action.renumber φ) := by
  have shift := pair.goto numbered twins named
  rw [goto?, goto?, at_q, at_q', Option.bind_some, Option.bind_some] at shift
  rw [Grammar.candidates, Grammar.candidates, List.map_append,
    map_renumber ne_shift_of_demanded, pair.kindred.isInput named, shift,
    filterMap_eq_of_productions (pair.completed twins at_q at_q') agree]
  cases g.isInput x with
  | false => rfl
  | true => cases s.transitions.get? x <;> rfl

end Abreast

/-! ## Cells -/

theorem contend_renumber {v : Int → Decision} {held a : Action} (other : a.kind ≠ .shift) :
    contend v (held.renumber φ) a = (contend v held a).renumber φ := by
  by_cases shift : held.kind = .shift
  · unfold contend
    rw [Action.kind_renumber]
    simp only [shift, if_true]
    split
    · exact (Action.renumber_other other).symm
    · split
      · rfl
      · exact (Action.renumber_other other).symm
      · rfl
  · rw [Action.renumber_other shift, Action.renumber_other]
    unfold contend
    rw [if_neg shift]
    split
    · exact other
    · exact shift

theorem foldl_contend_renumber {v : Int → Decision} {held : Action} {as : List Action}
    (others : ∀ a ∈ as, a.kind ≠ .shift) :
    as.foldl (contend v) (held.renumber φ) = (as.foldl (contend v) held).renumber φ := by
  induction as generalizing held with
  | nil => rfl
  | cons a as ih =>
    obtain ⟨first, later⟩ := List.forall_mem_cons.1 others
    rw [List.foldl_cons, List.foldl_cons, contend_renumber first, ih later]

/-- Only the first candidate for a cell shifts. -/
theorem candidates_tail {look : Item → Except Error TerminalSet} :
    ∀ a ∈ (g.candidates s look x).tail, a.kind ≠ .shift := by
  rw [Grammar.candidates]
  cases (if g.isInput x then s.transitions.get? x else none) with
  | none => exact fun a mem => ne_shift_of_demanded a (List.mem_of_mem_tail mem)
  | some r => exact ne_shift_of_demanded

theorem outcome_renumber {v : Int → Decision} {as : List Action}
    (others : ∀ a ∈ as.tail, a.kind ≠ .shift) :
    outcome v (as.map (Action.renumber φ)) = (outcome v as).map (Action.renumber φ) := by
  cases as with
  | nil => rfl
  | cons a as =>
    rw [List.tail_cons] at others
    rw [List.map_cons, map_renumber others, outcome, outcome, foldl_contend_renumber others]
    rfl

end Grammar

/-! ## Tables -/

namespace Tables

/-- The cells and the reports are in states that there are, on symbols that are known. -/
structure Within (t : Tables) (known : Int → Prop) : Prop where
  action : ∀ {k a}, t.action.get? k = some a → ∃ q : Nat, k.1 = q ∧ (q : Int) < t.stateCount ∧ known k.2
  goto : ∀ {k r}, t.goto.get? k = some r → ∃ q : Nat, k.1 = q ∧ (q : Int) < t.stateCount ∧ known k.2
  conflicts : ∀ c ∈ t.conflicts, ∃ q : Nat, c.state = q ∧ (q : Int) < t.stateCount ∧ known c.terminal

theorem Within.mono {t : Tables} {known known' : Int → Prop} (h : t.Within known)
    (widen : ∀ x, known x → known' x) : t.Within known' where
  action := fun cell => (h.action cell).imp fun _ ⟨same, inside, known⟩ => ⟨same, inside, widen _ known⟩
  goto := fun cell => (h.goto cell).imp fun _ ⟨same, inside, known⟩ => ⟨same, inside, widen _ known⟩
  conflicts := fun c mem =>
    (h.conflicts c mem).imp fun _ ⟨same, inside, known⟩ => ⟨same, inside, widen _ known⟩

/-- The tables are the same up to the numbers of the states and the identifiers of the symbols. -/
structure Renumbered (named : Int → Int → Prop) (φ : Nat → Nat) (t t' : Tables) : Prop where
  count : t'.stateCount = t.stateCount
  bijective : Set.BijOn φ {q | (q : Int) < t.stateCount} {q | (q : Int) < t'.stateCount}
  first : φ 0 = 0
  lengths : t'.rightLengths = t.rightLengths
  within : t.Within fun x => ∃ y, named x y
  within' : t'.Within fun y => ∃ x, named x y
  action : ∀ {q : Nat} {x y}, (q : Int) < t.stateCount → named x y →
    t'.action.get? ((φ q : Int), y) = (t.action.get? ((q : Int), x)).map (Action.renumber φ)
  goto : ∀ {q : Nat} {x y}, (q : Int) < t.stateCount → named x y →
    t'.goto.get? ((φ q : Int), y) = (t.goto.get? ((q : Int), x)).map fun r => (φ r.toNat : Int)
  conflicts : ∀ {q : Nat} {x y}, (q : Int) < t.stateCount → named x y →
    t'.conflicts.countP (fun c => c.state = (φ q : Int) ∧ c.terminal = y) =
      t.conflicts.countP (fun c => c.state = (q : Int) ∧ c.terminal = x)

end Tables

namespace Grammar

variable {g h : Grammar} {start start' : Int} {states states' : Array State} {φ : Nat → Nat}
  {look look' : Nat → Item → Except Error TerminalSet} {t t' : Tables}

theorem Contents.exists_inside (contents : g.Contents states look t) {q : Nat} {s : State}
    (at_q : states[q]? = some s) : (q : Int) < t.stateCount := by
  have inside := (Array.getElem?_eq_some_iff.1 at_q).1
  have count := contents.count
  omega

/-- A cell is in a state that there is, for a terminal. -/
theorem Contents.action_inside (contents : g.Contents states look t) {k : Int × Int} {a : Action}
    (cell : t.action.get? k = some a) :
    ∃ q : Nat, k.1 = q ∧ (q : Int) < t.stateCount ∧ g.isInput k.2 = true := by
  obtain ⟨q, same, input, permits⟩ := contents.permits cell
  obtain ⟨s, at_q⟩ := permits.exists_state
  exact ⟨q, same, contents.exists_inside at_q, input⟩

/-- A goto cell stands for a transition. -/
theorem Contents.goto_inside (contents : g.Contents states look t) {k : Int × Int} {r : Int}
    (cell : t.goto.get? k = some r) :
    ∃ q r' : Nat, k.1 = q ∧ (q : Int) < t.stateCount ∧ goto? states q k.2 = some r' := by
  obtain ⟨i, x⟩ := k
  have listed := cell
  rw [contents.gotos] at listed
  obtain ⟨q, row, at_i, at_row, -⟩ := OrderedMap.mem_numbered.1 (OrderedMap.mem_toList.2 listed)
  obtain rfl : i = q := at_i.trans (Int.zero_add _)
  obtain ⟨-, r', step, -⟩ := contents.goto.1 cell
  obtain ⟨s, at_q, -⟩ := goto?_eq_some.1 step
  exact ⟨q, r', rfl, contents.exists_inside at_q, step⟩

/-- Where something is reported there is a cell. -/
theorem Contents.reported (contents : g.Contents states look t) {c : Conflict} (mem : c ∈ t.conflicts) :
    ∃ a, t.action.get? (c.state, c.terminal) = some a := by
  obtain ⟨q, s, at_q, state⟩ := contents.sources c mem
  have reported : 0 < t.conflicts.countP fun d => d.state = (q : Int) ∧ d.terminal = c.terminal :=
    List.countP_pos_iff.2 ⟨c, mem, by simp [state]⟩
  rw [contents.reports at_q] at reported
  rw [state]
  cases cell : t.action.get? ((q : Int), c.terminal) with
  | none =>
    rw [contents.cell at_q, outcome_eq_none] at cell
    rw [cell] at reported
    cases reported
  | some a => exact ⟨a, rfl⟩

theorem Contents.within (contents : g.Contents states look t)
    (pair : g.Abreast h start start' states states') : t.Within fun x => ∃ y, g.Namesakes h x y := by
  have cells : ∀ {k a}, t.action.get? k = some a →
      ∃ q : Nat, k.1 = q ∧ (q : Int) < t.stateCount ∧ ∃ y, g.Namesakes h k.2 y := by
    intro k a cell
    obtain ⟨q, same, inside, input⟩ := contents.action_inside cell
    obtain ⟨symbol, at_x, -⟩ := isInput_iff.1 input
    have plain := (isAction_eq at_x).symm.trans (isAction_of_isInput input)
    obtain ⟨y, -, named, -⟩ := pair.kindred.exists_namesake at_x plain
    exact ⟨q, same, inside, y, named⟩
  refine ⟨cells, ?_, ?_⟩
  · intro k r cell
    obtain ⟨q, r', same, inside, step⟩ := contents.goto_inside cell
    exact ⟨q, same, inside, pair.exists_namesake step⟩
  · intro c mem
    obtain ⟨a, cell⟩ := contents.reported mem
    exact cells cell

theorem Contents.states_eq (contents : g.Contents states look t) :
    {q : Nat | (q : Int) < t.stateCount} = Set.Iio states.size := by
  ext q
  exact (by rw [contents.count, Int.ofNat_lt] : (q : Int) < t.stateCount ↔ q < states.size)

theorem Tabled.goto_eq (tabled : g.Tabled states t) (q : Nat) (x : Int) :
    t.goto.get? ((q : Int), x) = if g.isInput x then none else (goto? states q x).map Int.ofNat := by
  refine Option.ext fun r => ?_
  rw [tabled.goto]
  cases g.isInput x with
  | true => simp
  | false => simp [eq_comm]

theorem Settled.rightLengths_eq {marker : Int} (settled : g.Settled marker start)
    (tabled : g.Tabled states t) :
    t.rightLengths = g.productions.toList.map fun p => Int.ofNat (g.erased p.right).length := by
  obtain ⟨ns, lengths, same⟩ := tabled.lengths
  cases lengths.symm.trans settled.coherent.mapM_reduceLength
  rw [same, List.map_map]
  rfl

theorem Abreast.rightLengths_eq (pair : g.Abreast h start start' states states')
    (tabled : g.Tabled states t) (tabled' : h.Tabled states' t') : t'.rightLengths = t.rightLengths := by
  obtain ⟨_, settled⟩ := pair.settled
  obtain ⟨_, settled'⟩ := pair.settled'
  rw [settled.rightLengths_eq tabled, settled'.rightLengths_eq tabled']
  refine List.ext_getElem? fun i => ?_
  rw [List.getElem?_map, List.getElem?_map, Array.getElem?_toList, Array.getElem?_toList, settled.listed,
    settled'.listed]
  cases hp : g.byNumber.get? i with
  | none =>
    cases hp' : h.byNumber.get? i with
    | none => rfl
    | some p' =>
      obtain ⟨p, hp₀, -⟩ := pair.kindred.symm.rule hp'
      rw [hp] at hp₀
      cases hp₀
  | some p =>
    obtain ⟨p', hp', -, rights, -⟩ := pair.kindred.rule hp
    rw [hp', Option.map_some, Option.map_some, rights.length_eq]

/-- The lookahead sets of completed items agree by name. -/
def LooksAgree (g h : Grammar) (states states' : Array State)
    (look look' : Nat → Item → Except Error TerminalSet) : Prop :=
  ∀ {q q' : Nat} {n x y : Int} {p p' : Production}, g.Twins h states states' q q' → g.Namesakes h x y →
    n ≠ 0 → g.byNumber.get? n = some p → h.byNumber.get? n = some p' →
    ∃ ts ts', look q ⟨n, p.right.length⟩ = .ok ts ∧ look' q' ⟨n, p'.right.length⟩ = .ok ts' ∧
      (y ∈ ts' ↔ x ∈ ts)

section Agree

variable {f f' : Facts} {la la' : Lookaheads} (pair : g.Abreast h start start' g.explore h.explore)
include pair

theorem Abreast.followsAgree (analysed : g.Analysed start f) (analysed' : h.Analysed start' f') :
    (g.having f).FollowsAgree (h.having f') := by
  intro a b x y left named
  show y ∈ f'.followOf b ↔ x ∈ f.followOf a
  rw [analysed.mem_followOf, analysed'.mem_followOf]
  constructor
  · exact fun succeeds =>
      pair.kindred.symm.succeeds succeeds pair.starts.symm left.symm named.symm
  · exact fun succeeds => pair.kindred.succeeds succeeds pair.starts left named

theorem Abreast.looksAgree (follows : (g.having f).FollowsAgree (h.having f'))
    (sets : ∀ q k x, x ∈ la.at q k ↔ g.Looks g.explore start q k x)
    (sets' : ∀ q k x, x ∈ la'.at q k ↔ h.Looks h.explore start' q k x) (m : Method) :
    (g.having f).LooksAgree (h.having f') g.explore h.explore ((g.having f).lookOf m la)
      ((h.having f').lookOf m la') := by
  obtain ⟨_, settled⟩ := pair.settled
  obtain ⟨_, settled'⟩ := pair.settled'
  intro q q' n x y p p' twins named _ hp hp'
  have twins : g.Twins h g.explore h.explore q q' := ⟨twins.inside, twins.inside', twins.dotted⟩
  cases m with
  | slr =>
    obtain ⟨p'', same, left, -⟩ := pair.kindred.rule hp
    cases same.symm.trans hp'
    exact ⟨_, _, (settled.having f).lookOf_slr hp, (settled'.having f').lookOf_slr hp',
      follows left named⟩
  | lalr =>
    refine ⟨_, _, rfl, rfl, ?_⟩
    rw [sets, sets']
    exact ⟨fun looks => pair.symm.looks looks twins.symm named.symm,
      fun looks => pair.looks looks twins named⟩

end Agree

section Renumbered

variable (contents : g.Contents states look t) (contents' : h.Contents states' look' t')
  (pair : g.Abreast h start start' states states') (looks : g.LooksAgree h states states' look look')
include pair looks

theorem Abreast.demanded {q q' : Nat} {s s' : State} {x y : Int}
    (twins : g.Twins h states states' q q') (at_q : states[q]? = some s)
    (at_q' : states'[q']? = some s') (named : g.Namesakes h x y) :
    ∀ it ∈ s.completed g, ∀ it' ∈ s'.completed h, it'.production = it.production →
      demanded (look' q') y it' = demanded (look q) x it := by
  obtain ⟨_, settled⟩ := pair.settled
  obtain ⟨_, settled'⟩ := pair.settled'
  intro it mem it' mem' same
  obtain ⟨n, p, hp, rfl, -⟩ := (settled.mem_completed pair.auto at_q).1 mem
  obtain ⟨n', p', hp', rfl, -⟩ := (settled'.mem_completed pair.auto' at_q').1 mem'
  dsimp only at same
  subst same
  unfold Grammar.demanded
  dsimp only
  by_cases zero : n' = 0
  · rw [if_pos zero, if_pos zero]
    have ended : y = endMarkerId ↔ x = endMarkerId := by
      constructor
      · rintro rfl
        exact pair.kindred.symm.unique named.symm pair.kindred.symm.endMarker
      · rintro rfl
        exact pair.kindred.unique named pair.kindred.endMarker
    simp only [ended]
  · obtain ⟨ts, ts', found, found', agree⟩ := looks twins named zero hp hp'
    rw [if_neg zero, if_neg zero, found, found']
    simp only [agree]

include contents contents'

/-- The tables of grammars that are the same but for action symbols are the same up to the numbers of the
states and the identifiers of the symbols. -/
theorem Abreast.renumbered (follows : g.FollowsAgree h)
    (bijective : Set.BijOn φ (Set.Iio states.size) (Set.Iio states'.size)) (first : φ 0 = 0)
    (numbered : ∀ q < states.size, g.Twins h states states' q (φ q)) :
    t.Renumbered (g.Namesakes h) φ t' := by
  have kin := pair.kindred
  have sizes : states.size = states'.size := Nat.le_antisymm pair.size_le pair.symm.size_le
  have count : t'.stateCount = t.stateCount := by
    rw [contents.count, contents'.count, sizes]
  have entry : ∀ {q : Nat}, (q : Int) < t.stateCount → ∃ s s', states[q]? = some s ∧
      states'[φ q]? = some s' ∧ g.Twins h states states' q (φ q) := by
    intro q inside
    rw [contents.count] at inside
    have twins := numbered q (Int.ofNat_lt.1 inside)
    exact ⟨_, _, Array.getElem?_eq_getElem twins.inside, Array.getElem?_eq_getElem twins.inside', twins⟩
  have candidates : ∀ {q : Nat} {s s' : State} {x y : Int}, states[q]? = some s →
      states'[φ q]? = some s' → g.Twins h states states' q (φ q) → g.Namesakes h x y →
      h.candidates s' (look' (φ q)) y = (g.candidates s (look q) x).map (Action.renumber φ) :=
    fun at_q at_q' twins named => pair.candidates numbered twins at_q at_q' named
      (pair.demanded looks twins at_q at_q' named)
  exact {
    count := count
    bijective := by
      rw [contents.states_eq, contents'.states_eq]
      exact bijective
    first := first
    lengths := pair.rightLengths_eq contents.toTabled contents'.toTabled
    within := contents.within pair
    within' := (contents'.within pair.symm).mono fun y ⟨x, named⟩ => ⟨x, named.symm⟩
    action := by
      intro q x y inside named
      obtain ⟨s, s', at_q, at_q', twins⟩ := entry inside
      have verdict : h.verdict y = g.verdict x := funext fun n => kin.verdict follows named
      rw [contents.cell at_q, contents'.cell at_q', candidates at_q at_q' twins named, verdict,
        outcome_renumber candidates_tail]
    goto := by
      intro q x y inside named
      obtain ⟨s, s', -, -, twins⟩ := entry inside
      rw [contents.goto_eq, contents'.goto_eq, kin.isInput named, pair.goto numbered twins named]
      cases g.isInput x with
      | true => rfl
      | false => cases goto? states q x <;> rfl
    conflicts := by
      intro q x y inside named
      obtain ⟨s, s', at_q, at_q', twins⟩ := entry inside
      rw [contents.reports at_q, contents'.reports at_q', candidates at_q at_q' twins named,
        List.length_map] }

end Renumbered

end Grammar

end ParserGenerator
