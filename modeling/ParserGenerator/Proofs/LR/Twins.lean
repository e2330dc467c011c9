import ParserGenerator.Proofs.Grammar.Plain
import ParserGenerator.Proofs.LR.Follow
import ParserGenerator.Proofs.LR.Lookahead

/-!
# States that differ in action symbols

A state holds an item on either side of an action symbol or on neither. So a state is known by its
productions and by the number of other symbols before their dots. Of two grammars that are the same but for
action symbols, each state of one has its twin in the other, transitions on namesakes lead from twins to
twins, and what follows the transitions is the same by name.
-/

namespace ParserGenerator.Grammar

variable {g h : Grammar} {start start' : Int} {states states' : Array State} {q q' r r' : Nat}
  {n t u x y : Int} {k : Nat} {p : Production} {it : Item} {α α' β β' γ δ : List Int}

/-! ## Dots behind so many symbols -/

/-- The number of symbols before the dot, action symbols not counted. -/
def progress (g : Grammar) (it : Item) : Nat :=
  (g.erased ((((g.byNumber.get? it.production).map Production.right).getD []).take it.position)).length

/-- The state holds the production with its dot behind so many symbols, action symbols not counted. -/
def Dotted (g : Grammar) (states : Array State) (q : Nat) (n : Int) (k : Nat) : Prop :=
  ∃ it, Holds states q it ∧ it.production = n ∧ g.progress it = k

theorem progress_of_right (hp : g.byNumber.get? n = some p) (right : p.right = α ++ β) :
    g.progress ⟨n, α.length⟩ = (g.erased α).length := by
  simp only [progress, hp, Option.map_some, Option.getD_some, right, List.take_left]

theorem progress_front (g : Grammar) (n : Int) : g.progress ⟨n, 0⟩ = 0 := by
  rw [progress, List.take_zero]
  rfl

theorem progress_advance (hp : g.byNumber.get? n = some p) (right : p.right = α ++ x :: γ) :
    g.progress (⟨n, α.length⟩ : Item).advance = (g.erased α).length + (g.erased [x]).length := by
  have split : p.right = (α ++ [x]) ++ γ := by simp [right]
  rw [advance_of_length x, progress_of_right hp split, erased_append, List.length_append]

theorem erased_singleton (plain : g.isAction x = false) : g.erased [x] = [x] := erased_cons plain []

theorem erased_action (action : g.isAction x = true) : g.erased [x] = [] :=
  erased_cons_of_action action []

section Automaton

variable (auto : g.Automaton states)
include auto

/-- Over action symbols a dot moves within its state. -/
theorem Automaton.slide_iff (hp : g.byNumber.get? n = some p) (right : p.right = α ++ (δ ++ β))
    (actions : g.erased δ = []) :
    Holds states q ⟨n, (α ++ δ).length⟩ ↔ Holds states q ⟨n, α.length⟩ := by
  induction δ generalizing α with
  | nil => rw [List.append_nil]
  | cons x δ ih =>
    by_cases action : g.isAction x = true
    · have expects := expects_of_right hp right
      rw [erased_cons_of_action action] at actions
      have further := ih (α := α ++ [x]) (by simp [right]) actions
      rw [List.append_assoc, List.singleton_append, ← advance_of_length x] at further
      refine further.trans ⟨fun moved => auto.traced.before_action moved expects action, fun holds => ?_⟩
      exact auto.skip holds expects action
    · rw [erased_cons (by simpa using action)] at actions
      cases actions

/-- Of two splits with as many symbols in front both are held or neither. -/
theorem Automaton.holds_of_length (holds : Holds states q ⟨n, α.length⟩)
    (hp : g.byNumber.get? n = some p) (right : p.right = α ++ β) (right' : p.right = α' ++ β')
    (same : (g.erased α).length = (g.erased α').length) : Holds states q ⟨n, α'.length⟩ := by
  rcases List.append_eq_append_iff.1 (right.symm.trans right') with ⟨δ, rfl, rfl⟩ | ⟨δ, rfl, rfl⟩
  · rw [erased_append, List.length_append] at same
    exact (auto.slide_iff hp right (List.length_eq_zero_iff.1 (by omega))).2 holds
  · rw [erased_append, List.length_append] at same
    exact (auto.slide_iff hp right' (List.length_eq_zero_iff.1 (by omega))).1 holds

theorem Dotted.holds (dotted : g.Dotted states q n k) (hp : g.byNumber.get? n = some p)
    (right : p.right = α ++ β) (length : (g.erased α).length = k) : Holds states q ⟨n, α.length⟩ := by
  obtain ⟨⟨_, i⟩, holds, rfl, rfl⟩ := dotted
  obtain ⟨p', hp', inside⟩ := auto.valid holds
  cases hp.symm.trans hp'
  have split : p.right = p.right.take i ++ p.right.drop i := (List.take_append_drop i _).symm
  have front : (p.right.take i).length = i := List.length_take_of_le inside
  rw [progress, hp] at length
  rw [← front] at holds
  exact auto.holds_of_length holds hp split right length.symm

/-- States with the same productions and dots are one state. -/
theorem Automaton.eq_of_dotted (inside : q < states.size) (inside' : r < states.size)
    (same : ∀ n k, g.Dotted states q n k ↔ g.Dotted states r n k) : q = r := by
  refine auto.distinct inside inside' fun it => ?_
  have within : ∀ {q r : Nat}, (∀ n k, g.Dotted states q n k → g.Dotted states r n k) →
      Holds states q it → Holds states r it := by
    intro q r widen holds
    obtain ⟨p, hp, position⟩ := auto.valid holds
    have split : p.right = p.right.take it.position ++ p.right.drop it.position :=
      (List.take_append_drop it.position _).symm
    have front : (p.right.take it.position).length = it.position := List.length_take_of_le position
    have dotted := widen _ _ ⟨it, holds, rfl, rfl⟩
    rw [progress, hp] at dotted
    have moved := dotted.holds auto hp split rfl
    rwa [front] at moved
  exact ⟨within fun n k => (same n k).1, within fun n k => (same n k).2⟩

end Automaton

/-! ## Twins -/

/-- The automata of two grammars that are the same but for action symbols. -/
structure Abreast (g h : Grammar) (start start' : Int) (states states' : Array State) : Prop where
  settled : ∃ marker, g.Settled marker start
  settled' : ∃ marker, h.Settled marker start'
  auto : g.Automaton states
  auto' : h.Automaton states'
  same : g.SameButActions h

/-- The states hold the same productions with their dots behind as many symbols. -/
structure Twins (g h : Grammar) (states states' : Array State) (q q' : Nat) : Prop where
  inside : q < states.size
  inside' : q' < states'.size
  dotted : ∀ n k, g.Dotted states q n k ↔ h.Dotted states' q' n k

theorem Twins.symm (twins : g.Twins h states states' q q') : h.Twins g states' states q' q :=
  ⟨twins.inside', twins.inside, fun n k => (twins.dotted n k).symm⟩

namespace Abreast

variable (pair : g.Abreast h start start' states states')

theorem symm (pair : g.Abreast h start start' states states') :
    h.Abreast g start' start states' states :=
  ⟨pair.settled', pair.settled, pair.auto', pair.auto, pair.same.symm⟩

include pair

theorem kindred : g.Kindred h := by
  obtain ⟨_, settled⟩ := pair.settled
  obtain ⟨_, settled'⟩ := pair.settled'
  exact ⟨settled.toLawful, settled'.toLawful, pair.same⟩

theorem starts : g.Namesakes h start start' := by
  obtain ⟨_, settled⟩ := pair.settled
  obtain ⟨_, settled'⟩ := pair.settled'
  have plain : g.isAction start = false :=
    isAction_of_isNonterminal (isNonterminal_iff.2 settled.start_kind)
  obtain ⟨p', α', y, γ', hp', right, -, named, -⟩ :=
    pair.kindred.occurrence (α := []) settled.zero rfl plain
  rw [(settled'.right_zero hp' right).2.1] at named
  exact named

/-- A dot before a symbol has its counterpart in the other state. -/
theorem occurrence (dotted : h.Dotted states' q' n (g.erased α).length)
    (hp : g.byNumber.get? n = some p) (right : p.right = α ++ x :: γ) (plain : g.isAction x = false) :
    ∃ p' α' y γ', h.byNumber.get? n = some p' ∧ p'.right = α' ++ y :: γ' ∧ g.Namesakes h x y ∧
      List.Forall₂ (g.Namesakes h) (g.erased γ) (h.erased γ') ∧ Holds states' q' ⟨n, α'.length⟩ ∧
      (h.erased α').length = (g.erased α).length := by
  obtain ⟨p', α', y, γ', hp', right', -, named, before, behind⟩ :=
    pair.kindred.occurrence hp right plain
  exact ⟨p', α', y, γ', hp', right', named, behind,
    dotted.holds pair.auto' hp' right' before.length_eq.symm, before.length_eq.symm⟩

/-- What a closure brings in is in a state that has the counterparts of the kernel. -/
theorem dotted_of_closure {kernel : Item → Prop} (closed : g.Closure kernel it)
    (counterparts : ∀ it, kernel it → h.Dotted states' q' it.production (g.progress it)) :
    h.Dotted states' q' it.production (g.progress it) := by
  induction closed with
  | kernel mem => exact counterparts _ mem
  | @expand it m p _ expects hp ih =>
    obtain ⟨n, rule, α, γ, rfl, hrule, right⟩ := expects.split
    rw [progress_of_right hrule right] at ih
    have plain := isAction_of_isNonterminal (pair.kindred.lawful.isNonterminal_left hp)
    obtain ⟨rule', α', y, γ', hrule', right', named, -, holds, -⟩ :=
      pair.occurrence ih hrule right plain
    obtain ⟨p', hp', left, -⟩ := pair.kindred.rule hp
    obtain rfl := pair.kindred.unique left named
    refine ⟨⟨m, 0⟩, pair.auto'.expand holds (expects_of_right hrule' right') hp', rfl, ?_⟩
    rw [progress_front, progress_front]
  | skip _ expects action ih =>
    obtain ⟨n, rule, α, γ, rfl, hrule, right⟩ := expects.split
    rw [progress_of_right hrule right] at ih
    rw [progress_advance hrule right, erased_action action]
    exact ih

theorem dotted_zero (dotted : g.Dotted states 0 n k) : h.Dotted states' 0 n k := by
  obtain ⟨it, holds, rfl, rfl⟩ := dotted
  refine pair.dotted_of_closure (pair.auto.first.1 holds) ?_
  rintro it rfl
  refine ⟨.initial, pair.auto'.holds_initial, rfl, ?_⟩
  exact (progress_front h 0).trans (progress_front g 0).symm

theorem twins_zero : g.Twins h states states' 0 0 :=
  ⟨Holds.inside pair.auto.holds_initial, Holds.inside pair.auto'.holds_initial,
    fun _ _ => ⟨pair.dotted_zero, pair.symm.dotted_zero⟩⟩

theorem dotted_step (counterparts : ∀ n k, g.Dotted states q n k → h.Dotted states' q' n k)
    (named : g.Namesakes h x y) (step : goto? states q x = some r) (step' : goto? states' q' y = some r')
    (dotted : g.Dotted states r n k) : h.Dotted states' r' n k := by
  obtain ⟨it, holds, rfl, rfl⟩ := dotted
  refine pair.dotted_of_closure ((pair.auto.target step).1 holds) ?_
  rintro it ⟨before, holds, expects, rfl⟩
  obtain ⟨n, p, α, γ, rfl, hp, right⟩ := expects.split
  have there := counterparts _ _ ⟨_, holds, rfl, progress_of_right hp right⟩
  obtain ⟨p', α', y', γ', hp', right', named', -, holds', length⟩ :=
    pair.occurrence there hp right named.isAction
  obtain rfl := pair.kindred.unique named' named
  refine ⟨_, pair.auto'.shift holds' (expects_of_right hp' right') step', rfl, ?_⟩
  rw [progress_advance hp right, progress_advance hp' right', length, erased_singleton named.isAction,
    erased_singleton named.symm.isAction]
  rfl

/-- Transitions on namesakes lead from twins to twins. -/
theorem step (twins : g.Twins h states states' q q') (named : g.Namesakes h x y)
    (step : goto? states q x = some r) :
    ∃ r', goto? states' q' y = some r' ∧ g.Twins h states states' r r' := by
  obtain ⟨-, it, holds, expects⟩ := pair.auto.moves step
  obtain ⟨n, p, α, γ, rfl, hp, right⟩ := expects.split
  have there := (twins.dotted _ _).1 ⟨_, holds, rfl, progress_of_right hp right⟩
  obtain ⟨p', α', y', γ', hp', right', named', -, holds', -⟩ :=
    pair.occurrence there hp right named.isAction
  obtain rfl := pair.kindred.unique named' named
  obtain ⟨r', step'⟩ := pair.auto'.total holds' (expects_of_right hp' right') named.symm.isAction
  refine ⟨r', step', pair.auto.inside step, pair.auto'.inside step', fun n k => ?_⟩
  constructor
  · exact pair.dotted_step (fun n k => (twins.dotted n k).1) named step step'
  · exact pair.symm.dotted_step (fun n k => (twins.dotted n k).2) named.symm step' step

/-- A state has one twin at most. -/
theorem eq_of_twins (twins : g.Twins h states states' q q') (twins' : g.Twins h states states' q r') :
    q' = r' :=
  pair.auto'.eq_of_dotted twins.inside' twins'.inside' fun n k =>
    (twins.dotted n k).symm.trans (twins'.dotted n k)

/-- The symbol of a transition has a namesake. -/
theorem exists_namesake (step : goto? states q x = some r) : ∃ y, g.Namesakes h x y := by
  obtain ⟨_, settled⟩ := pair.settled
  obtain ⟨s, at_s⟩ := (pair.auto.kind_of_goto settled step).1
  have plain := (isAction_eq at_s).symm.trans (pair.auto.moves step).1
  obtain ⟨y, -, named, -⟩ := pair.kindred.exists_namesake at_s plain
  exact ⟨y, named⟩

theorem trail (twins : g.Twins h states states' q q') (trail : Trail states q γ r) :
    ∃ γ' r', List.Forall₂ (g.Namesakes h) γ γ' ∧ Trail states' q' γ' r' ∧
      g.Twins h states states' r r' := by
  induction trail generalizing q' with
  | nil => exact ⟨[], q', .nil, .nil q', twins⟩
  | cons step _ ih =>
    obtain ⟨y, named⟩ := pair.exists_namesake step
    obtain ⟨o, step', twins⟩ := pair.step twins named step
    obtain ⟨γ', r', related, trail', twins⟩ := ih twins
    exact ⟨y :: γ', r', .cons named related, .cons step' trail', twins⟩

/-- Over given namesakes a trail leads to the twin. -/
theorem trail_of_related (twins : g.Twins h states states' q q') (trail : Trail states q γ r)
    (related : List.Forall₂ (g.Namesakes h) γ δ) :
    ∃ r', Trail states' q' δ r' ∧ g.Twins h states states' r r' := by
  obtain ⟨γ', r', related', trail', twins⟩ := pair.trail twins trail
  have same : γ' = δ := by
    clear trail trail'
    induction related' generalizing δ with
    | nil =>
      cases related
      rfl
    | cons named' _ ih =>
      cases related with
      | cons named rest => rw [pair.kindred.unique named' named, ih rest]
  exact ⟨r', same ▸ trail', twins⟩

theorem exists_twin (inside : q < states.size) : ∃ q', g.Twins h states states' q q' := by
  obtain ⟨γ, trail⟩ := pair.auto.reached inside
  obtain ⟨-, q', -, -, twins⟩ := pair.trail pair.twins_zero trail
  exact ⟨q', twins⟩

theorem size_le : states.size ≤ states'.size := by
  have chosen : ∀ q : Fin states.size, ∃ q' : Fin states'.size, g.Twins h states states' q q' := by
    intro q
    obtain ⟨q', twins⟩ := pair.exists_twin q.isLt
    exact ⟨⟨q', twins.inside'⟩, twins⟩
  obtain ⟨f, twins⟩ := Classical.axiomOfChoice chosen
  have injective : Function.Injective f := by
    intro q r same
    have twins' := twins r
    rw [← same] at twins'
    exact Fin.ext (pair.symm.eq_of_twins (twins q).symm twins'.symm)
  simpa using Fintype.card_le_of_injective f injective

/-- The states of the one automaton are numbered anew in the other. -/
theorem exists_numbering : states.size = states'.size ∧ ∃ φ : Nat → Nat,
    Set.BijOn φ (Set.Iio states.size) (Set.Iio states'.size) ∧ φ 0 = 0 ∧
      ∀ q < states.size, g.Twins h states states' q (φ q) := by
  have chosen : ∀ q, ∃ q', q < states.size → g.Twins h states states' q q' := by
    intro q
    by_cases inside : q < states.size
    · obtain ⟨q', twins⟩ := pair.exists_twin inside
      exact ⟨q', fun _ => twins⟩
    · exact ⟨0, fun inside' => absurd inside' inside⟩
  obtain ⟨φ, twins⟩ := Classical.axiomOfChoice chosen
  refine ⟨Nat.le_antisymm pair.size_le pair.symm.size_le, φ, ⟨?_, ?_, ?_⟩, ?_, twins⟩
  · exact fun q inside => (twins q inside).inside'
  · intro q inside r inside' same
    have twins' := twins r inside'
    rw [← same] at twins'
    exact pair.symm.eq_of_twins (twins q inside).symm twins'.symm
  · intro q' inside
    obtain ⟨q, twins'⟩ := pair.symm.exists_twin inside
    exact ⟨q, twins'.inside', pair.eq_of_twins (twins q twins'.inside') twins'.symm⟩
  · exact pair.eq_of_twins (twins 0 pair.twins_zero.inside) pair.twins_zero

/-! ## What follows transitions -/

theorem follow (follow : Follow g states start q x t) (twins : g.Twins h states states' q q')
    (named : g.Namesakes h x y) (terminal : g.Namesakes h t u) :
    Follow h states' start' q' y u := by
  have kin := pair.kindred
  induction follow generalizing q' y with
  | ends =>
    obtain rfl := kin.unique named pair.starts
    obtain rfl := kin.unique terminal kin.endMarker
    obtain rfl := pair.eq_of_twins twins pair.twins_zero
    exact .ends
  | first holds hp right nonterminal first =>
    have there := (twins.dotted _ _).1 ⟨_, holds, rfl, progress_of_right hp right⟩
    obtain ⟨p', α', y', γ', hp', right', named', behind, holds', -⟩ :=
      pair.occurrence there hp right named.isAction
    obtain rfl := kin.unique named' named
    have begins := kin.begins (kin.lawful.first_iff.1 first) terminal behind
    exact .first holds' hp' right' ((kin.isNonterminal named).trans nonterminal)
      (kin.lawful'.first_iff.2 begins)
  | @includes o q α γ n _ _ p holds along hp ne right nonterminal nullable _ ih =>
    obtain ⟨o', twins'⟩ := pair.exists_twin holds.inside
    obtain ⟨p', α', y', γ', hp', right', left, named', before, behind⟩ :=
      kin.occurrence hp right named.isAction
    obtain rfl := kin.unique named' named
    obtain ⟨r', along', twins''⟩ := pair.trail_of_related twins' along before
    obtain rfl := pair.eq_of_twins twins'' twins
    have front := (twins'.dotted _ _).1 ⟨_, holds, rfl, progress_front g n⟩
    have holds' := front.holds pair.auto' (α := []) hp' rfl rfl
    have vanish := kin.all_vanish behind (kin.lawful.nullable_iff.1 nullable)
    exact .includes holds' along' hp' ne right' ((kin.isNonterminal named).trans nonterminal)
      (kin.lawful'.nullable_iff.2 vanish) (ih twins' left terminal)

theorem looks (looks : g.Looks states start q n t) (twins : g.Twins h states states' q q')
    (terminal : g.Namesakes h t u) : h.Looks states' start' q' n u := by
  have kin := pair.kindred
  obtain ⟨p, o, hp, holds, along, follow⟩ := looks
  obtain ⟨o', twins'⟩ := pair.exists_twin holds.inside
  obtain ⟨p', hp', left, rights, -⟩ := kin.rule hp
  obtain ⟨r', along', twins''⟩ := pair.trail_of_related twins' along rights
  obtain rfl := pair.eq_of_twins twins'' twins
  have front := (twins'.dotted _ _).1 ⟨_, holds, rfl, progress_front g n⟩
  have holds' := front.holds pair.auto' (α := []) hp' rfl rfl
  exact ⟨p', o', hp', holds', along', pair.follow follow twins' left terminal⟩

end Abreast

end ParserGenerator.Grammar
