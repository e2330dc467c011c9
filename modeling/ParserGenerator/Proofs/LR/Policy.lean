import ParserGenerator.Proofs.LR.Comparison

/-!
# The policy by which cells are filled

What may be done in a cell is told by the items of its state and the lookahead sets: there is a shift, or
the input may end, and there may be productions to reduce by. One candidate is left, and each of the others
is reported. Accepting comes first. A shift stands until a production wins against it, where the productions
come up in the order of their numbers, and the first that wins settles the cell. Without a shift the
smallest number wins.
-/

namespace ParserGenerator.Grammar

variable {g : Grammar} {marker start : Int} {states : Array State} {q : Nat} {s : State} {t n r : Int}
  {p : Production} {m : Method} {la : Lookaheads} {f : Facts}

/-- The terminal is in the lookahead set of a production in a state: in FOLLOW of the left-hand side, or in
the set that is computed for the state. -/
def InLookahead (g : Grammar) (m : Method) (la : Lookaheads) (q : Nat) (n t : Int) : Prop :=
  match m with
  | .slr => ∃ p, g.byNumber.get? n = some p ∧ t ∈ g.facts.followOf p.left
  | .lalr => t ∈ la.at q n

/-- What may be done in a state on a terminal. -/
inductive Contender (g : Grammar) (states : Array State) (m : Method) (la : Lookaheads) (q : Nat) (t : Int) :
    Action → Prop
  | shift {r : Nat} : goto? states q t = some r → Contender g states m la q t ⟨.shift, r⟩
  | accept : t = endMarkerId → Holds states q .accepting → Contender g states m la q t ⟨.accept, 0⟩
  | reduce {n : Int} {p : Production} : g.byNumber.get? n = some p → n ≠ 0 →
      Holds states q ⟨n, p.right.length⟩ → g.InLookahead m la q n t →
      Contender g states m la q t ⟨.reduce, n⟩

/-- A conflict between a shift of the terminal and a production goes the given way. -/
def Decides (g : Grammar) (q : Nat) (t n : Int) (d : Decision) : Prop :=
  ∃ p c, g.byNumber.get? n = some p ∧ g.decide t p q = .ok (d, c)

/-- The cell is filled from its candidates as the policy says. -/
structure Policy (candidate : Action → Prop) (decides : Int → Decision → Prop) (cell : Option Action) :
    Prop where
  absent : cell = none ↔ ∀ a, ¬ candidate a
  accept : candidate ⟨.accept, 0⟩ → cell = some ⟨.accept, 0⟩
  /-- Without a shift the smallest number is reduced by. -/
  least : ∀ {n}, ¬ candidate ⟨.accept, 0⟩ → (∀ r, ¬ candidate ⟨.shift, r⟩) → candidate ⟨.reduce, n⟩ →
    (∀ k, candidate ⟨.reduce, k⟩ → n ≤ k) → cell = some ⟨.reduce, n⟩
  decided : ∀ {n}, candidate ⟨.reduce, n⟩ → ∃ d, decides n d
  /-- No production wins against the shift. -/
  kept : ∀ {r}, candidate ⟨.shift, r⟩ → (∀ n, candidate ⟨.reduce, n⟩ → decides n .shift) →
    cell = some ⟨.shift, r⟩
  /-- The first production that wins against the shift is reduced by. -/
  reduced : ∀ {r n}, candidate ⟨.shift, r⟩ → candidate ⟨.reduce, n⟩ →
    (∀ k, candidate ⟨.reduce, k⟩ → k < n → decides k .shift) → decides n .reduce →
    cell = some ⟨.reduce, n⟩
  /-- Against the first production that does not lose, the shift is refused. -/
  refused : ∀ {r n}, candidate ⟨.shift, r⟩ → candidate ⟨.reduce, n⟩ →
    (∀ k, candidate ⟨.reduce, k⟩ → k < n → decides k .shift) → decides n .nonassoc →
    cell = some ⟨.nonassoc, n⟩

theorem Policy.eq_shift {candidate : Action → Prop} {decides : Int → Decision → Prop} {cell : Option Action}
    (policy : Policy candidate decides cell) {n : Int} (shift : candidate ⟨.shift, n⟩)
    (only : ∀ a, candidate a → a = ⟨.shift, n⟩) : cell = some ⟨.shift, n⟩ :=
  policy.kept shift fun k reduce => by cases only _ reduce

theorem Policy.eq_reduce {candidate : Action → Prop} {decides : Int → Decision → Prop} {cell : Option Action}
    (policy : Policy candidate decides cell) {n : Int} (reduce : candidate ⟨.reduce, n⟩)
    (only : ∀ a, candidate a → a = ⟨.reduce, n⟩) : cell = some ⟨.reduce, n⟩ := by
  refine policy.least (fun accept => ?_) (fun r shift => ?_) reduce fun k other => ?_
  · cases only _ accept
  · cases only _ shift
  · cases only _ other
    exact le_refl n

theorem Policy.transfer {candidate candidate' : Action → Prop} {decides decides' : Int → Decision → Prop}
    {cell : Option Action} (h : Policy candidate decides cell) (same : ∀ a, candidate' a ↔ candidate a)
    (agree : ∀ n, candidate ⟨.reduce, n⟩ → ∀ d, decides' n d ↔ decides n d) :
    Policy candidate' decides' cell := by
  obtain rfl : candidate' = candidate := funext fun a => propext (same a)
  exact {
    absent := h.absent
    accept := h.accept
    least := h.least
    decided := fun reduce => (h.decided reduce).imp fun d => (agree _ reduce d).2
    kept := fun shift all => h.kept shift fun n reduce => (agree n reduce _).1 (all n reduce)
    reduced := fun shift reduce before wins => h.reduced shift reduce
      (fun k other lt => (agree k other _).1 (before k other lt)) ((agree _ reduce _).1 wins)
    refused := fun shift reduce before wins => h.refused shift reduce
      (fun k other lt => (agree k other _).1 (before k other lt)) ((agree _ reduce _).1 wins) }

/-! ## What comes of candidates in order -/

/-- The reductions by the given productions. -/
def reductionsBy (ns : List Int) : List Action := ns.map fun n => ⟨.reduce, n⟩

/-- Candidates as they come up: a shift or the end of the input first, then the productions by their
numbers. -/
inductive InOrder : List Action → Prop
  | reductions {ns : List Int} : ns.Pairwise (· < ·) → InOrder (reductionsBy ns)
  | accept {ns : List Int} : (0 :: ns).Pairwise (· < ·) → InOrder (⟨.accept, 0⟩ :: reductionsBy ns)
  | shift {r : Int} {ns : List Int} : ns.Pairwise (· < ·) → InOrder (⟨.shift, r⟩ :: reductionsBy ns)

section Order

variable {v : Int → Decision} {ns : List Int} {as : List Action} {a held new : Action}

@[simp] theorem mem_reductionsBy : a ∈ reductionsBy ns ↔ a.kind = .reduce ∧ a.argument ∈ ns := by
  rw [reductionsBy, List.mem_map]
  constructor
  · rintro ⟨n, mem, rfl⟩
    exact ⟨rfl, mem⟩
  · rintro ⟨kind, mem⟩
    exact ⟨a.argument, mem, by rw [← kind]⟩

theorem InOrder.nodup (h : InOrder as) : as.Nodup := by
  have distinct : ∀ {ns : List Int}, ns.Pairwise (· < ·) → (reductionsBy ns).Nodup := fun increasing =>
    List.pairwise_map.2 (increasing.imp fun lt same => ne_of_lt lt (congrArg Action.argument same))
  cases h with
  | reductions increasing => exact distinct increasing
  | accept increasing =>
    exact List.nodup_cons.2 ⟨by simp, distinct (List.pairwise_cons.1 increasing).2⟩
  | shift increasing => exact List.nodup_cons.2 ⟨by simp, distinct increasing⟩

/-- What reduces, accepts or refuses stays against larger numbers. -/
theorem foldl_contend_held (other : held.kind ≠ .shift) (least : ∀ n ∈ ns, held.argument ≤ n) :
    (reductionsBy ns).foldl (contend v) held = held := by
  induction ns with
  | nil => rfl
  | cons n ns ih =>
    obtain ⟨le, rest⟩ := List.forall_mem_cons.1 least
    rw [reductionsBy, List.map_cons, List.foldl_cons, contend_reduce other, min_eq_left le]
    exact ih rest

theorem foldl_contend_shift (all : ∀ n ∈ ns, v n = .shift) :
    (reductionsBy ns).foldl (contend v) ⟨.shift, r⟩ = ⟨.shift, r⟩ := by
  induction ns with
  | nil => rfl
  | cons n ns ih =>
    obtain ⟨first, rest⟩ := List.forall_mem_cons.1 all
    have stays : contend v ⟨.shift, r⟩ ⟨.reduce, n⟩ = ⟨.shift, r⟩ := by
      simp [contend, first]
    rw [reductionsBy, List.map_cons, List.foldl_cons, stays]
    exact ih rest

/-- The first number that takes the cell from the shift keeps it. -/
theorem foldl_contend_first (increasing : ns.Pairwise (· < ·)) (mem : n ∈ ns)
    (before : ∀ k ∈ ns, k < n → v k = .shift) (takes : contend v ⟨.shift, r⟩ ⟨.reduce, n⟩ = new)
    (other : new.kind ≠ .shift) (named : new.argument = n) :
    (reductionsBy ns).foldl (contend v) ⟨.shift, r⟩ = new := by
  obtain ⟨smaller, larger, rfl⟩ := List.append_of_mem mem
  obtain ⟨-, above, below⟩ := List.pairwise_append.1 increasing
  have kept := foldl_contend_shift (v := v) (r := r) fun k inside =>
    before k (List.mem_append_left _ inside) (below k inside n List.mem_cons_self)
  rw [reductionsBy, List.map_append, List.map_cons, List.foldl_append, List.foldl_cons, ← reductionsBy,
    kept, takes]
  refine foldl_contend_held other fun k inside => ?_
  rw [named]
  exact le_of_lt ((List.pairwise_cons.1 above).1 k inside)

theorem outcome_eq_none_iff : outcome v as = none ↔ ∀ a, a ∉ as := by
  rw [outcome_eq_none, List.eq_nil_iff_forall_not_mem]

theorem policy_reductions (increasing : ns.Pairwise (· < ·)) :
    Policy (· ∈ reductionsBy ns) (fun n d => v n = d) (outcome v (reductionsBy ns)) where
  absent := outcome_eq_none_iff
  accept := by simp
  least := by
    intro n _ _ mem least
    simp only [mem_reductionsBy, true_and] at mem least
    cases ns with
    | nil => cases mem
    | cons k ns =>
      have above := (List.pairwise_cons.1 increasing).1
      have first : n = k := by
        rcases List.mem_cons.1 mem with eq | later
        · exact eq
        · have := above n later
          have := least k List.mem_cons_self
          omega
      subst first
      exact congrArg some (foldl_contend_held (by simp) fun k inside => le_of_lt (above k inside))
  decided := fun _ => ⟨_, rfl⟩
  kept := by simp
  reduced := by simp
  refused := by simp

theorem policy_accept (increasing : (0 :: ns).Pairwise (· < ·)) :
    Policy (· ∈ ⟨.accept, 0⟩ :: reductionsBy ns) (fun n d => v n = d)
      (outcome v (⟨.accept, 0⟩ :: reductionsBy ns)) where
  absent := outcome_eq_none_iff
  accept := fun _ => congrArg some (foldl_contend_held (by simp) fun n inside =>
    le_of_lt ((List.pairwise_cons.1 increasing).1 n inside))
  least := by simp
  decided := fun _ => ⟨_, rfl⟩
  kept := by simp
  reduced := by simp
  refused := by simp

theorem policy_shift (increasing : ns.Pairwise (· < ·)) :
    Policy (· ∈ ⟨.shift, r⟩ :: reductionsBy ns) (fun n d => v n = d)
      (outcome v (⟨.shift, r⟩ :: reductionsBy ns)) where
  absent := outcome_eq_none_iff
  accept := by simp
  least := fun _ none => absurd List.mem_cons_self (none r)
  decided := fun _ => ⟨_, rfl⟩
  kept := by
    intro r' shift all
    obtain rfl : r' = r := by simpa using shift
    exact congrArg some (foldl_contend_shift fun n mem => all n (by simp [mem]))
  reduced := by
    intro r' n _ reduce before wins
    refine congrArg some (foldl_contend_first increasing (by simpa using reduce)
      (fun k mem lt => before k (by simp [mem]) lt) ?_ (by simp) rfl)
    simp [contend, wins]
  refused := by
    intro r' n _ reduce before wins
    refine congrArg some (foldl_contend_first increasing (by simpa using reduce)
      (fun k mem lt => before k (by simp [mem]) lt) ?_ (by simp) rfl)
    simp [contend, wins]

/-- Candidates that come up in order fill their cell as the policy says. -/
theorem InOrder.policy (h : InOrder as) :
    Policy (· ∈ as) (fun n d => v n = d) (outcome v as) := by
  cases h with
  | reductions increasing => exact policy_reductions increasing
  | accept increasing => exact policy_accept increasing
  | shift increasing => exact policy_shift increasing

end Order

/-! ## The order of the candidates -/

section Candidates

variable (look : Item → Except Error TerminalSet) (t : Int) {its : List Item}

theorem filterMap_demanded_reduce (others : ∀ it ∈ its, it.production ≠ 0) :
    ∃ ns : List Int, ns.Sublist (its.map Item.production) ∧
      its.filterMap (demanded look t) = reductionsBy ns := by
  induction its with
  | nil => exact ⟨[], .slnil, rfl⟩
  | cons it its ih =>
    obtain ⟨other, others⟩ := List.forall_mem_cons.1 others
    obtain ⟨ns, within, eq⟩ := ih others
    cases asked : demanded look t it with
    | none => exact ⟨ns, within.cons _, by rw [List.filterMap_cons_none asked, eq]⟩
    | some a =>
      rcases demanded_eq_some.1 asked with ⟨zero, -⟩ | ⟨-, ts, x, -, -, same⟩
      · exact absurd zero other
      · cases same
        exact ⟨_, within.cons_cons _, by rw [List.filterMap_cons_some asked, eq]; rfl⟩

/-- Production 0 comes first among what completed items demand. -/
theorem filterMap_demanded (increasing : (its.map Item.production).Pairwise (· < ·))
    (natural : ∀ it ∈ its, 0 ≤ it.production) :
    ∃ (front : List Action) (ns : List Int),
      its.filterMap (demanded look t) = front ++ reductionsBy ns ∧
      (front = [] ∨ t = endMarkerId ∧ front = [⟨.accept, 0⟩]) ∧ (0 :: ns).Pairwise (· < ·) := by
  cases its with
  | nil => exact ⟨[], [], rfl, .inl rfl, List.pairwise_singleton _ _⟩
  | cons it its =>
    have above := List.pairwise_cons.1 (List.map_cons ▸ increasing)
    have first := natural it List.mem_cons_self
    have later : ∀ n ∈ its.map Item.production, 0 < n := fun n mem =>
      lt_of_le_of_lt first (above.1 n mem)
    by_cases zero : it.production = 0
    · obtain ⟨ns, within, eq⟩ := filterMap_demanded_reduce look t fun it' mem =>
        ne_of_gt (later _ (List.mem_map_of_mem mem))
      have ordered : (0 :: ns).Pairwise (· < ·) :=
        List.pairwise_cons.2 ⟨fun n mem => later n (within.subset mem), above.2.sublist within⟩
      by_cases ended : t = endMarkerId
      · refine ⟨[⟨.accept, 0⟩], ns, ?_, .inr ⟨ended, rfl⟩, ordered⟩
        rw [List.filterMap_cons_some (by rw [demanded, if_pos zero, if_pos ended]), eq]
        rfl
      · refine ⟨[], ns, ?_, .inl rfl, ordered⟩
        rw [List.filterMap_cons_none (by rw [demanded, if_pos zero, if_neg ended]), eq]
        rfl
    · have positive : ∀ n ∈ (it :: its).map Item.production, 0 < n := by
        rw [List.map_cons, List.forall_mem_cons]
        exact ⟨lt_of_le_of_ne first (Ne.symm zero), later⟩
      obtain ⟨ns, within, eq⟩ := filterMap_demanded_reduce look t fun it' mem =>
        ne_of_gt (positive _ (List.mem_map_of_mem mem))
      exact ⟨[], ns, eq, .inl rfl,
        List.pairwise_cons.2 ⟨fun n mem => positive n (within.subset mem), increasing.sublist within⟩⟩

variable {look t}

theorem mem_candidates {a : Action} : a ∈ g.candidates s look t ↔
    (g.isInput t = true ∧ ∃ r : Nat, s.transitions.get? t = some r ∧ a = ⟨.shift, r⟩) ∨
      ∃ it ∈ s.completed g, Demands look it (t, a) := by
  rw [candidates, List.mem_append, List.mem_filterMap]
  simp only [demanded_eq_some]
  refine or_congr ?_ Iff.rfl
  rw [Option.mem_toList, Option.map_eq_some_iff]
  cases g.isInput t <;> simp [eq_comm]

end Candidates

section Contents

variable (settled : g.Settled marker start) (auto : g.Automaton states)
include settled

theorem Settled.inLookahead_iff (hp : g.byNumber.get? n = some p) :
    g.InLookahead m la q n t ↔ ∃ ts, g.lookOf m la q ⟨n, p.right.length⟩ = .ok ts ∧ t ∈ ts := by
  cases m with
  | slr =>
    have look : g.lookOf .slr la q ⟨n, p.right.length⟩ = .ok (g.facts.followOf p.left) :=
      settled.lookOf_slr hp
    rw [look, InLookahead]
    simp [hp]
  | lalr =>
    have look : g.lookOf .lalr la q ⟨n, p.right.length⟩ = .ok (la.at q n) := rfl
    rw [look, InLookahead]
    simp

include auto

theorem Settled.mem_candidates_iff (at_q : states[q]? = some s) (input : g.isInput t = true) {a : Action} :
    a ∈ g.candidates s (g.lookOf m la q) t ↔ g.Contender states m la q t a := by
  have step : ∀ {r : Nat}, goto? states q t = some r ↔ s.transitions.get? t = some r := by
    intro r
    rw [goto?, at_q]
    rfl
  rw [mem_candidates]
  constructor
  · rintro (⟨-, r, get, rfl⟩ | ⟨it, listed, demands⟩)
    · exact .shift (step.2 get)
    · obtain ⟨n, p, hp, rfl, holds⟩ := (settled.mem_completed auto at_q).1 listed
      rcases demands with ⟨zero, same⟩ | ⟨other, ts, x, found, inside, same⟩
      · cases same
        obtain rfl : n = 0 := zero
        cases settled.zero.symm.trans hp
        exact .accept rfl holds
      · cases same
        exact .reduce hp other holds ((settled.inLookahead_iff hp).2 ⟨ts, found, inside⟩)
  · intro contender
    cases contender with
    | shift get => exact .inl ⟨input, _, step.1 get, rfl⟩
    | accept ended holds =>
      refine .inr ⟨_, (settled.mem_completed auto at_q).2 ⟨0, _, settled.zero, rfl, holds⟩, ?_⟩
      exact .inl ⟨rfl, by rw [ended]⟩
    | reduce hp other holds inside =>
      obtain ⟨ts, found, inside⟩ := (settled.inLookahead_iff hp).1 inside
      refine .inr ⟨_, (settled.mem_completed auto at_q).2 ⟨_, _, hp, rfl, holds⟩, ?_⟩
      exact .inr ⟨other, ts, t, found, inside, rfl⟩

theorem Settled.candidates_ordered (at_q : states[q]? = some s)
    (look : Item → Except Error TerminalSet) (t : Int) : InOrder (g.candidates s look t) := by
  have natural : ∀ it ∈ s.completed g, 0 ≤ it.production := by
    intro it mem
    obtain ⟨n, p, hp, rfl, -⟩ := (settled.mem_completed auto at_q).1 mem
    obtain ⟨i, rfl⟩ := settled.natural hp
    exact Int.natCast_nonneg i
  obtain ⟨front, ns, eq, ended, ordered⟩ :=
    filterMap_demanded look t (settled.completed_increasing auto at_q) natural
  cases get : if g.isInput t then s.transitions.get? t else none with
  | none =>
    rw [candidates, get, eq]
    rcases ended with rfl | ⟨-, rfl⟩
    · exact .reductions (List.pairwise_cons.1 ordered).2
    · exact .accept ordered
  | some r =>
    -- No transition is made on the end marker.
    have apart : t ≠ endMarkerId := by
      rintro rfl
      split at get
      · exact auto.no_goto_endMarker settled (goto?_eq_some.2 ⟨s, at_q, get⟩)
      · cases get
    obtain rfl : front = [] := ended.resolve_right fun h => apart h.1
    rw [candidates, get, eq]
    exact .shift (List.pairwise_cons.1 ordered).2

theorem Contents.reports_candidates {T : Tables} (h : g.Contents states (g.lookOf m la) T)
    (at_q : states[q]? = some s) (input : g.isInput t = true) :
    ∃ as : List Action, as.Nodup ∧ (∀ a, a ∈ as ↔ g.Contender states m la q t a) ∧
      T.conflicts.countP (fun c => c.state = (q : Int) ∧ c.terminal = t) = as.length - 1 := by
  exact ⟨_, (settled.candidates_ordered auto at_q _ t).nodup,
    fun a => settled.mem_candidates_iff auto at_q input, h.reports at_q t⟩

/-- The cell is filled by what is settled about its candidates. -/
theorem Contents.policy_verdict {T : Tables} (h : g.Contents states (g.lookOf m la) T)
    (at_q : states[q]? = some s) (input : g.isInput t = true) :
    Policy (g.Contender states m la q t) (fun n d => g.verdict t n = d)
      (T.action.get? ((q : Int), t)) := by
  have filled := (settled.candidates_ordered auto at_q (g.lookOf m la q) t).policy (v := g.verdict t)
  rw [← h.cell at_q t] at filled
  exact filled.transfer (fun a => (settled.mem_candidates_iff auto at_q input).symm) fun _ _ _ => Iff.rfl

theorem Contents.policy {T : Tables} (h : g.Contents states (g.lookOf m la) T)
    (at_q : states[q]? = some s) (input : g.isInput t = true) :
    Policy (g.Contender states m la q t) (g.Decides q t) (T.action.get? ((q : Int), t)) := by
  refine (h.policy_verdict settled auto at_q input).transfer (fun a => Iff.rfl) fun n contender d => ?_
  cases contender with
  | reduce hp _ _ _ =>
    obtain ⟨c, decided, -⟩ := settled.decide_spec input hp q
    constructor
    · rintro ⟨p', c', hp', decided'⟩
      cases hp.symm.trans hp'
      rw [decided] at decided'
      cases decided'
      rfl
    · rintro rfl
      exact ⟨_, c, hp, decided⟩

end Contents

/-- Tables hand every conflict to the sink, in the order in which they list them. -/
theorem buildReporting_of_ok {σ : Type} {method : String} {T : Tables} {g' : Grammar}
    (built : buildTables method g = .ok T g') (sink : σ → Conflict → σ) (state : σ) :
    buildReporting sink state method g = .ok (T, T.conflicts.foldl sink state) g' :=
  (Build.bind_of_ok built).trans rfl

/-- In the tables of a closed grammar that was made by calls no conflict is resolved without a report: of
the candidates for a cell all but one are reported. The cells are filled by the policy, those that refuse
are listed, and the sink is handed the conflicts that the tables list. -/
theorem Declared.cells_by_policy (declared : Declared g) (closed : g.closed = true) :
    ∃ passes g₁ states la g₂, analyze g = .ok passes g₁ ∧ g₁.states = .ok states ∧
      computeLookaheads states g₁ = .ok la g₂ ∧ ∀ m : Method, ∃ T g₃,
        buildTables m.name g = .ok T g₃ ∧
        (∀ (σ : Type) (sink : σ → Conflict → σ) (state : σ),
          buildReporting sink state m.name g = .ok (T, T.conflicts.foldl sink state) g₃) ∧
        T.violations.Nodup ∧
        (∀ v, v ∈ T.violations ↔
          T.action.get? (v.state, v.terminal) = some ⟨.nonassoc, v.production⟩) ∧
        ∀ (q : Nat) (t : Int), q < states.size → g.isInput t = true →
          (∃ as : List Action, as.Nodup ∧ (∀ a, a ∈ as ↔ g₁.Contender states m la q t a) ∧
            T.conflicts.countP (fun c => c.state = (q : Int) ∧ c.terminal = t) = as.length - 1) ∧
          Policy (g₁.Contender states m la q t) (g₁.Decides q t) (T.action.get? ((q : Int), t)) := by
  obtain ⟨⟨marker, start, settled⟩, untouched⟩ := declared.complete closed
  obtain ⟨passes, f, la, analyzed, -, computed, -, build⟩ := settled.exists_contents untouched
  have settled' := settled.having f
  refine ⟨passes, _, g.explore, la, _, analyzed, settled'.states_eq, computed, fun m => ?_⟩
  obtain ⟨T, built, contents⟩ := build m
  refine ⟨T, _, built, fun σ => buildReporting_of_ok built, contents.once, contents.refused, ?_⟩
  intro q t inside input
  have at_q : g.explore[q]? = some g.explore[q] := Array.getElem?_eq_getElem inside
  have auto : (g.having f).Automaton g.explore := settled'.automaton
  exact ⟨contents.reports_candidates settled' auto at_q input, contents.policy settled' auto at_q input⟩

/-- Sums and comparisons of terms, where terms are terms in two ways. -/
def relationCalls : List Call :=
  [.declareTerminal "<", .declareTerminal "+", .declareTerminal "term",
    .declarePrecedence "nonassoc" ["<"], .declarePrecedence "left" ["+"],
    .addProduction "E" [.name "E", .name "<", .name "E"] none none,
    .addProduction "E" [.name "E", .name "+", .name "E"] none none,
    .addProduction "E" [.name "term"] none none,
    .addProduction "E" [.name "term"] none none,
    .close none]

def relations : Grammar := relationCalls.foldl Call.after .fresh

theorem declared_relations : Declared relations :=
  Declared.fresh.calls (by simp [relationCalls, Call.Fits, RightSymbol.Fits, startMarkerName])

theorem closed_relations : relations.closed = true := by decide +kernel

/-- Behind a term there are two productions to reduce by, of which one is reported, and behind a comparison
another one is refused. The sink is handed seven conflicts. -/
theorem cells_by_policy_relations : Declared relations ∧ relations.closed = true ∧
    ∃ states la g₁ T g₃, buildTables Method.lalr.name relations = .ok T g₃ ∧
      buildReporting (fun n _ => n + 1) 0 Method.lalr.name relations = .ok (T, 7) g₃ ∧
      T.violations.Nodup ∧ ⟨5, 3, 1⟩ ∈ T.violations ∧
      (∃ a b, ∀ c, c = a ∨ c = b ↔ Contender g₁ states .lalr la 2 3 c) ∧
      T.action.get? (2, 3) = some ⟨.reduce, 3⟩ := by
  obtain ⟨passes, g₁, states, la, g₂, analyzed, found, -, build⟩ :=
    declared_relations.cells_by_policy closed_relations
  obtain ⟨T, g₃, built, reporting, once, violations, cells⟩ := build .lalr
  have reached : Build.Ends (analyze >>= fun _ => query Grammar.states) relations
      (fun states _ => 2 < states.size) fun _ => False := by decide +kernel
  rw [Build.Ends, Build.bind_of_ok analyzed, Build.query_of_ok found] at reached
  have tried : Build.Ends (buildTables Method.lalr.name) relations (fun T _ =>
      T.action.get? (5, 3) = some ⟨.nonassoc, 1⟩ ∧ T.action.get? (2, 3) = some ⟨.reduce, 3⟩ ∧
        T.conflicts.foldl (fun n _ => n + 1) 0 = 7 ∧
        T.conflicts.countP (fun c => c.state = ((2 : Nat) : Int) ∧ c.terminal = 3) = 1)
      fun _ => False := by decide +kernel
  rw [Build.Ends, built] at tried
  obtain ⟨refused, reduced, handed, counted⟩ := tried
  obtain ⟨⟨as, -, contenders, count⟩, -⟩ := cells 2 3 reached (by decide +kernel)
  obtain ⟨a, b, rfl⟩ : ∃ a b, as = [a, b] := List.length_eq_two.1 (by omega)
  refine ⟨declared_relations, closed_relations, states, la, g₁, T, g₃, built, ?_, once,
    (violations _).2 refused, ⟨a, b, ?_⟩, reduced⟩
  · rw [reporting, handed]
  · intro c
    rw [← contenders]
    simp

end ParserGenerator.Grammar
