import ParserGenerator.Proofs.LR.Rows

/-!
# What becomes of one cell

The candidates for a cell come up one after the other: the transition on its terminal, then the completed
items of the state in the order of their productions. The first one is entered, and each further one is
reported and settled against what the cell holds. So a cell and the number of reports on it depend on its
own candidates alone, whatever else is in the row.
-/

namespace ParserGenerator.Grammar

variable {g : Grammar} {marker start : Int} {states : Array State} {q : Nat} {t n : Int} {p : Production}
  {a : Action} {as : List Action} {r : Row}

/-- How a shift of the terminal is settled against the production of a number. -/
def verdict (g : Grammar) (t n : Int) : Decision :=
  match g.byNumber.get? n with
  | none => .shift
  | some p =>
    match g.decide t p 0 with
    | .ok (d, _) => d
    | .error _ => .shift

/-- What a cell holds once a candidate has come up against what it held. -/
def contend (verdict : Int → Decision) (held new : Action) : Action :=
  if new.kind = .accept then new
  else if held.kind = .shift then
    match verdict new.argument with
    | .shift => held
    | .reduce => new
    | .nonassoc => ⟨.nonassoc, new.argument⟩
  else ⟨held.kind, min held.argument new.argument⟩

/-- What a cell holds in the end. -/
def outcome (verdict : Int → Decision) : List Action → Option Action
  | [] => none
  | a :: as => some (as.foldl (contend verdict) a)

variable {v : Int → Decision}

theorem outcome_eq_none : outcome v as = none ↔ as = [] := by
  cases as <;> simp [outcome]

theorem outcome_concat {held : Action} (h : outcome v as = some held) :
    outcome v (as ++ [a]) = some (contend v held a) := by
  cases as with
  | nil => cases h
  | cons b as =>
    cases h
    rw [List.cons_append, outcome, List.foldl_append]
    rfl

/-- Without a candidate that accepts no cell accepts. -/
theorem kind_ne_accept {held : Action} (h : outcome v as = some held)
    (others : ∀ a ∈ as, a.kind ≠ .accept) : held.kind ≠ .accept := by
  induction as using List.reverseRecOn generalizing held with
  | nil => cases h
  | append_singleton as a ih =>
    have last := others a (List.mem_append_right _ List.mem_cons_self)
    cases before : outcome v as with
    | none =>
      obtain rfl := outcome_eq_none.1 before
      cases h
      exact last
    | some held' =>
      rw [outcome_concat before, Option.some.injEq] at h
      have first := ih before fun b mem => others b (List.mem_append_left _ mem)
      rw [← h, contend, if_neg last]
      split
      · split
        · exact first
        · exact last
        · exact nofun
      · exact first

/-! ## Reports -/

/-- The reports that candidates make as they come up against what a cell holds, one after the other. -/
def disputesFrom (g : Grammar) (q : Nat) (t : Int) : Action → List Action → List (Except Error Conflict)
  | _, [] => []
  | held, a :: as => g.dispute q t held a :: g.disputesFrom q t (contend (g.verdict t) held a) as

/-- The reports that the candidates for a cell make. -/
def disputes (g : Grammar) (q : Nat) (t : Int) : List Action → List (Except Error Conflict)
  | [] => []
  | a :: as => g.disputesFrom q t a as

theorem disputesFrom_concat (held : Action) :
    g.disputesFrom q t held (as ++ [a]) =
      g.disputesFrom q t held as ++ [g.dispute q t (as.foldl (contend (g.verdict t)) held) a] := by
  induction as generalizing held with
  | nil => rfl
  | cons b as ih =>
    rw [List.cons_append, disputesFrom, ih]
    rfl

theorem disputes_concat {held : Action} (h : outcome (g.verdict t) as = some held) :
    g.disputes q t (as ++ [a]) = g.disputes q t as ++ [g.dispute q t held a] := by
  cases as with
  | nil => cases h
  | cons b as =>
    cases h
    exact disputesFrom_concat b

theorem length_disputesFrom (held : Action) : (g.disputesFrom q t held as).length = as.length := by
  induction as generalizing held with
  | nil => rfl
  | cons a as ih => rw [disputesFrom, List.length_cons, List.length_cons, ih]

theorem length_disputes : (g.disputes q t as).length = as.length - 1 := by
  cases as with
  | nil => rfl
  | cons a as => exact length_disputesFrom a

/-- Against anything but a shift the default decides. -/
theorem default_of_dispute {held : Action} {c : Conflict} (disputed : g.dispute q t held a = .ok c)
    (other : a.kind = .accept ∨ held.kind ≠ .shift) :
    c.state = q ∧ c.terminal = t ∧ c.resolvedBy = Conflict.byDefault := by
  rw [dispute] at disputed
  split at disputed
  · obtain ⟨name, -, made⟩ := Attempt.bind_eq_ok.1 disputed
    cases made
    exact ⟨rfl, rfl, rfl⟩
  · rename_i plain
    rw [if_neg (other.resolve_left plain)] at disputed
    obtain ⟨name, -, made⟩ := Attempt.bind_eq_ok.1 disputed
    cases made
    exact ⟨rfl, rfl, rfl⟩

/-! ## Decisions -/

theorem byDefault_ne_byFollow : Conflict.byDefault ≠ Conflict.byFollow := by decide

theorem Lawful.decide_spec (sound : g.Lawful) (input : g.isInput t = true)
    (hp : g.byNumber.get? n = some p) (q : Int) : ∃ c, g.decide t p q = .ok (g.verdict t n, c) ∧
      c.state = q ∧ c.terminal = t ∧
      (t ∈ g.facts.followOf p.left → c.resolvedBy ≠ Conflict.byFollow) := by
  obtain ⟨s, known⟩ := symbol_of_isInput input
  obtain ⟨left, at_left, -⟩ := sound.left hp
  have known_left : g.symbols.symbol p.left = .ok left := SymbolTable.symbol_eq_ok at_left
  have same : left.id = p.left := sound.table.id_eq at_left
  obtain ⟨level, leveled⟩ := sound.exists_levelOf hp
  simp only [verdict, hp, Grammar.decide, known, known_left, leveled, bind, Except.bind]
  split
  · rename_i outside
    exact ⟨_, rfl, rfl, rfl, fun inside => absurd (same ▸ inside) outside⟩
  · cases s.precedence with
    | none => exact ⟨_, rfl, rfl, rfl, fun _ => byDefault_ne_byFollow⟩
    | some precedence =>
      have cause : Conflict.byPrecedence ≠ Conflict.byFollow := by decide
      by_cases nonassoc : precedence.associativity = .nonassoc
      · simp only [nonassoc, if_true]
        exact ⟨_, rfl, rfl, rfl, fun _ => cause⟩
      · simp only [nonassoc, if_false]
        exact ⟨_, rfl, rfl, rfl, fun _ => cause⟩

/-- How a shift is settled against a production, by the precedences of both. -/
theorem Lawful.verdict_eq (sound : g.Lawful) (hp : g.byNumber.get? n = some p) {term : Symbol}
    (at_t : g.symbols.at? t = some term) {level : Int} (leveled : g.levelOf p = .ok level) :
    g.verdict t n =
      if t ∈ g.facts.followOf p.left then
        match term.precedence with
        | none => .shift
        | some precedence =>
          if precedence.associativity = .nonassoc then .nonassoc else compareLevels precedence level
      else .shift := by
  obtain ⟨left, at_left, -⟩ := sound.left hp
  have known : g.symbols.symbol t = .ok term := SymbolTable.symbol_eq_ok at_t
  have known_left : g.symbols.symbol p.left = .ok left := SymbolTable.symbol_eq_ok at_left
  simp only [verdict, hp, Grammar.decide, known, known_left, sound.table.id_eq at_left, leveled, bind,
    Except.bind]
  by_cases inside : t ∈ g.facts.followOf p.left
  · simp only [inside, not_true_eq_false, if_false, if_true]
    cases term.precedence with
    | none => rfl
    | some precedence =>
      dsimp only
      by_cases nonassoc : precedence.associativity = .nonassoc
      · rw [if_pos nonassoc, if_pos nonassoc]
        rfl
      · rw [if_neg nonassoc, if_neg nonassoc]
        rfl
  · simp only [inside, not_false_eq_true, if_true, if_false]
    rfl

/-! ## Rows by their candidates -/

/-- A terminal of a reduction is one that can follow its left-hand side. -/
def Fits (g : Grammar) (t : Int) (a : Action) : Prop :=
  a.kind = .reduce → ∀ p, g.byNumber.get? a.argument = some p → t ∈ g.facts.followOf p.left

/-- The row for which the given candidates have come up for the cell of each terminal. -/
structure Weighs (g : Grammar) (q : Nat) (as : Int → List Action) (r : Row) : Prop where
  cell : ∀ t, r.cells.get? t = outcome (g.verdict t) (as t)
  listed : ∀ t, (r.conflicts.filter (·.terminal = t)).map .ok = g.disputes q t (as t)
  state : ∀ c ∈ r.conflicts, c.state = q
  cause : (∀ t, ∀ a ∈ as t, g.Fits t a) → ∀ c ∈ r.conflicts, c.resolvedBy ≠ Conflict.byFollow

/-- The candidates when a further one has come up for the cell of a terminal. -/
def raise (as : Int → List Action) (t : Int) (a : Action) : Int → List Action :=
  fun x => as x ++ if x = t then [a] else []

theorem raise_self {as : Int → List Action} : raise as t a t = as t ++ [a] := by simp [raise]

theorem raise_other {as : Int → List Action} {x : Int} (ne : x ≠ t) : raise as t a x = as x := by
  simp [raise, ne]

theorem mem_raise {as : Int → List Action} {x : Int} {b : Action} (mem : b ∈ as x) :
    b ∈ raise as t a x := List.mem_append_left _ mem

section Weighs

variable {as : Int → List Action}

/-- The first candidate of a cell is entered. -/
theorem Weighs.enter (h : g.Weighs q as r) (vacant : r.cells.get? t = none) :
    g.Weighs q (raise as t a) (r.put t a) where
  cell := by
    intro x
    rw [Row.put, OrderedMap.get?_insert]
    by_cases same : t = x
    · subst same
      rw [h.cell, outcome_eq_none] at vacant
      rw [if_pos rfl, raise_self, vacant]
      rfl
    · rw [if_neg same, raise_other (Ne.symm same), h.cell]
  listed := by
    intro x
    by_cases same : x = t
    · subst same
      rw [h.cell, outcome_eq_none] at vacant
      rw [raise_self, vacant]
      exact (h.listed x).trans (by rw [vacant]; rfl)
    · rw [raise_other same]
      exact h.listed x
  state := h.state
  cause := fun fits => h.cause fun x b mem => fits x b (mem_raise mem)

/-- A further candidate is reported, and the cell holds what comes of it. -/
theorem Weighs.report {held : Action} {r' : Row} {c : Conflict} (h : g.Weighs q as r)
    (taken : r.cells.get? t = some held) (conflicts : r'.conflicts = r.conflicts ++ [c])
    (cell : ∀ x, r'.cells.get? x = if t = x then some (contend (g.verdict t) held a) else r.cells.get? x)
    (disputed : g.dispute q t held a = .ok c) (state : c.state = q) (terminal : c.terminal = t)
    (cause : g.Fits t a → c.resolvedBy ≠ Conflict.byFollow) : g.Weighs q (raise as t a) r' where
  cell := by
    intro x
    rw [cell]
    by_cases same : t = x
    · subst same
      rw [if_pos rfl, raise_self, outcome_concat (by rw [← h.cell, taken])]
    · rw [if_neg same, raise_other (Ne.symm same), h.cell]
  listed := by
    intro x
    rw [conflicts, List.filter_append, List.map_append, h.listed]
    by_cases same : x = t
    · subst same
      have held_eq : outcome (g.verdict x) (as x) = some held := (h.cell x).symm.trans taken
      rw [raise_self, disputes_concat held_eq, disputed]
      simp [terminal]
    · rw [raise_other same]
      simp [terminal, Ne.symm same]
  state := by
    intro c' mem
    rw [conflicts, List.mem_append, List.mem_singleton] at mem
    rcases mem with mem | rfl
    · exact h.state c' mem
    · exact state
  cause := by
    intro fits c' mem
    rw [conflicts, List.mem_append, List.mem_singleton] at mem
    rcases mem with mem | rfl
    · exact h.cause (fun x b mem => fits x b (mem_raise mem)) c' mem
    · exact cause (fits t a (by rw [raise_self]; exact List.mem_append_right _ List.mem_cons_self))

theorem contend_reduce {held : Action} (other : held.kind ≠ .shift) :
    contend v held ⟨.reduce, n⟩ = ⟨held.kind, min held.argument n⟩ := by
  rw [contend, if_neg nofun, if_neg other]

theorem Weighs.putReduce {it : Item} (h : g.Weighs q as r) (sound : g.Lawful)
    (input : g.isInput t = true) (hp : g.byNumber.get? n = some p) (named : it.production = n) :
    ∃ r', Row.putReduce g q it p r t = .ok r' ∧ g.Weighs q (raise as t ⟨.reduce, n⟩) r' := by
  subst named
  obtain ⟨r', eq⟩ := sound.exists_putReduce input hp it r
  refine ⟨r', eq, ?_⟩
  obtain ⟨c, decided, state, terminal, cause⟩ := sound.decide_spec input hp q
  have justified : g.Fits t ⟨.reduce, it.production⟩ → c.resolvedBy ≠ Conflict.byFollow :=
    fun fits => cause (fits rfl p hp)
  have disputed : ∀ target, g.dispute q t ⟨.shift, target⟩ ⟨.reduce, it.production⟩ = .ok c := by
    intro target
    have found : g.production it.production = .ok p := by rw [Grammar.production, hp]
    simp only [dispute, found, decided, bind, Except.bind, reduceCtorEq, if_false, if_true]
    rfl
  cases reducedTo eq with
  | vacant new => exact h.enter new
  | kept held decided' =>
    obtain ⟨decision, rfl⟩ := Prod.mk.inj (Except.ok.inj (decided.symm.trans decided'))
    refine h.report held rfl (fun x => ?_) (disputed _) state terminal justified
    simp only [Row.report, contend, decision]
    split
    · rename_i same
      rw [← same, held]
      rfl
    · rfl
  | won held decided' =>
    obtain ⟨decision, rfl⟩ := Prod.mk.inj (Except.ok.inj (decided.symm.trans decided'))
    refine h.report held rfl (fun x => ?_) (disputed _) state terminal justified
    simp only [Row.put, Row.report, contend, decision, OrderedMap.get?_insert]
    rfl
  | refused held decided' =>
    obtain ⟨decision, rfl⟩ := Prod.mk.inj (Except.ok.inj (decided.symm.trans decided'))
    refine h.report held rfl (fun x => ?_) (disputed _) state terminal justified
    simp only [Row.put, Row.report, contend, decision, OrderedMap.get?_insert]
    rfl
  | least held shifts disputed =>
    obtain ⟨state, terminal, cause⟩ := default_of_dispute disputed (.inr shifts)
    refine h.report held ?_ (fun x => ?_) disputed state terminal fun _ => cause ▸ byDefault_ne_byFollow
    · split <;> rfl
    · rw [contend_reduce shifts]
      dsimp only
      split
      · rename_i kept
        rw [kept]
        split
        · rename_i same
          rw [← same]
          exact held
        · rfl
      · rw [Row.report, Row.put, OrderedMap.get?_insert]

theorem Weighs.putAccept (h : g.Weighs q as r) (sound : g.Lawful)
    (others : ∀ a ∈ as endMarkerId, a.kind ≠ .accept) :
    ∃ r', Row.putAccept g q r = .ok r' ∧ g.Weighs q (raise as endMarkerId ⟨.accept, 0⟩) r' := by
  obtain ⟨r', eq⟩ := sound.exists_putAccept r
  refine ⟨r', eq, ?_⟩
  cases acceptedTo eq with
  | plain accepts =>
    refine h.enter (Option.eq_none_iff_forall_not_mem.2 fun held cell => ?_)
    exact kind_ne_accept ((h.cell _).symm.trans cell) others (accepts held cell)
  | reported held _ disputed =>
    obtain ⟨state, terminal, cause⟩ := default_of_dispute disputed (.inl rfl)
    refine h.report held rfl (fun x => ?_) disputed state terminal fun _ => cause ▸ byDefault_ne_byFollow
    rw [Row.put, Row.report, OrderedMap.get?_insert, contend, if_pos rfl]

theorem Weighs.foldlM_putReduce {it : Item} {ts : List Int} (h : g.Weighs q as r) (sound : g.Lawful)
    (distinct : ts.Nodup) (inputs : ∀ t ∈ ts, g.isInput t = true) (hp : g.byNumber.get? n = some p)
    (named : it.production = n) : ∃ r', ts.foldlM (Row.putReduce g q it p) r = .ok r' ∧
      g.Weighs q (fun x => as x ++ if x ∈ ts then [⟨.reduce, n⟩] else []) r' := by
  induction ts generalizing as r with
  | nil => exact ⟨r, rfl, by simpa using h⟩
  | cons t ts ih =>
    obtain ⟨out, distinct⟩ := List.nodup_cons.1 distinct
    obtain ⟨input, inputs⟩ := List.forall_mem_cons.1 inputs
    obtain ⟨r₁, first, h₁⟩ := h.putReduce sound input hp named
    obtain ⟨r', rest, h'⟩ := ih h₁ distinct inputs
    refine ⟨r', ?_, ?_⟩
    · rw [List.foldlM_cons, first]
      exact rest
    · have same : (fun x => raise as t ⟨.reduce, n⟩ x ++ if x ∈ ts then [⟨.reduce, n⟩] else []) =
          fun x => as x ++ if x ∈ t :: ts then [(⟨.reduce, n⟩ : Action)] else [] := by
        funext x
        by_cases eq : x = t
        · subst eq
          simp [raise_self, out]
        · simp [raise_other eq, eq]
      exact same ▸ h'

end Weighs

/-! ## Completed items -/

/-- What a completed item asks of the cell of a terminal. -/
def demanded (look : Item → Except Error TerminalSet) (t : Int) (it : Item) : Option Action :=
  if it.production = 0 then if t = endMarkerId then some ⟨.accept, 0⟩ else none
  else
    match look it with
    | .ok ts => if t ∈ ts then some ⟨.reduce, it.production⟩ else none
    | .error _ => none

/-- The candidates for a cell of a state: its transition, then its completed items. -/
def candidates (g : Grammar) (s : State) (look : Item → Except Error TerminalSet) (t : Int) : List Action :=
  ((if g.isInput t then s.transitions.get? t else none).map fun r => ⟨.shift, r⟩).toList ++
    (s.completed g).filterMap (demanded look t)

variable {look : Item → Except Error TerminalSet} {it : Item} {as : Int → List Action}

theorem demanded_eq_some : demanded look t it = some a ↔ Demands look it (t, a) := by
  simp only [demanded, Demands, Prod.mk.injEq]
  by_cases zero : it.production = 0
  · rw [if_pos zero]
    by_cases ended : t = endMarkerId <;> simp [zero, ended, eq_comm]
  · rw [if_neg zero]
    cases found : look it with
    | error e => simp [zero]
    | ok ts =>
      by_cases inside : t ∈ ts
      · simp [zero, inside, eq_comm]
      · simp [zero, inside]

/-- Only production 0 asks to accept. -/
theorem demanded_ne_accept (other : it.production ≠ 0) (asked : demanded look t it = some a) :
    a.kind ≠ .accept := by
  rcases demanded_eq_some.1 asked with ⟨zero, -⟩ | ⟨-, ts, x, -, -, same⟩
  · exact absurd zero other
  · cases same
    exact nofun

theorem ne_shift_of_demanded {its : List Item} :
    ∀ a ∈ its.filterMap (demanded look t), a.kind ≠ .shift := by
  intro a mem
  obtain ⟨it, -, asked⟩ := List.mem_filterMap.1 mem
  rcases demanded_eq_some.1 asked with ⟨-, same⟩ | ⟨-, ts, x, -, -, same⟩ <;>
  · cases same
    exact nofun

section Completed

variable (settled : g.Settled marker start)
include settled

theorem Weighs.putCompleted (h : g.Weighs q as r) (auto : g.Automaton states)
    (holds : Holds states q it) (complete : it.isComplete g = true)
    (looks : it.production ≠ 0 → ∃ ts, look it = .ok ts ∧ ∀ t ∈ ts, g.isInput t = true)
    (others : it.production = 0 → ∀ a ∈ as endMarkerId, a.kind ≠ .accept) :
    ∃ r', Row.putCompleted g q look r it = .ok r' ∧
      g.Weighs q (fun x => as x ++ (demanded look x it).toList) r' := by
  obtain ⟨n, p, hp, rfl⟩ := settled.completed_eq auto holds complete
  rw [Row.putCompleted]
  by_cases zero : n = 0
  · obtain ⟨r', accepted, h'⟩ := h.putAccept settled.toLawful (others zero)
    refine ⟨r', by rw [if_pos zero, accepted], ?_⟩
    have same : raise as endMarkerId ⟨.accept, 0⟩ =
        fun x => as x ++ (demanded look x ⟨n, p.right.length⟩).toList := by
      funext x
      rw [raise, demanded, if_pos zero]
      split <;> rfl
    exact same ▸ h'
  · obtain ⟨ts, found, inputs⟩ := looks zero
    have distinct : (sortBy (fun a b : Int => a ≤ b) ts.toList).Nodup :=
      (sortBy_perm _ _).nodup_iff.2 ts.nodup
    obtain ⟨r', entered, h'⟩ := h.foldlM_putReduce settled.toLawful distinct
      (fun t mem => inputs t (mem_sortBy.1 mem)) hp (rfl : (⟨n, p.right.length⟩ : Item).production = n)
    refine ⟨r', ?_, ?_⟩
    · rw [if_neg zero, settled.coherent.productionAt?_eq hp]
      exact Attempt.bind_eq_ok.2 ⟨ts, found, entered⟩
    · have same : (fun x => as x ++ if x ∈ sortBy (fun a b : Int => a ≤ b) ts.toList
            then [(⟨.reduce, n⟩ : Action)] else []) =
          fun x => as x ++ (demanded look x ⟨n, p.right.length⟩).toList := by
        funext x
        rw [demanded, if_neg zero, found]
        simp only [mem_sortBy, OrderedSet.mem_def]
        split <;> rfl
      exact same ▸ h'

/-- All completed items of a state come up. -/
theorem Weighs.foldlM_putCompleted {its : List Item} (h : g.Weighs q as r) (auto : g.Automaton states)
    (distinct : its.Nodup) (completed : ∀ it ∈ its, Holds states q it ∧ it.isComplete g = true)
    (looks : ∀ it ∈ its, it.production ≠ 0 →
      ∃ ts, look it = .ok ts ∧ ∀ t ∈ ts, g.isInput t = true)
    (others : ∀ it ∈ its, it.production = 0 → ∀ a ∈ as endMarkerId, a.kind ≠ .accept) :
    ∃ r', its.foldlM (Row.putCompleted g q look) r = .ok r' ∧
      g.Weighs q (fun x => as x ++ its.filterMap (demanded look x)) r' := by
  induction its generalizing as r with
  | nil => exact ⟨r, rfl, by simpa using h⟩
  | cons it its ih =>
    obtain ⟨out, distinct⟩ := List.nodup_cons.1 distinct
    obtain ⟨⟨holds, complete⟩, ended⟩ := List.forall_mem_cons.1 completed
    obtain ⟨look_it, looks⟩ := List.forall_mem_cons.1 looks
    obtain ⟨other, others⟩ := List.forall_mem_cons.1 others
    obtain ⟨r₁, first, h₁⟩ := h.putCompleted settled auto holds complete look_it other
    -- Production 0 has one completed item only, so it comes up once.
    have once : ∀ it' ∈ its, it'.production = 0 → it.production ≠ 0 := by
      intro it' mem zero' zero
      obtain ⟨n, p, hp, rfl⟩ := settled.completed_eq auto holds complete
      obtain ⟨n', p', hp', rfl⟩ := settled.completed_eq auto (ended it' mem).1 (ended it' mem).2
      dsimp only at zero zero'
      subst zero zero'
      rw [hp] at hp'
      cases hp'
      exact out mem
    obtain ⟨r', rest, h'⟩ := ih h₁ distinct ended looks fun it' mem zero a asked => by
      rcases List.mem_append.1 asked with old | new
      · exact others it' mem zero a old
      · exact demanded_ne_accept (once it' mem zero) (Option.mem_toList.1 new)
    refine ⟨r', ?_, ?_⟩
    · rw [List.foldlM_cons, first]
      exact rest
    · have same : (fun x => (as x ++ (demanded look x it).toList) ++ its.filterMap (demanded look x)) =
          fun x => as x ++ (it :: its).filterMap (demanded look x) := by
        funext x
        rw [List.append_assoc, List.filterMap_cons]
        cases demanded look x it <;> rfl
      exact same ▸ h'

omit settled in
theorem weighs_shifts {s : State} (at_q : states[q]? = some s) :
    g.Weighs q (fun t =>
        ((if g.isInput t then s.transitions.get? t else none).map fun r => ⟨.shift, r⟩).toList)
      ((s.transitions.toList.filter fun t => g.isInput t.1).foldl
        (fun (r : Row) t => r.put t.1 ⟨.shift, t.2⟩) {}) := by
  have unreported : ((s.transitions.toList.filter fun t => g.isInput t.1).foldl
      (fun (r : Row) t => r.put t.1 ⟨.shift, t.2⟩) {}).conflicts = [] := cells_foldl_put.2
  refine ⟨fun t => ?_, fun t => ?_, ?_, ?_⟩
  · refine Option.ext fun a => ?_
    rw [← (filled_shifts at_q).covers unreported, Shifts]
    cases input : g.isInput t with
    | false => simp [outcome]
    | true =>
      simp only [goto?_eq_some, at_q, Option.some_inj, true_and, if_true, exists_eq_left']
      cases s.transitions.get? t with
      | none => simp [outcome]
      | some r => simp [outcome, eq_comm]
  · rw [unreported]
    split
    · cases s.transitions.get? t <;> rfl
    · rfl
  · intro c mem
    rw [unreported] at mem
    cases mem
  · intro _ c mem
    rw [unreported] at mem
    cases mem

/-- The row of a state is settled for all its candidates. -/
theorem Settled.exists_weighed_row (auto : g.Automaton states) {s : State} (at_q : states[q]? = some s)
    (looks : ∀ it, Holds states q it → it.isComplete g = true → it.production ≠ 0 →
      ∃ ts, look it = .ok ts ∧ ∀ t ∈ ts, g.isInput t = true) :
    ∃ r, Row.build g q s look = .ok r ∧ g.Weighs q (g.candidates s look) r := by
  have completed : ∀ it ∈ s.completed g, Holds states q it ∧ it.isComplete g = true := by
    intro it mem
    obtain ⟨n, p, hp, rfl, holds⟩ := (settled.mem_completed auto at_q).1 mem
    exact ⟨holds, settled.isComplete_end hp⟩
  have distinct : (s.completed g).Nodup :=
    List.Nodup.of_map _ ((settled.completed_increasing auto at_q).imp ne_of_lt)
  refine (weighs_shifts at_q).foldlM_putCompleted settled auto distinct completed
    (fun it mem => looks it (completed it mem).1 (completed it mem).2) ?_
  intro it _ _ a shift
  obtain ⟨r, -, rfl⟩ := Option.map_eq_some_iff.1 (Option.mem_toList.1 shift)
  intro accepts
  cases accepts

end Completed

end ParserGenerator.Grammar
