import ParserGenerator.Proofs.LR.Counterparts

/-!
# Tables of grammars with other identifiers

Where the candidates for the cells of terminals that correspond are the same, so are the cells, and a goto
cell stands for a transition. The states have the same numbers, so that nothing in the tables differs but the
identifiers of the symbols, the order of the cells and of what is reported on them, and the names in the
reports.
-/

namespace ParserGenerator

/-- The tables are the same by other identifiers of the symbols. States and productions keep their numbers. -/
structure Tables.Renamed (σ : Int → Int) (name name' : Int → String) (t t' : Tables) : Prop where
  first : t'.startState = t.startState
  count : t'.stateCount = t.stateCount
  lefts : t'.leftIds = t.leftIds.map σ
  lengths : t'.rightLengths = t.rightLengths
  action : t'.action.toList.Perm (t.action.toList.map fun e => ((e.1.1, σ e.1.2), e.2))
  goto : t'.goto.toList.Perm (t.goto.toList.map fun e => ((e.1.1, σ e.1.2), e.2))
  violations : t'.violations.Perm (t.violations.map fun v => { v with terminal := σ v.terminal })
  conflicts : ∃ cs, cs.Perm t'.conflicts ∧ List.Forall₂ (Conflict.Renamed σ name name') t.conflicts cs

/-- The cell that a report is on. -/
def Conflict.cell (c : Conflict) : Int × Int := (c.state, c.terminal)

/-- Lists whose elements are related key by key are related in some order. -/
theorem exists_perm_of_filters {α β κ κ' : Type} [DecidableEq κ] [DecidableEq κ'] {R : α → β → Prop}
    (key : α → κ) (key' : β → κ') (f : κ → κ') (known : κ → Prop)
    (inj : ∀ k l, known k → known l → f k = f l → k = l) {as : List α} {bs : List β}
    (keys : ∀ a ∈ as, known (key a)) (keys' : ∀ b ∈ bs, ∃ k, known k ∧ key' b = f k)
    (related : ∀ k, known k →
      List.Forall₂ R (as.filter fun a => key a = k) (bs.filter fun b => key' b = f k)) :
    ∃ cs, cs.Perm bs ∧ List.Forall₂ R as cs := by
  induction as generalizing bs with
  | nil =>
    cases bs with
    | nil => exact ⟨[], .nil, .nil⟩
    | cons b bs =>
      obtain ⟨k, known, same⟩ := keys' b List.mem_cons_self
      have none := related k known
      rw [List.filter_cons_of_pos (by simp [same])] at none
      cases none
  | cons a as ih =>
    obtain ⟨first, later⟩ := List.forall_mem_cons.1 keys
    have own := related (key a) first
    rw [List.filter_cons_of_pos (by simp)] at own
    obtain ⟨b, rest, ab, rests, matched⟩ := List.forall₂_cons_left_iff.1 own
    obtain ⟨bs₁, bs₂, rfl, others, keyed, kept⟩ := List.filter_eq_cons_iff.1 matched
    simp only [decide_eq_true_eq] at others keyed
    have left : ∀ k, known k → List.Forall₂ R (as.filter fun a => key a = k)
        ((bs₁ ++ bs₂).filter fun b => key' b = f k) := by
      intro k hk
      by_cases same : key a = k
      · subst same
        have none : bs₁.filter (fun b => key' b = f (key a)) = [] :=
          List.filter_eq_nil_iff.2 fun b mem => by simpa using others b mem
        rwa [List.filter_append, none, kept, List.nil_append]
      · have others := related k hk
        have differs : key' b ≠ f k := fun eq => same (inj _ _ first hk (keyed.symm.trans eq))
        rwa [List.filter_cons_of_neg (by simpa using same), List.filter_append,
          List.filter_cons_of_neg (by simpa using differs), ← List.filter_append] at others
    obtain ⟨cs, perm, rel⟩ := ih later (fun b mem => keys' b (by
      rcases List.mem_append.1 mem with mem | mem
      · exact List.mem_append_left _ mem
      · exact List.mem_append_right _ (List.mem_cons_of_mem _ mem))) left
    exact ⟨b :: cs, (perm.cons b).trans List.perm_middle.symm, .cons ab rel⟩

namespace Grammar

variable {g h : Grammar} {σ τ : Int → Int} {marker start x : Int} {q : Nat}
  {look look' : Nat → Item → Except Error TerminalSet} {t t' : Tables} {states : Array State}

/-! ## Cells on known symbols -/

theorem Automaton.goto_mem_ids (sound : g.Lawful) (auto : g.Automaton states) {r : Nat}
    (step : goto? states q x = some r) : x ∈ g.ids := by
  obtain ⟨-, it, -, p, hp, at_dot⟩ := auto.moves step
  exact sound.right_mem_ids hp x (List.mem_of_getElem? at_dot)

/-- Maps with the same cells for symbols that correspond have the same entries. -/
theorem Mirrored.perm_of_cells {β : Type} (mirrored : g.Mirrored σ τ h) {m m' : OrderedMap (Int × Int) β}
    (inside : ∀ {k v}, m.get? k = some v → ∃ q : Nat, k.1 = q ∧ k.2 ∈ g.ids)
    (inside' : ∀ {k v}, m'.get? k = some v → ∃ q : Nat, k.1 = q ∧ k.2 ∈ h.ids)
    (agree : ∀ {q : Nat} {x}, x ∈ g.ids → m'.get? ((q : Int), σ x) = m.get? ((q : Int), x)) :
    m'.toList.Perm (m.toList.map fun e => ((e.1.1, σ e.1.2), e.2)) := by
  have distinct : (m.toList.map fun e => ((e.1.1, σ e.1.2), e.2)).Nodup := by
    refine List.Nodup.map_on ?_ (List.Nodup.of_map _ m.nodup)
    rintro ⟨⟨i, x⟩, v⟩ mem ⟨⟨j, y⟩, w⟩ mem' eq
    simp only [Prod.mk.injEq] at eq
    obtain ⟨⟨rfl, same⟩, rfl⟩ := eq
    obtain ⟨-, -, known⟩ := inside (OrderedMap.mem_toList.1 mem)
    obtain ⟨-, -, known'⟩ := inside (OrderedMap.mem_toList.1 mem')
    cases mirrored.inj known known' same
    rfl
  refine (List.perm_ext_iff_of_nodup (List.Nodup.of_map _ m'.nodup) distinct).2 ?_
  rintro ⟨⟨i, y⟩, v⟩
  rw [OrderedMap.mem_toList, List.mem_map]
  constructor
  · intro cell
    obtain ⟨q, rfl, known⟩ := inside' cell
    have known' : τ y ∈ g.ids := mirrored.symm.known known
    have own := agree (q := q) known'
    rw [mirrored.undone' y known, cell] at own
    exact ⟨_, OrderedMap.mem_toList.2 own.symm, by rw [mirrored.undone' y known]⟩
  · rintro ⟨⟨⟨j, x⟩, w⟩, mem, eq⟩
    have cell := OrderedMap.mem_toList.1 mem
    obtain ⟨q, rfl, known⟩ := inside cell
    cases eq
    exact (agree known).trans cell

section Cells

variable (settled : g.Settled marker start) (contents : g.Contents g.explore look t)
include settled contents

theorem Settled.action_known {k : Int × Int} {a : Action} (cell : t.action.get? k = some a) :
    ∃ q : Nat, k.1 = q ∧ k.2 ∈ g.ids := by
  obtain ⟨q, same, -, input⟩ := contents.action_inside cell
  exact ⟨q, same, mem_ids_of_isInput settled.toLawful input⟩

theorem Settled.goto_known {k : Int × Int} {r : Int} (cell : t.goto.get? k = some r) :
    ∃ q : Nat, k.1 = q ∧ k.2 ∈ g.ids := by
  obtain ⟨q, r', same, -, step⟩ := contents.goto_inside cell
  exact ⟨q, same, settled.automaton.goto_mem_ids settled.toLawful step⟩

end Cells

/-! ## Tables -/

/-- Grammars that are the same but for the identifiers of their symbols, with the tables that come of what is
looked up for completed items in each of them. -/
structure Matched (g : Grammar) (σ τ : Int → Int) (h : Grammar)
    (look look' : Nat → Item → Except Error TerminalSet) (t t' : Tables) : Prop where
  mirrored : g.Mirrored σ τ h
  settled : ∃ marker start, g.Settled marker start
  settled' : ∃ marker start, h.Settled marker start
  contents : g.Contents g.explore look t
  contents' : h.Contents h.explore look' t'
  follows : g.FollowsAlike σ h
  looks : g.LooksAlike σ look look'

namespace Matched

variable (pair : g.Matched σ τ h look look' t t')
include pair

theorem explore : g.SameStates σ g.explore h.explore := by
  obtain ⟨_, _, settled⟩ := pair.settled
  obtain ⟨_, _, settled'⟩ := pair.settled'
  exact pair.mirrored.explore settled settled'

/-- The candidates for the cells of terminals that correspond are the same, and only a terminal other than
the end marker is shifted. -/
theorem candidates {s s' : State} (at_q : g.explore[q]? = some s) (state : g.SameState σ s s')
    (mem : x ∈ g.ids) : h.candidates s' (look' q) (σ x) = g.candidates s (look q) x ∧
      ((∃ a ∈ g.candidates s (look q) x, a.kind = .shift) → g.isInput x = true ∧ x ≠ endMarkerId) := by
  obtain ⟨_, _, settled⟩ := pair.settled
  obtain ⟨_, _, settled'⟩ := pair.settled'
  exact ⟨pair.mirrored.candidates settled settled' settled.automaton at_q pair.looks state mem,
    settled.shifts_terminal settled.automaton at_q⟩

/-- Cells of terminals that correspond hold the same. -/
theorem action_eq (mem : x ∈ g.ids) :
    t'.action.get? ((q : Int), σ x) = t.action.get? ((q : Int), x) := by
  cases at_q : g.explore[q]? with
  | some s =>
    obtain ⟨s', at_q', state⟩ := pair.explore.exists_state at_q
    obtain ⟨same, shifts⟩ := pair.candidates at_q state mem
    rw [pair.contents.cell at_q, pair.contents'.cell at_q', same]
    refine outcome_congr (fun shift => ?_) candidates_tail
    exact pair.mirrored.verdict pair.follows (shifts shift).1 (shifts shift).2
  | none =>
    have outside : ∀ {k : Grammar} {look : Nat → Item → Except Error TerminalSet} {t : Tables} {y : Int},
        k.Contents k.explore look t → k.explore.size = g.explore.size →
          t.action.get? ((q : Int), y) = none := by
      intro k look t y contents size
      refine Option.eq_none_iff_forall_ne_some.2 fun a cell => ?_
      obtain ⟨q', numbered, inside, -⟩ := contents.action_inside cell
      obtain rfl : q = q' := Int.ofNat.inj numbered
      rw [contents.count, size] at inside
      exact absurd (Int.ofNat_lt.1 inside) (Nat.not_lt.2 (Array.getElem?_eq_none_iff.1 at_q))
    rw [outside pair.contents rfl, outside pair.contents' pair.explore.size_eq]

/-- Transitions on symbols that correspond lead to the same states. -/
theorem goto_eq (mem : x ∈ g.ids) :
    t'.goto.get? ((q : Int), σ x) = t.goto.get? ((q : Int), x) := by
  rw [pair.contents.toTabled.goto_eq, pair.contents'.toTabled.goto_eq, pair.mirrored.isInput mem,
    pair.explore.goto_eq mem]

/-- Reports on the cells of terminals that correspond differ in the names only. -/
theorem conflicts_renamed :
    ∃ cs, cs.Perm t'.conflicts ∧ List.Forall₂ (Conflict.Renamed σ g.nameAt h.nameAt) t.conflicts cs := by
  obtain ⟨_, _, settled⟩ := pair.settled
  obtain ⟨_, _, settled'⟩ := pair.settled'
  refine exists_perm_of_filters Conflict.cell Conflict.cell (fun k => (k.1, σ k.2))
    (fun k => (∃ (q : Nat) (s : State), g.explore[q]? = some s ∧ k.1 = q) ∧ k.2 ∈ g.ids) ?_ ?_ ?_ ?_
  · rintro ⟨i, x⟩ ⟨j, y⟩ ⟨-, known⟩ ⟨-, known'⟩ eq
    obtain ⟨same, eq⟩ := Prod.mk.inj eq
    exact Prod.ext same (pair.mirrored.inj known known' eq)
  · intro c mem
    obtain ⟨a, cell⟩ := pair.contents.reported mem
    obtain ⟨-, -, known⟩ := settled.action_known pair.contents cell
    exact ⟨pair.contents.sources c mem, known⟩
  · intro c mem
    obtain ⟨a, cell⟩ := pair.contents'.reported mem
    obtain ⟨-, -, known⟩ := settled'.action_known pair.contents' cell
    obtain ⟨q, s', at_q', numbered⟩ := pair.contents'.sources c mem
    obtain ⟨s, at_q, -⟩ := (pair.mirrored.symm.explore settled' settled).exists_state at_q'
    exact ⟨(c.state, τ c.terminal), ⟨⟨q, s, at_q, numbered⟩, pair.mirrored.symm.known known⟩,
      by rw [pair.mirrored.undone' _ known, Conflict.cell]⟩
  · rintro ⟨i, x⟩ ⟨⟨q, s, at_q, rfl⟩, mem⟩
    obtain ⟨s', at_q', state⟩ := pair.explore.exists_state at_q
    obtain ⟨same, shifts⟩ := pair.candidates at_q state mem
    have listed := pair.contents'.listed at_q' (σ x)
    rw [same] at listed
    simp only [Conflict.cell, Prod.mk.injEq]
    exact pair.mirrored.disputes_renamed pair.follows mem shifts candidates_tail
      (pair.contents.listed at_q x) listed

theorem violations_perm :
    t'.violations.Perm (t.violations.map fun v => { v with terminal := σ v.terminal }) := by
  obtain ⟨_, _, settled⟩ := pair.settled
  obtain ⟨_, _, settled'⟩ := pair.settled'
  have known : ∀ v ∈ t.violations, ∃ q : Nat, v.state = q ∧ v.terminal ∈ g.ids := fun v mem =>
    settled.action_known pair.contents ((pair.contents.refused v).1 mem)
  have distinct : (t.violations.map fun v => { v with terminal := σ v.terminal }).Nodup := by
    refine pair.contents.once.map_on ?_
    rintro ⟨i, x, n⟩ mem ⟨j, y, m⟩ mem' eq
    obtain ⟨-, -, known_x⟩ := known _ mem
    obtain ⟨-, -, known_y⟩ := known _ mem'
    simp only [Violation.mk.injEq] at eq ⊢
    exact ⟨eq.1, pair.mirrored.inj known_x known_y eq.2.1, eq.2.2⟩
  refine (List.perm_ext_iff_of_nodup pair.contents'.once distinct).2 fun v => ?_
  rw [List.mem_map]
  constructor
  · intro mem
    have cell := (pair.contents'.refused v).1 mem
    obtain ⟨q, same, known⟩ := settled'.action_known pair.contents' cell
    have own := pair.action_eq (q := q) (pair.mirrored.symm.known known)
    rw [pair.mirrored.undone' _ known, ← same, cell] at own
    exact ⟨⟨v.state, τ v.terminal, v.production⟩, (pair.contents.refused _).2 own.symm,
      by rw [pair.mirrored.undone' _ known]⟩
  · rintro ⟨w, mem, rfl⟩
    obtain ⟨q, same, known⟩ := known w mem
    have cell := (pair.contents.refused w).1 mem
    refine (pair.contents'.refused _).2 ?_
    dsimp only
    rw [same] at cell ⊢
    exact (pair.action_eq known).trans cell

theorem lefts_eq : t'.leftIds = t.leftIds.map σ := by
  obtain ⟨_, _, settled⟩ := pair.settled
  obtain ⟨_, _, settled'⟩ := pair.settled'
  have rules := congrArg (List.map Prod.fst) (pair.mirrored.productions settled settled')
  rw [pair.contents.lefts, pair.contents'.lefts, List.map_map]
  rwa [List.map_map, List.map_map] at rules

theorem lengths_eq : t'.rightLengths = t.rightLengths := by
  obtain ⟨_, _, settled⟩ := pair.settled
  obtain ⟨_, _, settled'⟩ := pair.settled'
  have rules := congrArg (List.map fun e => Int.ofNat (h.erased e.2).length)
    (pair.mirrored.productions settled settled')
  rw [List.map_map, List.map_map] at rules
  rw [settled.rightLengths_eq pair.contents.toTabled, settled'.rightLengths_eq pair.contents'.toTabled]
  refine Eq.trans rules (List.map_congr_left fun p mem => ?_)
  obtain ⟨i, at_i⟩ := List.mem_iff_getElem?.1 mem
  rw [Array.getElem?_toList, settled.listed] at at_i
  dsimp only [Function.comp_apply]
  rw [pair.mirrored.erased (settled.right_mem_ids at_i), List.length_map]

/-- The tables are the same by other identifiers. -/
theorem renamed : t.Renamed σ g.nameAt h.nameAt t' := by
  obtain ⟨_, _, settled⟩ := pair.settled
  obtain ⟨_, _, settled'⟩ := pair.settled'
  exact {
    first := pair.contents'.start.trans pair.contents.start.symm
    count := by rw [pair.contents'.count, pair.contents.count, pair.explore.size_eq]
    lefts := pair.lefts_eq
    lengths := pair.lengths_eq
    action := pair.mirrored.perm_of_cells (settled.action_known pair.contents)
      (settled'.action_known pair.contents') pair.action_eq
    goto := pair.mirrored.perm_of_cells (settled.goto_known pair.contents)
      (settled'.goto_known pair.contents') pair.goto_eq
    violations := pair.violations_perm
    conflicts := pair.conflicts_renamed }

end Matched

end Grammar

end ParserGenerator
