import ParserGenerator.Proofs.LR.Paths

/-!
# Stacks

A stack of states is made by transitions from the first state. A completed item in the state on top can be
traced back over the symbols of its production, and below them lies a state in which its left-hand side
has a transition.
-/

namespace ParserGenerator.Grammar

variable {g : Grammar} {marker start : Int} {states : Array State} {q : Nat} {n : Int} {p : Production}
  {below : List Int} {α β γ : List Int}

/-- A stack with the symbols of its transitions, the first symbol first. -/
inductive Stacked (states : Array State) : Nat → List Int → List Int → Prop
  | bottom : Stacked states 0 [] []
  | push {q r : Nat} {below α : List Int} {x : Int} : Stacked states q below α →
      goto? states q x = some r → Stacked states r (q :: below) (α ++ [x])

theorem Stacked.trail (h : Stacked states q below α) : Trail states 0 α q := by
  induction h with
  | bottom => exact .nil 0
  | push _ step ih => exact ih.snoc step

theorem Stacked.length (h : Stacked states q below α) : below.length = α.length := by
  induction h with
  | bottom => rfl
  | push _ _ ih => simp [ih]

variable (settled : g.Settled marker start) (auto : g.Automaton states)

include settled auto in
/-- The first state lies at the bottom only. -/
theorem Stacked.bottom_of_zero (h : Stacked states 0 below α) : below = [] ∧ α = [] := by
  generalize zero : 0 = q at h
  cases h with
  | bottom => exact ⟨rfl, rfl⟩
  | push _ step =>
    subst zero
    exact absurd auto.holds_initial (auto.not_initial settled step)

/-- A production that is completed on top began in a state below its symbols. -/
theorem Stacked.trace (traced : g.Traced states) (h : Stacked states q below α)
    (hp : g.byNumber.get? n = some p) (right : p.right = β ++ γ)
    (holds : Holds states q ⟨n, β.length⟩) :
    ∃ (o : Nat) (below' α' : List Int), α = α' ++ g.erased β ∧
      ((q : Int) :: below).drop (g.erased β).length = (o : Int) :: below' ∧
      Stacked states o below' α' ∧ Holds states o ⟨n, 0⟩ := by
  induction β using List.reverseRecOn generalizing q below α γ with
  | nil => exact ⟨q, below, α, (List.append_nil α).symm, rfl, h, holds⟩
  | append_singleton β x ih =>
    have split : p.right = β ++ x :: γ := by simp [right]
    have expects := expects_of_right hp split
    have moved : Holds states q (⟨n, β.length⟩ : Item).advance := by
      rwa [List.length_append] at holds
    by_cases action : g.isAction x = true
    · obtain ⟨o, below', α', rfl, dropped, stacked, front⟩ :=
        ih h split (traced.before_action moved expects action)
      have same : g.erased (β ++ [x]) = g.erased β := by
        rw [erased_append, erased_cons_of_action action]
        simp [erased]
      rw [same]
      exact ⟨o, below', α', rfl, dropped, stacked, front⟩
    · have plain : g.isAction x = false := by simpa using action
      cases h with
      | bottom => exact (traced.first_symbol moved expects plain).elim
      | push before step =>
        obtain ⟨rfl, holds'⟩ := traced.before_symbol step moved expects plain
        obtain ⟨o, below', α', rfl, dropped, stacked, front⟩ := ih before split holds'
        have both : g.erased (β ++ [x]) = g.erased β ++ [x] := by
          rw [erased_append, erased_cons plain]
          simp [erased]
        rw [both]
        refine ⟨o, below', α', List.append_assoc .., ?_, stacked, front⟩
        rwa [List.length_append, List.length_singleton, List.drop_succ_cons]

/-- Below the symbols of a completed production its left-hand side leads on. -/
theorem Stacked.unwind (rooted : g.Rooted states) (h : Stacked states q below α)
    (hp : g.byNumber.get? n = some p) (ne : n ≠ 0) (holds : Holds states q ⟨n, p.right.length⟩) :
    g.isNonterminal p.left = true ∧ ∃ (o r : Nat) (below' α' : List Int), α = α' ++ g.erased p.right ∧
      (g.erased p.right).length ≤ below.length ∧
      ((q : Int) :: below).drop (g.erased p.right).length = (o : Int) :: below' ∧
      goto? states o p.left = some r ∧ Stacked states r (o :: below') (α' ++ [p.left]) := by
  obtain ⟨o, below', α', eq, dropped, stacked, front⟩ :=
    h.trace rooted.toTraced hp (List.append_nil _).symm holds
  obtain ⟨nonterminal, r, step⟩ := rooted.left front hp ne
  have enough : (g.erased p.right).length ≤ below.length := by
    rw [h.length, eq, List.length_append]
    exact Nat.le_add_left ..
  exact ⟨nonterminal, o, r, below', α', eq, enough, dropped, step, stacked.push step⟩

include settled auto in
/-- The stack of an accepting state holds the start symbol and nothing else. -/
theorem Stacked.accepting (h : Stacked states q below α) (holds : Holds states q .accepting) :
    α = [start] := by
  have plain := isAction_of_isNonterminal (isNonterminal_iff.2 settled.start_kind)
  have kept : g.erased [start] = [start] := erased_cons plain []
  obtain ⟨o, below', α', eq, -, stacked, front⟩ :=
    h.trace auto.traced (p := ⟨0, marker, [start], none, none⟩) (β := [start]) (γ := []) settled.zero rfl holds
  obtain rfl := auto.eq_zero_of_initial settled front
  rw [(stacked.bottom_of_zero settled auto).2, kept] at eq
  exact eq

end ParserGenerator.Grammar
