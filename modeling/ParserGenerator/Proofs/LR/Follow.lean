import ParserGenerator.Proofs.Analysis.FirstFollow
import ParserGenerator.Proofs.LR.Canonical

/-!
# What follows the transitions on nonterminals

The terminals that can follow a transition on a nonterminal are told by three rules over the states. They
are the lookaheads with which the productions of the nonterminal are canonical behind some path to the
state, if every nonterminal derives a word; all that are canonical follow in any case.
-/

namespace ParserGenerator.Grammar

variable {g : Grammar} {marker start : Int} {states : Array State} {q r o : Nat} {n t u id : Int}
  {it : Item} {p : Production} {α β γ δ : List Int}

/-- The terminals that can follow the transition of a state on a nonterminal. -/
inductive Follow (g : Grammar) (states : Array State) (start : Int) : Nat → Int → Int → Prop
  | ends : Follow g states start 0 start endMarkerId
  | first {q : Nat} {α γ : List Int} {n id t : Int} {p : Production} :
      Holds states q ⟨n, α.length⟩ → g.byNumber.get? n = some p → p.right = α ++ id :: γ →
      g.isNonterminal id = true → g.First γ t → Follow g states start q id t
  | includes {o q : Nat} {α γ : List Int} {n id t : Int} {p : Production} :
      Holds states o ⟨n, 0⟩ → Trail states o (g.erased α) q → g.byNumber.get? n = some p → n ≠ 0 →
      p.right = α ++ id :: γ → g.isNonterminal id = true → g.Nullable γ →
      Follow g states start o p.left t → Follow g states start q id t

theorem take_succ_of_right {x : Int} (right : p.right = α ++ x :: γ) :
    p.right.take α.length = α ∧ p.right.take (α ++ [x]).length = α ++ [x] := by
  refine ⟨by rw [right, List.take_left], ?_⟩
  have split : p.right = (α ++ [x]) ++ γ := by simp [right]
  rw [split, List.take_left]

/-- Where the production of a canonical item was brought in, its lookahead follows the transition on its
left-hand side. -/
theorem Canonical.follow (settled : g.Settled marker start) (auto : g.Automaton states)
    (h : g.Canonical γ it t) :
    ∃ p δ q, g.byNumber.get? it.production = some p ∧ γ = δ ++ g.erased (p.right.take it.position) ∧
      Trail states 0 δ q ∧ Holds states q ⟨it.production, 0⟩ ∧
      (it.production = 0 ∧ δ = [] ∧ t = endMarkerId ∨
        it.production ≠ 0 ∧ Follow g states start q p.left t) := by
  induction h with
  | first =>
    exact ⟨_, [], 0, settled.zero, rfl, .nil 0, auto.holds_initial, .inl ⟨rfl, rfl, rfl⟩⟩
  | expand _ hp right hp' ahead ih =>
    rename_i α γ n m t u p p' _
    obtain ⟨p₀, δ, o, hp₀, rfl, trail, holds, origin⟩ := ih
    rw [hp] at hp₀
    cases hp₀
    obtain ⟨r, along, inside⟩ := auto.walk (α := []) hp right holds
    rw [List.nil_append] at inside
    dsimp only
    rw [(take_succ_of_right right).1]
    refine ⟨p', δ ++ g.erased α, r, hp', (List.append_nil _).symm, trail.append along,
      auto.expand inside (expects_of_right hp right) hp', .inr ⟨?_, ?_⟩⟩
    · exact settled.expanded_ne_zero hp right hp'
    · have nonterminal := settled.isNonterminal_left hp'
      rcases ahead with first | ⟨nullable, rfl⟩
      · exact .first inside hp right nonterminal first
      · rcases origin with ⟨zero, rfl, rfl⟩ | ⟨ne, follow⟩
        · obtain rfl : n = 0 := zero
          obtain ⟨rfl, left, -⟩ := settled.right_zero hp right
          cases trail
          cases along
          rw [left]
          exact .ends
        · exact .includes holds along hp ne right nonterminal nullable follow
  | skip _ hp right action ih =>
    rename_i α γ n t a p _
    obtain ⟨p₀, δ, o, hp₀, rfl, trail, holds, origin⟩ := ih
    rw [hp] at hp₀
    cases hp₀
    refine ⟨p, δ, o, hp, ?_, trail, holds, origin⟩
    dsimp only
    rw [(take_succ_of_right right).1, (take_succ_of_right right).2, erased_append,
      erased_cons_of_action action]
    simp [erased]
  | move _ hp right plain ih =>
    rename_i α γ n t x p _
    obtain ⟨p₀, δ, o, hp₀, rfl, trail, holds, origin⟩ := ih
    rw [hp] at hp₀
    cases hp₀
    refine ⟨p, δ, o, hp, ?_, trail, holds, origin⟩
    dsimp only
    rw [(take_succ_of_right right).1, (take_succ_of_right right).2, erased_append, erased_cons plain]
    simp [erased]

/-- The lookaheads of a canonical item are in FOLLOW of its left-hand side. -/
theorem Canonical.mem_followOf {f : Facts} (settled : g.Settled marker start)
    (analysed : g.Analysed start f) (h : g.Canonical γ it t) :
    ∃ p, g.byNumber.get? it.production = some p ∧
      (it.production = 0 ∧ t = endMarkerId ∨ it.production ≠ 0 ∧ t ∈ f.followOf p.left) := by
  induction h with
  | first => exact ⟨_, settled.zero, .inl ⟨rfl, rfl⟩⟩
  | expand _ hp right hp' ahead ih =>
    rename_i δ α γ n m t u p p' _
    obtain ⟨p₀, hp₀, origin⟩ := ih
    rw [hp] at hp₀
    cases hp₀
    refine ⟨p', hp', .inr ⟨settled.expanded_ne_zero hp right hp', ?_⟩⟩
    have nonterminal := settled.isNonterminal_left hp'
    rcases ahead with first | ⟨nullable, rfl⟩
    · exact analysed.begins hp right nonterminal (settled.first_iff.1 first)
    · rcases origin with ⟨zero, rfl⟩ | ⟨-, follow⟩
      · obtain rfl : n = 0 := zero
        rw [(settled.right_zero hp right).2.1]
        exact analysed.ends
      · exact analysed.passes hp right nonterminal (settled.nullable_iff.1 nullable) follow
  | skip _ _ _ _ ih => exact ih
  | move _ _ _ _ ih => exact ih

/-! ## Productive grammars -/

section Productive

variable (settled : g.Settled marker start) (productive : g.Productive) (auto : g.Automaton states)

include settled productive in
theorem exists_ahead (registered : ∀ id ∈ γ, ∃ s, g.symbols.at? id = some s) (t : Int) :
    ∃ u, g.Ahead γ t u := by
  obtain ⟨w, yields⟩ := productive.exists_yields settled registered
  obtain ⟨ns, derivation⟩ := yields.rightmost
  cases w with
  | nil => exact ⟨t, .inr ⟨derivation.derives, rfl⟩⟩
  | cons u w => exact ⟨u, .inl ⟨yields.terminals u List.mem_cons_self, w, derivation.derives⟩⟩

include settled productive in
theorem Closure.canonical {kernel : Item → Prop}
    (base : ∀ it, kernel it → ∃ t, g.Canonical γ it t) (h : g.Closure kernel it) :
    ∃ t, g.Canonical γ it t := by
  induction h with
  | kernel mem => exact base _ mem
  | expand _ expects hp' ih =>
    obtain ⟨t, before⟩ := ih
    obtain ⟨n, p, α, β, rfl, hp, right⟩ := expects.split
    have registered : ∀ id ∈ β, ∃ s, g.symbols.at? id = some s := by
      intro id mem
      refine (settled.right hp id ?_).2
      simp [right, mem]
    obtain ⟨u, ahead⟩ := exists_ahead settled productive registered t
    exact ⟨u, before.expand hp right hp' ahead⟩
  | skip _ expects action ih =>
    obtain ⟨t, before⟩ := ih
    obtain ⟨n, p, α, β, rfl, hp, right⟩ := expects.split
    have next := before.skip hp right action
    rw [List.length_append] at next
    exact ⟨t, next⟩

include settled productive auto in
/-- Behind every path to a state each of its items is canonical with some lookahead. -/
theorem Automaton.canonical (trail : Trail states 0 γ q) (holds : Holds states q it) :
    ∃ t, g.Canonical γ it t := by
  induction γ using List.reverseRecOn generalizing q it with
  | nil =>
    cases trail
    refine (auto.first.1 holds).canonical settled productive ?_
    rintro it rfl
    exact ⟨_, .first⟩
  | append_singleton γ x ih =>
    obtain ⟨o, before, last⟩ := trail.split
    cases last with
    | cons step rest =>
      cases rest
      refine ((auto.target step).1 holds).canonical settled productive ?_
      rintro it ⟨it', holds', expects, rfl⟩
      obtain ⟨t, before⟩ := ih before holds'
      obtain ⟨n, p, α, β, rfl, hp, right⟩ := expects.split
      have next := before.move hp right (auto.moves step).1
      rw [List.length_append] at next
      exact ⟨t, next⟩

include settled productive auto in
/-- What follows a transition is the lookahead of all productions of its nonterminal behind some path. -/
theorem Follow.canonical (h : Follow g states start q id t) :
    ∃ γ, Trail states 0 γ q ∧ ∀ {n p}, g.byNumber.get? n = some p → p.left = id →
      g.Canonical γ ⟨n, 0⟩ t := by
  induction h with
  | ends =>
    refine ⟨[], .nil 0, ?_⟩
    rintro n p hp rfl
    have right : ([p.left] : List Int) = [] ++ p.left :: [] := rfl
    exact Canonical.first.expand (α := []) settled.zero right hp (.inr ⟨.refl, rfl⟩)
  | first holds hp right _ first =>
    obtain ⟨γ, trail⟩ := auto.reached holds.inside
    obtain ⟨u, before⟩ := auto.canonical settled productive trail holds
    refine ⟨γ, trail, ?_⟩
    rintro n p hp' rfl
    exact before.expand hp right hp' (.inl first)
  | includes _ along hp _ right _ nullable _ ih =>
    obtain ⟨γ, trail, all⟩ := ih
    refine ⟨_, trail.append along, ?_⟩
    rintro n p hp' rfl
    have moved := (all hp rfl).walk (α := []) hp right
    exact moved.expand hp right hp' (.inr ⟨nullable, rfl⟩)

end Productive

end ParserGenerator.Grammar
