import ParserGenerator.Proofs.LR.Completeness
import Mathlib.Order.WellFoundedSet

/-!
# Runs end without conflicts

While no token is read, a run reduces a string of symbols. Without conflicts there is one cell for each
state and terminal, so reductions that lead to rest once always do. From a symbol that the lookahead can
follow they do, since the symbols that are left out in between can be made from nothing; a symbol that
only grew into others forever would never come to rest.
-/

namespace ParserGenerator

namespace Grammar

variable {g : Grammar} {marker start : Int} {states : Array State} {t : Tables} {x : Int}
  {q r o : Nat} {n A B C : Int} {p : Production} {α β γ γ' δ : List Int}

/-! ## Reductions of a string -/

/-- The symbols above a state are reduced once by the cell for a terminal. -/
def Reduces (g : Grammar) (states : Array State) (t : Tables) (x : Int) (q : Nat) (γ γ' : List Int) :
    Prop :=
  ∃ β r n p, γ = β ++ g.erased p.right ∧ γ' = β ++ [p.left] ∧ Trail states q γ r ∧
    t.action.get? ((r : Int), x) = some ⟨.reduce, n⟩ ∧ g.byNumber.get? n = some p

/-- Reductions, as many as there may be. -/
abbrev Reduces.Many (g : Grammar) (states : Array State) (t : Tables) (x : Int) (q : Nat) :
    List Int → List Int → Prop :=
  Relation.ReflTransGen (g.Reduces states t x q)

/-- There is no endless sequence of reductions. -/
def Settles (g : Grammar) (states : Array State) (t : Tables) (x : Int) (q : Nat) : List Int → Prop :=
  Acc (flip (g.Reduces states t x q))

/-- Reductions lead to a state in which the terminal asks for no other. -/
def Rests (g : Grammar) (states : Array State) (t : Tables) (x : Int) (q : Nat) (γ : List Int) : Prop :=
  ∃ β r, Reduces.Many g states t x q γ β ∧ Trail states q β r ∧
    ∀ n, t.action.get? ((r : Int), x) ≠ some ⟨.reduce, n⟩

theorem Reduces.unique (h : g.Reduces states t x q γ α) (h' : g.Reduces states t x q γ β) : α = β := by
  obtain ⟨δ, r, n, p, rfl, rfl, trail, cell, hp⟩ := h
  obtain ⟨δ', r', n', p', eq, rfl, trail', cell', hp'⟩ := h'
  obtain rfl := trail.unique trail'
  rw [cell] at cell'
  cases cell'
  rw [hp] at hp'
  cases hp'
  rw [List.append_cancel_right eq]

/-- What happens above a state happens above all that leads there. -/
theorem Reduces.above (trail : Trail states o δ q) (h : g.Reduces states t x q γ γ') :
    g.Reduces states t x o (δ ++ γ) (δ ++ γ') := by
  obtain ⟨β, r, n, p, rfl, rfl, along, cell, hp⟩ := h
  exact ⟨δ ++ β, r, n, p, by simp, by simp, trail.append along, cell, hp⟩

theorem Reduces.Many.above (trail : Trail states o δ q) (h : Reduces.Many g states t x q γ γ') :
    Reduces.Many g states t x o (δ ++ γ) (δ ++ γ') :=
  Relation.ReflTransGen.lift (δ ++ ·) (fun _ _ step => Reduces.above trail step) _ _ h

theorem Settles.of_step (step : g.Reduces states t x q γ γ') (h : g.Settles states t x q γ') :
    g.Settles states t x q γ := by
  refine .intro γ fun β step' => ?_
  rwa [Reduces.unique step' step]

theorem Settles.of_many (steps : Reduces.Many g states t x q γ γ') (h : g.Settles states t x q γ') :
    g.Settles states t x q γ := by
  induction steps using Relation.ReflTransGen.head_induction_on with
  | refl => exact h
  | head step _ ih => exact ih.of_step step

/-- Where the symbols lead nowhere there is no cell to reduce by. -/
theorem Settles.of_trail (h : ∀ r, Trail states q γ r → g.Settles states t x q γ) :
    g.Settles states t x q γ := by
  refine .intro γ fun γ' step => ?_
  obtain ⟨β, r, n, p, -, -, trail, -⟩ := id step
  exact (h r trail).inv step

/-- A part of a string can be reduced forever only if the string can. -/
theorem Settles.below (trail : Trail states o δ q) (h : g.Settles states t x o (δ ++ γ)) :
    g.Settles states t x q γ := by
  have inside := InvImage.accessible (δ ++ ·) h
  exact Subrelation.accessible (fun step => Reduces.above trail step) inside

/-- No string settles that comes back to itself. -/
theorem Settles.irrefl (h : g.Settles states t x q γ) :
    ¬ Relation.TransGen (g.Reduces states t x q) γ γ := by
  induction h.transGen with
  | intro γ _ ih => exact fun cycle => ih γ cycle.swap h cycle

theorem Rests.settles (h : g.Rests states t x q γ) : g.Settles states t x q γ := by
  obtain ⟨β, r, steps, trail, rest⟩ := h
  refine Settles.of_many steps (.intro β ?_)
  rintro - ⟨δ, r', n, p, rfl, rfl, trail', cell, -⟩
  obtain rfl := trail.unique trail'
  exact absurd cell (rest n)

theorem Rests.above (trail : Trail states o δ q) (h : g.Rests states t x q γ) :
    g.Rests states t x o (δ ++ γ) := by
  obtain ⟨β, r, steps, along, rest⟩ := h
  exact ⟨δ ++ β, r, steps.above trail, trail.append along, rest⟩

theorem Rests.of_many (steps : Reduces.Many g states t x q γ γ') (h : g.Rests states t x q γ') :
    g.Rests states t x q γ := by
  obtain ⟨β, r, steps', along, rest⟩ := h
  exact ⟨β, r, steps.trans steps', along, rest⟩

/-! ## What is made from nothing -/

section Decisive

variable (settled : g.Settled marker start) (auto : g.Automaton states)
  (decisive : g.Decisive states start t)

include settled auto in
/-- Before a symbol that can be followed its productions are held with their dots in front. -/
theorem Follow.front (h : Follow g states start q p.left x) (hp : g.byNumber.get? n = some p) :
    n ≠ 0 ∧ Holds states q ⟨n, 0⟩ := by
  obtain ⟨it, holds, expects⟩ := h.expected settled auto
  refine ⟨?_, auto.expand holds expects hp⟩
  rintro rfl
  rw [settled.zero] at hp
  cases hp
  exact settled.marker_ne expects

theorem Vanishes.isNonterminal (sound : g.Lawful) (h : g.Vanishes A) (plain : g.isAction A = false) :
    g.isNonterminal A = true := by
  cases h with
  | action action => exact absurd action (by simp [plain])
  | rule hp _ => exact sound.isNonterminal_left hp

include settled auto in
/-- Over the last symbols of a production, which all vanish, there are reductions, if there are over each of
them. -/
theorem many_over (follow : Follow g states start o p.left x) (hp : g.byNumber.get? n = some p)
    (right : p.right = α ++ (β ++ γ)) (trail : Trail states o (g.erased α) q)
    (vanish : ∀ id ∈ β ++ γ, g.Vanishes id)
    (each : ∀ id ∈ β, g.isAction id = false → ∀ r, Follow g states start r id x →
      Reduces.Many g states t x r [] [id]) :
    Reduces.Many g states t x q [] (g.erased β) := by
  obtain ⟨ne, front⟩ := follow.front settled auto hp
  induction β using List.reverseRecOn generalizing γ with
  | nil => exact .refl
  | append_singleton β y ih =>
    have right' : p.right = α ++ (β ++ y :: γ) := by simp [right]
    have steps := ih right' (by simpa using vanish) fun id mem =>
      each id (List.mem_append_left _ mem)
    by_cases action : g.isAction y = true
    · have same : g.erased (β ++ [y]) = g.erased β := by
        rw [erased_append, erased_cons_of_action action]
        simp [erased]
      rwa [same]
    · have plain : g.isAction y = false := by simpa using action
      have both : g.erased (β ++ [y]) = g.erased β ++ [y] := by
        rw [erased_append, erased_cons plain]
        simp [erased]
      have split : p.right = [] ++ ((α ++ β) ++ y :: γ) := by simp [right]
      obtain ⟨r, along, -⟩ := auto.walk hp split front
      have trail' := along
      rw [erased_append] at trail'
      obtain ⟨q', before, behind⟩ := trail'.split
      obtain rfl := before.unique trail
      have nonterminal := (vanish y (by simp)).isNonterminal settled.toLawful plain
      have nullable : g.Nullable γ :=
        settled.nullable_iff.2 fun id mem => vanish id (by simp [mem])
      have follow' : Follow g states start r y x :=
        .includes front along hp ne split nonterminal nullable follow
      have last := (each y (by simp) plain r follow').above behind
      rw [List.append_nil] at last
      rw [both]
      exact steps.trans last

include settled auto decisive

/-- Behind the symbols of a production its left-hand side is made, if that can be followed. -/
theorem Decisive.reduces (follow : Follow g states start o p.left x) (hp : g.byNumber.get? n = some p)
    (trail : Trail states o (g.erased p.right) q) :
    g.Reduces states t x o (g.erased p.right) [p.left] := by
  obtain ⟨ne, front⟩ := follow.front settled auto hp
  have looks : g.Looks states start q n x := ⟨p, o, hp, front, trail, follow⟩
  exact ⟨[], q, n, p, rfl, rfl, trail, decisive.reduce_iff.2 ⟨ne, looks⟩, hp⟩

/-- A symbol that vanishes is made from nothing, if it can be followed. -/
theorem Decisive.many_vanishes (vanishes : g.Vanishes A) (plain : g.isAction A = false)
    (follow : Follow g states start q A x) : Reduces.Many g states t x q [] [A] := by
  induction vanishes generalizing q with
  | action action => exact absurd action (by simp [plain])
  | rule hp vanish ih =>
    rename_i n p
    obtain ⟨-, front⟩ := follow.front settled auto hp
    have right : p.right = [] ++ (p.right ++ []) := by simp
    obtain ⟨r, trail, -⟩ := auto.walk hp right front
    have steps := many_over settled auto follow hp right (.nil q) (by simpa using vanish)
      fun id mem plain _ follow => ih id mem plain follow
    exact steps.tail (decisive.reduces settled auto follow hp trail)

/-- The symbols behind the dot are made from nothing, if all of them vanish and the left-hand side can be
followed. -/
theorem Decisive.many_behind (follow : Follow g states start o p.left x)
    (hp : g.byNumber.get? n = some p) (right : p.right = α ++ β)
    (trail : Trail states o (g.erased α) q) (vanish : ∀ id ∈ β, g.Vanishes id) :
    Reduces.Many g states t x q [] (g.erased β) := by
  refine many_over (γ := []) settled auto follow hp (by simpa using right) trail (by simpa using vanish) ?_
  exact fun id mem plain _ follow => decisive.many_vanishes settled auto (vanish id mem) plain follow

/-! ## Where reductions come to rest -/

omit settled auto in
/-- A terminal that can be read is shifted, so it asks for no reduction. -/
theorem Decisive.rests_shift (input : g.isInput x = true) (step : goto? states q x = some r) :
    g.Rests states t x q [] := by
  refine ⟨[], q, .refl, .nil q, fun n cell => ?_⟩
  rw [decisive.shift input step] at cell
  cases cell

/-- In front of symbols that the terminal begins there is rest, once what stands before it is made. -/
theorem Decisive.rests_begins (begins : g.Begins γ x) (hp : g.byNumber.get? n = some p)
    (right : p.right = α ++ γ) (holds : Holds states q ⟨n, α.length⟩) : g.Rests states t x q [] := by
  induction begins generalizing q n p α with
  | read input =>
    obtain ⟨r, step⟩ := auto.total holds (expects_of_right hp right) (isAction_of_isInput input)
    exact decisive.rests_shift input step
  | skip vanishes begins ih =>
    rename_i id x γ
    have split : p.right = (α ++ [id]) ++ γ := by simp [right]
    obtain ⟨r, trail, moved⟩ := auto.walk (β := [id]) hp right holds
    have rests := (ih hp split moved).above trail
    rw [List.append_nil] at rests
    refine .of_many ?_ rests
    by_cases action : g.isAction id = true
    · rw [erased_cons_of_action action]
      exact .refl
    · have plain : g.isAction id = false := by simpa using action
      rw [erased_cons plain]
      refine decisive.many_vanishes settled auto vanishes plain ?_
      exact .first holds hp right (vanishes.isNonterminal settled.toLawful plain)
        (settled.first_iff.2 begins)
  | rule hp' _ ih =>
    exact ih (α := []) hp' rfl (auto.expand holds (expects_of_right hp right) hp')

/-- Behind some path a symbol comes to rest with each terminal that can follow it. -/
theorem Decisive.rests_follow (follow : Follow g states start q A x) :
    ∃ γ, Trail states 0 γ q ∧ g.Rests states t x 0 (γ ++ [A]) := by
  induction follow with
  | ends =>
    obtain ⟨r, step, accepting⟩ := auto.exists_accepting settled
    refine ⟨[], .nil 0, [start], r, .refl, .cons step (.nil r), fun n cell => ?_⟩
    rw [decisive.accept accepting] at cell
    cases cell
  | first holds hp right nonterminal first =>
    rename_i q α γ n A x p
    obtain ⟨δ, trail⟩ := auto.reached holds.inside
    have split : p.right = (α ++ [A]) ++ γ := by simp [right]
    obtain ⟨r, along, moved⟩ := auto.walk (β := [A]) hp right holds
    have rests := decisive.rests_begins settled auto (settled.first_iff.1 first) hp split moved
    have above := rests.above (trail.append along)
    rw [List.append_nil, erased_cons (isAction_of_isNonterminal nonterminal)] at above
    exact ⟨δ, trail, above⟩
  | includes front along hp ne right nonterminal nullable follow ih =>
    rename_i o q α γ n A x p
    obtain ⟨δ, trail, rests⟩ := ih
    have split : p.right = (α ++ [A]) ++ γ := by simp [right]
    have front' : p.right = [] ++ ((α ++ [A]) ++ γ) := split
    have whole : p.right = [] ++ (p.right ++ []) := by simp
    obtain ⟨r, walked, -⟩ := auto.walk hp front' front
    obtain ⟨r', through, -⟩ := auto.walk hp whole front
    have steps := (decisive.many_behind settled auto follow hp split walked
      (settled.nullable_iff.1 nullable)).above walked
    rw [List.append_nil, ← erased_append, ← split] at steps
    have last := decisive.reduces settled auto follow hp through
    have made := Reduces.Many.above trail (steps.tail last)
    rw [erased_append, erased_cons (isAction_of_isNonterminal nonterminal), ← List.append_assoc] at made
    exact ⟨δ ++ g.erased α, trail.append along, rests.of_many made⟩

/-- Nothing that is made above a state is reduced forever. -/
theorem Decisive.settles_nil (q : Nat) : g.Settles states t x q [] := by
  refine .intro [] ?_
  rintro - ⟨β, r, n, p, eq, rfl, trail, cell, hp⟩
  obtain ⟨-, p', o, hp', -, along, follow⟩ := decisive.reduce_iff.1 cell
  rw [hp] at hp'
  cases hp'
  obtain ⟨rfl, nothing⟩ := List.append_eq_nil_iff.1 eq.symm
  rw [nothing] at along
  cases along
  cases trail
  obtain ⟨γ, trail, rests⟩ := decisive.rests_follow settled auto follow
  exact rests.settles.below trail

/-! ## Symbols that only grow into others -/

end Decisive

/-- The first symbol becomes the second by a production whose other symbols all vanish, and the terminal can
follow the second. -/
def Climbs (g : Grammar) (states : Array State) (start x A C : Int) : Prop :=
  (∃ o, Follow g states start o C x) ∧ ∃ n p α β, g.byNumber.get? n = some p ∧ p.left = C ∧
    p.right = α ++ A :: β ∧ g.erased α = [] ∧ ∀ id ∈ β, g.Vanishes id

theorem Climbs.isNonterminal (sound : g.Lawful) (h : g.Climbs states start x A C) :
    g.isNonterminal C = true := by
  obtain ⟨-, n, p, α, β, hp, rfl, -⟩ := h
  exact sound.isNonterminal_left hp

section Decisive

variable (settled : g.Settled marker start) (auto : g.Automaton states)
  (decisive : g.Decisive states start t)
include settled auto decisive

/-- Where the second symbol can be followed, so can the first, and reductions lead from one to the other. -/
theorem Decisive.climbs (h : g.Climbs states start x A C) (nonterminal : g.isNonterminal A = true)
    (follow : Follow g states start o C x) :
    Follow g states start o A x ∧ Relation.TransGen (g.Reduces states t x o) [A] [C] := by
  obtain ⟨-, n, p, α, β, hp, rfl, right, nothing, vanish⟩ := h
  obtain ⟨ne, front⟩ := follow.front settled auto hp
  have split : p.right = (α ++ [A]) ++ β := by simp [right]
  have front' : p.right = [] ++ ((α ++ [A]) ++ β) := split
  have whole : p.right = [] ++ (p.right ++ []) := by simp
  have first : g.erased (α ++ [A]) = [A] := by
    rw [erased_append, nothing, erased_cons (isAction_of_isNonterminal nonterminal)]
    rfl
  obtain ⟨r, walked, -⟩ := auto.walk hp front' front
  obtain ⟨r', through, -⟩ := auto.walk hp whole front
  have steps := (decisive.many_behind settled auto follow hp split walked vanish).above walked
  rw [List.append_nil, ← erased_append, ← split, first] at steps
  refine ⟨?_, .tail' steps (decisive.reduces settled auto follow hp through)⟩
  exact .includes front (nothing ▸ .nil o) hp ne right nonterminal (settled.nullable_iff.2 vanish) follow

theorem Decisive.climbs_trans (h : Relation.TransGen (g.Climbs states start x) A C)
    (nonterminal : g.isNonterminal A = true) (follow : Follow g states start o C x) :
    Follow g states start o A x ∧ Relation.TransGen (g.Reduces states t x o) [A] [C] := by
  induction h using Relation.TransGen.head_induction_on with
  | single step => exact decisive.climbs settled auto step nonterminal follow
  | head step _ ih =>
    obtain ⟨follow', rest⟩ := ih (step.isNonterminal settled.toLawful)
    obtain ⟨follow'', steps⟩ := decisive.climbs settled auto step nonterminal follow'
    exact ⟨follow'', steps.trans rest⟩

/-- No symbol becomes itself again. -/
theorem Decisive.climbs_irrefl (A : Int) : ¬ Relation.TransGen (g.Climbs states start x) A A := by
  intro cycle
  obtain ⟨_, -, last⟩ := Relation.TransGen.tail'_iff.1 cycle
  obtain ⟨⟨o, follow⟩, -⟩ := id last
  have nonterminal := last.isNonterminal settled.toLawful
  obtain ⟨γ, trail, rests⟩ := decisive.rests_follow settled auto follow
  obtain ⟨-, steps⟩ := decisive.climbs_trans settled auto cycle nonterminal follow
  exact (rests.settles.below trail).irrefl steps

/-- There are only so many symbols, so each climbs only so far. -/
theorem Decisive.wellFoundedOn_climbs : {A | ∃ s, g.symbols.at? A = some s}.WellFoundedOn
    (flip (Relation.TransGen (g.Climbs states start x))) := by
  have finite : {A | ∃ s, g.symbols.at? A = some s}.Finite := by
    refine (List.finite_toSet (g.symbols.symbols.map Symbol.id)).subset ?_
    rintro A ⟨s, at_s⟩
    exact List.mem_map.2 ⟨s, SymbolTable.mem_symbols.2 ⟨A, at_s⟩, settled.table.id_eq at_s⟩
  have order : IsStrictOrder Int (flip (Relation.TransGen (g.Climbs states start x))) :=
    { irrefl := decisive.climbs_irrefl settled auto
      trans := fun _ _ _ h h' => h'.trans h }
  exact finite.wellFoundedOn

/-! ## All strings settle -/

omit settled auto in
/-- What is made above a symbol settles, if all strings do that are shorter or in which the symbol has
become another. -/
theorem Decisive.settles_above (above : g.Settles states t x q β) (vanish : ∀ id ∈ β, g.Vanishes id)
    (trail : Trail states 0 (γ ++ [A]) q)
    (shorter : ∀ δ, δ.length < γ.length → ∀ C, g.Settles states t x 0 (δ ++ [C]))
    (climbed : ∀ C, g.Climbs states start x A C → g.Settles states t x 0 (γ ++ [C])) :
    g.Settles states t x 0 ((γ ++ [A]) ++ β) := by
  induction above with
  | intro β _ ih =>
  refine .intro _ ?_
  rintro - ⟨δ, r, n, p, eq, rfl, through, cell, hp⟩
  have whole : δ ++ g.erased p.right = γ ++ A :: β := by rw [← eq, List.append_assoc]; rfl
  rcases of_append_eq_append_cons whole with ⟨β', rfl, rfl⟩ | ⟨δ', rfl, right⟩
  · -- The handle is made above the symbol.
    obtain ⟨q', before, along⟩ := through.split
    obtain rfl := before.unique trail
    have vanishes : g.Vanishes p.left :=
      .rule hp (vanish_of_erased fun id mem => vanish id (List.mem_append_right _ mem))
    have step : g.Reduces states t x q' (β' ++ g.erased p.right) (β' ++ [p.left]) :=
      ⟨β', r, n, p, rfl, rfl, along, cell, hp⟩
    have rest := ih _ step (List.forall_mem_append.2
      ⟨fun id mem => vanish id (List.mem_append_left _ mem), List.forall_mem_singleton.2 vanishes⟩)
    have same : (γ ++ [A]) ++ (β' ++ [p.left]) = (γ ++ A :: β') ++ [p.left] := by simp
    exact same ▸ rest
  · obtain ⟨-, p', o, hp', -, -, follow⟩ := decisive.reduce_iff.1 cell
    rw [hp] at hp'
    cases hp'
    cases δ' with
    | nil =>
      -- The symbol comes first in the handle.
      obtain ⟨α, β₀, split, nothing, rfl⟩ := exists_of_erased (α := []) right
      have climbs : g.Climbs states start x A p.left :=
        ⟨⟨o, follow⟩, n, p, α, β₀, hp, rfl, split, nothing, vanish_of_erased vanish⟩
      rw [List.append_nil] at climbed
      exact climbed _ climbs
    | cons y δ' => exact shorter δ (by simp) p.left

/-- No string of symbols is reduced forever. -/
theorem Decisive.settles (γ : List Int) : g.Settles states t x 0 γ := by
  induction length : γ.length using Nat.strong_induction_on generalizing γ with
  | _ k ih =>
  subst length
  rcases List.eq_nil_or_concat γ with rfl | ⟨γ, A, rfl⟩
  · exact decisive.settles_nil settled auto 0
  rw [List.concat_eq_append] at ih ⊢
  have shorter : ∀ δ, δ.length < γ.length → ∀ C, g.Settles states t x 0 (δ ++ [C]) := by
    intro δ lt C
    exact ih (δ ++ [C]).length (by simpa using lt) _ rfl
  have each : ∀ A, (∃ s, g.symbols.at? A = some s) → g.Settles states t x 0 (γ ++ [A]) := by
    intro A known
    refine (decisive.wellFoundedOn_climbs settled auto (x := x)).induction
      (P := fun A => g.Settles states t x 0 (γ ++ [A])) known fun A _ climbed => ?_
    refine .of_trail fun q trail => ?_
    have above := decisive.settles_above (decisive.settles_nil settled auto q) nofun trail shorter
      fun C climbs => climbed C ?_ (.single climbs)
    · rwa [List.append_nil] at above
    · obtain ⟨s, at_s, -⟩ := isNonterminal_iff.1 (climbs.isNonterminal settled.toLawful)
      exact ⟨s, at_s⟩
  refine .of_trail fun q trail => ?_
  obtain ⟨o, -, last⟩ := trail.split
  cases last with
  | cons step _ => exact each A (auto.kind_of_goto settled step).1

end Decisive

end Grammar

/-! ## Runs -/

namespace Parser

open Grammar

variable {p : Parser} {g : Grammar} {marker start : Int} {states : Array State} {q : Nat} {x : Int}
  {below α : List Int} {c : Config (List Token)} {tokens : List Token}

/-- With a bound that is large enough a run accepts or refuses its input. -/
def Ends (p : Parser) (c : Config (List Token)) : Prop :=
  ∃ bound, ∀ limit, bound ≤ limit →
    (p.run TokenSource.list limit c).verdict = .accepted ∨
      ∃ e, (p.run TokenSource.list limit c).verdict = .failed (.source e)

theorem Ends.of_refused {e : SourceError} (refused : p.cell c = .error (.source e)) : p.Ends c :=
  ⟨0, fun limit _ => .inr ⟨e, by rw [run_refused refused]⟩⟩

theorem Ends.of_last {a : Action} (found : p.cell c = .ok a)
    (last : p.perform TokenSource.list c a = .ok none ∨
      ∃ e, p.perform TokenSource.list c a = .error (.source e)) : p.Ends c := by
  refine ⟨1, fun limit enough => ?_⟩
  obtain ⟨limit, rfl⟩ := Nat.exists_eq_add_of_le' enough
  rcases last with accepted | ⟨e, failed⟩
  · exact .inl (by rw [run_accepted found accepted])
  · exact .inr ⟨e, by rw [run_failed found failed]⟩

theorem Ends.of_step {a : Action} {c' : Config (List Token)} (found : p.cell c = .ok a)
    (performed : p.perform TokenSource.list c a = .ok (some c')) (h : p.Ends c') : p.Ends c := by
  obtain ⟨bound, ended⟩ := h
  refine ⟨bound + 1, fun limit enough => ?_⟩
  obtain ⟨limit, rfl⟩ := Nat.exists_eq_add_of_le' (Nat.le_of_add_left_le enough)
  rw [run_step found performed]
  exact ended limit (by omega)

section Ends

variable (settled : g.Settled marker start) (auto : g.Automaton states) (uses : p.Uses g states)
  (decisive : g.Decisive states start p.tables)
include settled auto uses

/-- Between two tokens there are only so many reductions. -/
theorem ends_of_settles (stacked : Stacked states q below α)
    (read : p.terminalOf tokens.head? = .ok x) (settles : g.Settles states p.tables x 0 α)
    (later : ∀ {t ts q below α}, tokens = t :: ts → Stacked states q below α →
      p.Ends (config q below ts)) : p.Ends (config q below tokens) := by
  induction settles generalizing q below with
  | intro α _ ih =>
  cases stepFrom settled auto uses stacked tokens with
  | refused refused => exact .of_refused refused
  | chained found failed => exact .of_last found (.inr ⟨_, failed⟩)
  | shift eq _ _ found performed stacked' => exact .of_step found performed (later eq stacked')
  | reduce hp eq found performed stacked' =>
    refine .of_step found (performed tokens) (ih _ ?_ stacked')
    exact ⟨_, q, _, _, eq, rfl, stacked.trail, get?_of_cell read found, hp⟩
  | accept found _ _ => exact .of_last found (.inl rfl)

include decisive

theorem run_ends (stacked : Stacked states q below α) (tokens : List Token) :
    p.Ends (config q below tokens) := by
  induction tokens generalizing q below α with
  | nil =>
    exact ends_of_settles settled auto uses stacked rfl (decisive.settles settled auto α) nofun
  | cons token tokens ih =>
    rcases terminalOf_cases settled.table uses (some token) with ⟨e, unknown⟩ | ⟨x, read, -⟩
    · refine .of_refused (e := e) ?_
      simp only [cell, config, List.head?_cons, unknown, bind, Except.bind]
    · refine ends_of_settles settled auto uses stacked read (decisive.settles settled auto α) ?_
      rintro t ts q below α ⟨⟩ stacked'
      exact ih stacked'

end Ends

end Parser

namespace Grammar

variable {g : Grammar}

/-- If the tables by state have no conflicts, every run is over after so many steps, whatever the tokens:
it accepts or refuses the input. -/
theorem Declared.parse_terminates (declared : Declared g) (closed : g.closed = true) :
    ∃ t g', buildTables Method.lalr.name g = .ok t g' ∧ (t.conflicts = [] →
      ∀ (text : List Char) (tokens : List Token), ∃ bound, ∀ limit, bound ≤ limit →
        (Parser.parseTokens ⟨t, g'.symbols, text⟩ tokens limit).verdict = .accepted ∨
          ∃ e, (Parser.parseTokens ⟨t, g'.symbols, text⟩ tokens limit).verdict =
            .failed (.source e)) := by
  obtain ⟨⟨marker, start, settled⟩, untouched⟩ := declared.complete closed
  obtain ⟨t, f, built, uses, clear⟩ := settled.exists_tables untouched .lalr
  refine ⟨t, g.having f, built, fun clean text tokens => ?_⟩
  have settled' := settled.having f
  obtain ⟨bound, ended⟩ := Parser.run_ends settled' settled'.automaton (uses text)
    ((clear clean).2 rfl) .bottom tokens
  refine ⟨bound, fun limit enough => ?_⟩
  rw [Parser.parseTokens_eq (uses text)]
  exact ended limit enough

/-- Also the tokens that are no assignment are read to an end. -/
theorem parse_terminates_pointers :
    ∃ t g', buildTables Method.lalr.name pointers = .ok t g' ∧ t.conflicts = [] ∧
      ∀ (text : List Char) (tokens : List Token), ∃ bound, ∀ limit, bound ≤ limit →
        (Parser.parseTokens ⟨t, g'.symbols, text⟩ tokens limit).verdict = .accepted ∨
          ∃ e, (Parser.parseTokens ⟨t, g'.symbols, text⟩ tokens limit).verdict =
            .failed (.source e) := by
  obtain ⟨t, g', built, ends⟩ := declared_pointers.parse_terminates closed_pointers
  have tried : pointers.trial .lalr assignment 8 = some (0, .accepted, [4, 4, 5, 1]) := by
    decide +kernel
  simp only [trial_eq built, Option.some.injEq, Prod.mk.injEq, List.length_eq_zero_iff] at tried
  exact ⟨t, g', built, tried.1, ends tried.1⟩

end Grammar

end ParserGenerator
