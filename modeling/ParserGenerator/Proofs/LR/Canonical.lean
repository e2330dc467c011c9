import ParserGenerator.Proofs.LR.Paths

/-!
# Items with lookahead

The canonical items of a prefix are those that two rules bring in from the first item, with the terminal
that comes behind their production. They are the items that are valid in rightmost derivations: every
derivation shows canonical items, and if every nonterminal derives a word, no others are canonical.
-/

namespace ParserGenerator.Grammar

variable {g : Grammar} {marker start : Int} {states : Array State} {q r : Nat} {n t u : Int}
  {it : Item} {p : Production} {α β γ δ w ns : List Int}

/-- The terminals that can come first behind a sequence and the terminal behind it. -/
def Ahead (g : Grammar) (γ : List Int) (t u : Int) : Prop :=
  g.First γ u ∨ g.Nullable γ ∧ u = t

/-- The LR(1) items of a prefix. -/
inductive Canonical (g : Grammar) : List Int → Item → Int → Prop
  | first : Canonical g [] .initial endMarkerId
  | expand {δ α γ : List Int} {n m t u : Int} {p p' : Production} :
      Canonical g δ ⟨n, α.length⟩ t → g.byNumber.get? n = some p → p.right = α ++ p'.left :: γ →
      g.byNumber.get? m = some p' → g.Ahead γ t u → Canonical g δ ⟨m, 0⟩ u
  | skip {δ α γ : List Int} {n t a : Int} {p : Production} :
      Canonical g δ ⟨n, α.length⟩ t → g.byNumber.get? n = some p → p.right = α ++ a :: γ →
      g.isAction a = true → Canonical g δ ⟨n, (α ++ [a]).length⟩ t
  | move {δ α γ : List Int} {n t x : Int} {p : Production} :
      Canonical g δ ⟨n, α.length⟩ t → g.byNumber.get? n = some p → p.right = α ++ x :: γ →
      g.isAction x = false → Canonical g (δ ++ [x]) ⟨n, (α ++ [x]).length⟩ t

/-- In a rightmost derivation from the start symbol the production of the item is used behind a prefix
that, with the symbols before the dot, is the given one, and the terminal comes behind. -/
def ValidFor (g : Grammar) (start : Int) (γ : List Int) (it : Item) (t : Int) : Prop :=
  ∃ p δ w ns, g.byNumber.get? it.production = some p ∧ it.position ≤ p.right.length ∧ g.Terminals w ∧
    g.Rightmost ns [start] (δ ++ p.left :: w) ∧ γ = δ ++ g.erased (p.right.take it.position) ∧
    (w ++ [endMarkerId]).head? = some t

theorem Settled.right_zero (settled : g.Settled marker start) (hp : g.byNumber.get? 0 = some p)
    {x : Int} (right : p.right = α ++ x :: γ) : α = [] ∧ x = start ∧ γ = [] := by
  rw [settled.zero] at hp
  cases hp
  cases α with
  | nil =>
    cases right
    exact ⟨rfl, rfl, rfl⟩
  | cons a α =>
    have := congrArg List.length right
    simp at this

theorem Settled.expanded_ne_zero (settled : g.Settled marker start) {p' : Production} {m : Int}
    (hp : g.byNumber.get? n = some p) (right : p.right = α ++ p'.left :: γ)
    (hp' : g.byNumber.get? m = some p') : m ≠ 0 := by
  rintro rfl
  rw [settled.zero] at hp'
  cases hp'
  exact settled.marker_right hp (by rw [right]; simp)

/-! ## Canonical items and states -/

theorem Canonical.holds (auto : g.Automaton states) (h : g.Canonical γ it t) :
    ∃ q, Trail states 0 γ q ∧ Holds states q it := by
  induction h with
  | first => exact ⟨0, .nil 0, auto.holds_initial⟩
  | expand _ hp right hp' _ ih =>
    obtain ⟨q, trail, holds⟩ := ih
    exact ⟨q, trail, auto.expand holds (expects_of_right hp right) hp'⟩
  | skip _ hp right action ih =>
    obtain ⟨q, trail, holds⟩ := ih
    have next := auto.skip holds (expects_of_right hp right) action
    rw [List.length_append]
    exact ⟨q, trail, next⟩
  | move _ hp right plain ih =>
    obtain ⟨q, trail, holds⟩ := ih
    have expects := expects_of_right hp right
    obtain ⟨r, step⟩ := auto.total holds expects plain
    rw [List.length_append]
    exact ⟨r, trail.snoc step, auto.shift holds expects step⟩

/-- Over the symbols behind its dot a canonical item stays canonical. -/
theorem Canonical.walk (hp : g.byNumber.get? n = some p) (right : p.right = α ++ (β ++ γ))
    (h : g.Canonical δ ⟨n, α.length⟩ t) :
    g.Canonical (δ ++ g.erased β) ⟨n, (α ++ β).length⟩ t := by
  induction β generalizing α δ with
  | nil => rwa [erased, List.filter_nil, List.append_nil, List.append_nil]
  | cons x β ih =>
    have both : (α ++ [x]) ++ β = α ++ x :: β := by rw [List.append_assoc]; rfl
    have right' : p.right = (α ++ [x]) ++ (β ++ γ) := by
      rw [right, List.append_assoc]
      rfl
    by_cases action : g.isAction x = true
    · rw [erased_cons_of_action action, ← both]
      exact ih right' (h.skip hp right action)
    · have action : g.isAction x = false := by simpa using action
      have next := ih right' (h.move hp right action)
      rw [erased_cons action, ← both]
      rwa [List.append_assoc] at next

/-! ## Derivations show canonical items -/

/-- All that a nonterminal of a form can be rewritten to is canonical for what stands before it. -/
def Shown (g : Grammar) (ξ : List Int) : Prop :=
  ∀ {δ ρ : List Int} {m u : Int} {p : Production}, ξ = δ ++ p.left :: ρ →
    g.byNumber.get? m = some p → g.Ahead ρ endMarkerId u → g.Canonical δ ⟨m, 0⟩ u

theorem Settled.shown_start (settled : g.Settled marker start) : g.Shown [start] := by
  intro δ ρ m u p eq hp ahead
  cases δ with
  | nil =>
    cases eq
    have right : ([p.left] : List Int) = [] ++ p.left :: [] := rfl
    exact Canonical.first.expand (α := []) settled.zero right hp ahead
  | cons a δ =>
    have := congrArg List.length eq
    simp at this

theorem ahead_of_rule (sound : g.Lawful) {ρ v : List Int} (hp : g.byNumber.get? n = some p)
    (h : g.Ahead (ρ ++ (g.erased p.right ++ v)) t u) : g.Ahead (ρ ++ p.left :: v) t u := by
  rw [Ahead, sound.first_iff, sound.nullable_iff] at h ⊢
  have whole : (∀ id ∈ g.erased p.right, g.Vanishes id) → g.Vanishes p.left :=
    fun vanish => .rule hp (vanish_of_erased vanish)
  rcases h with begins | ⟨vanish, eq⟩
  · refine .inl ?_
    rw [begins_append, begins_append, begins_erased sound] at begins
    rw [begins_append]
    rcases begins with before | ⟨vanish, first | ⟨vanish', behind⟩⟩
    · exact .inl before
    · exact .inr ⟨vanish, .rule hp first⟩
    · exact .inr ⟨vanish, .skip (whole vanish') behind⟩
  · refine .inr ⟨?_, eq⟩
    simp only [List.forall_mem_append, List.forall_mem_cons] at vanish ⊢
    exact ⟨vanish.1, whole vanish.2.1, vanish.2.2⟩

/-- What can come behind a sequence and a word is what can come behind the sequence, given what begins the
word. -/
theorem ahead_word (sound : g.Lawful) {v : List Int} (terminal : g.Terminals v)
    (h : g.Ahead (γ ++ v) endMarkerId u) :
    ∃ t, g.Ahead v endMarkerId t ∧ g.Ahead γ t u := by
  simp only [Ahead, sound.first_iff, sound.nullable_iff] at h ⊢
  cases v with
  | nil =>
    rw [List.append_nil] at h
    exact ⟨endMarkerId, .inr ⟨fun _ mem => absurd mem List.not_mem_nil, rfl⟩, h⟩
  | cons t v =>
    have input := terminal t List.mem_cons_self
    refine ⟨t, .inl (.read input), ?_⟩
    rcases h with begins | ⟨vanish, -⟩
    · rcases begins_append.1 begins with before | ⟨vanish, behind⟩
      · exact .inl before
      · refine .inr ⟨vanish, ?_⟩
        cases behind with
        | read _ => rfl
        | skip vanishes _ => exact absurd vanishes (sound.not_vanishes input)
        | rule hp _ =>
          rw [isInput_of_isNonterminal (sound.isNonterminal_left hp)] at input
          cases input
    · exact absurd (vanish t (by simp)) (sound.not_vanishes input)

theorem ahead_erased (sound : g.Lawful) : g.Ahead (g.erased γ) t u ↔ g.Ahead γ t u := by
  rw [Ahead, Ahead, sound.first_iff, sound.first_iff, begins_erased sound, Nullable, Nullable,
    erased_erased]

theorem Settled.shown_rewrites (settled : g.Settled marker start) {ξ ξ' : List Int}
    (shown : g.Shown ξ) (step : g.RewritesLast n ξ ξ') : g.Shown ξ' := by
  obtain ⟨α, v, hp, terminal⟩ := step
  rename_i p
  intro δ ρ m u p' eq hp' ahead
  have sound := settled.toLawful
  rcases of_append_eq_append_cons eq with ⟨ρ', rfl, rfl⟩ | ⟨δ', rfl, behind⟩
  · -- The nonterminal stands before the rewritten one.
    have there : δ ++ p'.left :: ρ' ++ p.left :: v = δ ++ p'.left :: (ρ' ++ p.left :: v) := by
      rw [List.append_assoc]
      rfl
    exact shown there hp' (ahead_of_rule sound hp ahead)
  · rcases of_append_eq_append_cons behind with ⟨ρ', split, rfl⟩ | ⟨v', -, rfl⟩
    · -- It stands in the right-hand side, behind which there are terminals only.
      obtain ⟨t, behind, ahead⟩ := ahead_word sound terminal ahead
      have front := shown rfl hp behind
      obtain ⟨before, after, right, rfl, rfl⟩ := exists_of_erased split
      have moved := front.walk (α := []) hp right
      exact moved.expand hp right hp' ((ahead_erased sound).1 ahead)
    · have mem : p'.left ∈ v' ++ p'.left :: ρ := by simp
      have input := terminal _ mem
      rw [isInput_of_isNonterminal (sound.isNonterminal_left hp')] at input
      cases input

theorem Settled.shown_rightmost (settled : g.Settled marker start) (h : g.Rightmost ns α β)
    (shown : g.Shown α) : g.Shown β := by
  induction h with
  | refl α => exact shown
  | step first _ ih => exact ih (settled.shown_rewrites shown first)

theorem Settled.shown (settled : g.Settled marker start) (h : g.Rightmost ns [start] α) : g.Shown α :=
  settled.shown_rightmost h settled.shown_start

/-! ## Canonical items are those of derivations -/

theorem ahead_of_head (terminal : g.Terminals w) (head : (w ++ [endMarkerId]).head? = some t) :
    g.Ahead w endMarkerId t := by
  cases w with
  | nil =>
    cases head
    exact .inr ⟨.refl, rfl⟩
  | cons u w =>
    cases head
    have input := terminal t List.mem_cons_self
    refine .inl ⟨input, g.erased w, ?_⟩
    rw [erased_cons (isAction_of_isInput input)]
    exact .refl

theorem Settled.canonical_of_validFor (settled : g.Settled marker start)
    (valid : g.ValidFor start γ it t) : g.Canonical γ it t := by
  obtain ⟨p, δ, w, ns, hp, inside, terminal, derivation, rfl, head⟩ := valid
  have front := settled.shown derivation rfl hp (ahead_of_head terminal head)
  have right : p.right = [] ++ (p.right.take it.position ++ p.right.drop it.position) :=
    (List.take_append_drop ..).symm
  have moved := front.walk (α := []) hp right
  rwa [List.nil_append, List.length_take_of_le inside] at moved

theorem validFor_of_right (hp : g.byNumber.get? n = some p) (right : p.right = α ++ β)
    (terminal : g.Terminals w) (derivation : g.Rightmost ns [start] (δ ++ p.left :: w))
    (eq : γ = δ ++ g.erased α) (head : (w ++ [endMarkerId]).head? = some t) :
    g.ValidFor start γ ⟨n, α.length⟩ t := by
  refine ⟨p, δ, w, ns, hp, ?_, terminal, derivation, ?_, head⟩
  · rw [right, List.length_append]
    exact Nat.le_add_right ..
  · rw [right, List.take_left, eq]

theorem ValidFor.of_right (valid : g.ValidFor start γ ⟨n, α.length⟩ t)
    (hp : g.byNumber.get? n = some p) (right : p.right = α ++ β) :
    ∃ δ w ns, g.Terminals w ∧ g.Rightmost ns [start] (δ ++ p.left :: w) ∧ γ = δ ++ g.erased α ∧
      (w ++ [endMarkerId]).head? = some t := by
  obtain ⟨p', δ, w, ns, hp', -, terminal, derivation, eq, head⟩ := valid
  rw [hp] at hp'
  cases hp'
  rw [right, List.take_left] at eq
  exact ⟨δ, w, ns, terminal, derivation, eq, head⟩

/-- What can come ahead in a productive grammar begins a word. -/
theorem Ahead.exists_yields (settled : g.Settled marker start) (productive : g.Productive)
    (registered : ∀ id ∈ γ, ∃ s, g.symbols.at? id = some s) (h : g.Ahead γ t u)
    (head : (w ++ [endMarkerId]).head? = some t) :
    ∃ v, g.Yields (g.erased γ) v ∧ (v ++ w ++ [endMarkerId]).head? = some u := by
  rcases h with first | ⟨nullable, rfl⟩
  · obtain ⟨v, yields⟩ := (settled.first_iff.1 first).exists_yields settled productive registered
    exact ⟨u :: v, yields, rfl⟩
  · exact ⟨[], yields_of_derives nullable nofun, head⟩

/-- The form in which the symbols behind the dot of an item are still to be rewritten. -/
theorem Settled.exposed (settled : g.Settled marker start) (hp : g.byNumber.get? n = some p)
    (right : p.right = α ++ β)
    (h : n = 0 ∧ t = endMarkerId ∧ γ = [start].take α.length ∨ g.ValidFor start γ ⟨n, α.length⟩ t) :
    ∃ w ns, g.Terminals w ∧ g.Rightmost ns [start] (γ ++ (g.erased β ++ w)) ∧
      (w ++ [endMarkerId]).head? = some t := by
  rcases h with ⟨rfl, rfl, rfl⟩ | valid
  · rw [settled.zero] at hp
    cases hp
    have plain : g.isAction start = false :=
      isAction_of_isNonterminal (isNonterminal_iff.2 settled.start_kind)
    have kept : g.erased [start] = [start] := erased_cons plain []
    refine ⟨[], [], nofun, ?_, rfl⟩
    rcases List.append_eq_singleton_iff.1 right.symm with ⟨rfl, rfl⟩ | ⟨rfl, rfl⟩
    · rw [kept]
      exact .refl _
    · exact .refl _
  · obtain ⟨δ, w, ns, terminal, derivation, rfl, head⟩ := valid.of_right hp right
    refine ⟨w, ns ++ [n], terminal, ?_, head⟩
    have last := derivation.trans (.step (.rule δ w hp terminal) (.refl _))
    rwa [right, erased_append, List.append_assoc, ← List.append_assoc] at last

theorem ValidFor.move (hp : g.byNumber.get? n = some p) {x : Int} (right : p.right = α ++ x :: β)
    (valid : g.ValidFor start γ ⟨n, α.length⟩ t) :
    g.ValidFor start (γ ++ g.erased [x]) ⟨n, (α ++ [x]).length⟩ t := by
  obtain ⟨δ, w, ns, terminal, derivation, rfl, head⟩ := valid.of_right hp right
  have split : p.right = (α ++ [x]) ++ β := by
    rw [right, List.append_assoc]
    rfl
  refine validFor_of_right hp split terminal derivation ?_ head
  rw [erased_append, List.append_assoc]

theorem Settled.validFor_of_canonical (settled : g.Settled marker start) (productive : g.Productive)
    (h : g.Canonical γ it t) :
    it.production = 0 ∧ t = endMarkerId ∧ γ = [start].take it.position ∨ g.ValidFor start γ it t := by
  induction h with
  | first => exact .inl ⟨rfl, rfl, rfl⟩
  | expand _ hp right hp' ahead ih =>
    rename_i δ α γ n m t u p p' _
    obtain ⟨w, ns, terminal, derivation, head⟩ := settled.exposed hp right ih
    have registered : ∀ id ∈ γ, ∃ s, g.symbols.at? id = some s := by
      intro id mem
      refine (settled.right hp id ?_).2
      rw [right]
      exact List.mem_append_right _ (List.mem_cons_of_mem _ mem)
    obtain ⟨v, yields, head⟩ := ahead.exists_yields settled productive registered head
    obtain ⟨ms, behind⟩ := yields.rightmost
    have rest := behind.context (δ ++ [p'.left]) terminal
    have plain := isAction_of_isNonterminal (settled.isNonterminal_left hp')
    rw [erased_cons plain] at derivation
    simp only [List.append_assoc, List.cons_append] at rest derivation
    have both : g.Terminals (v ++ w) := List.forall_mem_append.2 ⟨yields.terminals, terminal⟩
    exact .inr (validFor_of_right hp' (α := []) rfl both (derivation.trans rest)
      (List.append_nil _).symm head)
  | skip _ hp right action ih =>
    rename_i δ α γ n t a p _
    rcases ih with ⟨zero, -, -⟩ | valid
    · obtain rfl : n = 0 := zero
      obtain ⟨-, rfl, -⟩ := settled.right_zero hp right
      rw [isAction_of_isNonterminal (isNonterminal_iff.2 settled.start_kind)] at action
      cases action
    · have moved := valid.move hp right
      rw [erased_cons_of_action action, erased, List.filter_nil, List.append_nil] at moved
      exact .inr moved
  | move _ hp right plain ih =>
    rename_i δ α γ n t x p _
    rcases ih with ⟨zero, rfl, rfl⟩ | valid
    · obtain rfl : n = 0 := zero
      obtain ⟨rfl, rfl, rfl⟩ := settled.right_zero hp right
      exact .inl ⟨rfl, rfl, rfl⟩
    · have moved := valid.move hp right
      rw [erased_cons plain] at moved
      exact .inr moved

/-- Apart from the first production an item is canonical for a prefix exactly if it is valid. -/
theorem Settled.canonical_iff_validFor (settled : g.Settled marker start) (productive : g.Productive)
    (ne : it.production ≠ 0) : g.Canonical γ it t ↔ g.ValidFor start γ it t := by
  constructor
  · intro h
    rcases settled.validFor_of_canonical productive h with ⟨zero, -⟩ | valid
    · exact absurd zero ne
    · exact valid
  · exact settled.canonical_of_validFor

end ParserGenerator.Grammar
