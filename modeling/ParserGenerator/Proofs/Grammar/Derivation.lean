import ParserGenerator.LR.Lookahead
import ParserGenerator.Proofs.Grammar.Lawful
import Mathlib.Logic.Relation

/-!
# Derivations

Action symbols derive nothing, so derivations run over right-hand sides from which they are erased. A
rightmost derivation is told by the numbers of its productions. Whole words are described by what the
symbols of a form yield one after the other, and FIRST by the rules that its members come from; both are
the same as by derivations.
-/

namespace ParserGenerator.Grammar

def isAction (g : Grammar) (id : Int) : Bool := (g.symbols.at? id).any Symbol.isAction

/-- The symbols that are no action symbols. -/
def erased (g : Grammar) (ids : List Int) : List Int := ids.filter (!g.isAction ·)

def Terminals (g : Grammar) (w : List Int) : Prop := ∀ t ∈ w, g.isInput t = true

instance (g : Grammar) (w : List Int) : Decidable (g.Terminals w) :=
  inferInstanceAs (Decidable (∀ t ∈ w, g.isInput t = true))

/-- By the production of the number derivations replace a nonterminal by the given symbols. -/
def Replaces (g : Grammar) (n left : Int) (right : List Int) : Prop :=
  ∃ p, g.byNumber.get? n = some p ∧ p.left = left ∧ g.erased p.right = right

instance (g : Grammar) (n left : Int) (right : List Int) : Decidable (g.Replaces n left right) :=
  decidable_of_iff ((g.byNumber.get? n).any fun p => p.left = left ∧ g.erased p.right = right) (by
    rw [Option.any_eq_true]
    simp only [decide_eq_true_eq]
    rfl)

inductive Rewrites (g : Grammar) : List Int → List Int → Prop
  | rule {n : Int} {p : Production} (α β : List Int) : g.byNumber.get? n = some p →
      Rewrites g (α ++ p.left :: β) (α ++ (g.erased p.right ++ β))

def Derives (g : Grammar) : List Int → List Int → Prop := Relation.ReflTransGen g.Rewrites

/-- Rewrites the last nonterminal by the production of a number. -/
inductive RewritesLast (g : Grammar) (n : Int) : List Int → List Int → Prop
  | rule {p : Production} (α w : List Int) : g.byNumber.get? n = some p → g.Terminals w →
      RewritesLast g n (α ++ p.left :: w) (α ++ (g.erased p.right ++ w))

/-- A rightmost derivation by the productions of the given numbers. -/
inductive Rightmost (g : Grammar) : List Int → List Int → List Int → Prop
  | refl (α : List Int) : Rightmost g [] α α
  | step {n : Int} {ns α β γ : List Int} : g.RewritesLast n α β → Rightmost g ns β γ →
      Rightmost g (n :: ns) α γ

/-- The symbols of a form yield the parts of a word. -/
inductive Yields (g : Grammar) : List Int → List Int → Prop
  | nil : Yields g [] []
  | read {t : Int} {α w : List Int} : g.isInput t = true → Yields g α w → Yields g (t :: α) (t :: w)
  | rule {n : Int} {p : Production} {α v w : List Int} : g.byNumber.get? n = some p →
      Yields g (g.erased p.right) v → Yields g α w → Yields g (p.left :: α) (v ++ w)

/-- The symbol derives the empty word. -/
inductive Vanishes (g : Grammar) : Int → Prop
  | action {id : Int} : g.isAction id = true → Vanishes g id
  | rule {n : Int} {p : Production} : g.byNumber.get? n = some p →
      (∀ id ∈ p.right, Vanishes g id) → Vanishes g p.left

/-- The terminal begins something that the symbols derive. -/
inductive Begins (g : Grammar) : List Int → Int → Prop
  | read {t : Int} {α : List Int} : g.isInput t = true → Begins g (t :: α) t
  | skip {id t : Int} {α : List Int} : g.Vanishes id → Begins g α t → Begins g (id :: α) t
  | rule {n t : Int} {p : Production} {α : List Int} : g.byNumber.get? n = some p →
      Begins g p.right t → Begins g (p.left :: α) t

def Nullable (g : Grammar) (γ : List Int) : Prop := g.Derives (g.erased γ) []

/-- The terminals that can begin what a sequence derives. -/
def First (g : Grammar) (γ : List Int) (t : Int) : Prop :=
  g.isInput t = true ∧ ∃ δ, g.Derives (g.erased γ) (t :: δ)

/-- Every nonterminal derives a word. -/
def Productive (g : Grammar) : Prop :=
  ∀ id, g.isNonterminal id = true → ∃ w, g.Terminals w ∧ g.Derives [id] w

variable {g : Grammar} {α β γ δ v w x ns ms : List Int} {n t id : Int} {p : Production}

@[simp] theorem erased_append (g : Grammar) (α β : List Int) :
    g.erased (α ++ β) = g.erased α ++ g.erased β := List.filter_append ..

theorem erased_erased (g : Grammar) (α : List Int) : g.erased (g.erased α) = g.erased α := by
  rw [erased, erased, List.filter_filter]
  simp only [Bool.and_self]

theorem erased_cons_of_action (h : g.isAction id = true) (α : List Int) :
    g.erased (id :: α) = g.erased α := List.filter_cons_of_neg (by simp [h])

theorem erased_cons (h : g.isAction id = false) (α : List Int) :
    g.erased (id :: α) = id :: g.erased α := List.filter_cons_of_pos (by simp [h])

theorem exists_of_erased {x : Int} (h : g.erased γ = α ++ x :: β) :
    ∃ α' β', γ = α' ++ x :: β' ∧ g.erased α' = α ∧ g.erased β' = β := by
  rw [erased, List.filter_eq_append_iff] at h
  obtain ⟨γ₁, γ₂, rfl, rfl, h⟩ := h
  rw [List.filter_eq_cons_iff] at h
  obtain ⟨γ₃, γ₄, rfl, actions, -, rfl⟩ := h
  refine ⟨γ₁ ++ γ₃, γ₄, (List.append_assoc ..).symm, ?_, rfl⟩
  have nothing : g.erased γ₃ = [] := List.filter_eq_nil_iff.2 actions
  rw [erased_append, nothing, List.append_nil]
  rfl

/-- A symbol of two joined sequences is in one of them. -/
theorem of_append_eq_append_cons {x : Int} {ρ : List Int} (eq : α ++ β = δ ++ x :: ρ) :
    (∃ ρ', α = δ ++ x :: ρ' ∧ ρ = ρ' ++ β) ∨ ∃ δ', δ = α ++ δ' ∧ β = δ' ++ x :: ρ := by
  rcases List.append_eq_append_iff.1 eq with ⟨δ', before, behind⟩ | ⟨ρ', before, behind⟩
  · exact .inr ⟨δ', before, behind⟩
  · cases ρ' with
    | nil =>
      rw [List.append_nil] at before
      exact .inr ⟨[], by rw [before, List.append_nil], behind.symm⟩
    | cons y ρ' =>
      cases behind
      exact .inl ⟨ρ', before, rfl⟩

/-! ## Kinds -/

theorem isAction_eq {s : Symbol} (at_s : g.symbols.at? id = some s) : g.isAction id = s.isAction := by
  rw [isAction, at_s]
  rfl

theorem isInput_eq {s : Symbol} (at_s : g.symbols.at? id = some s) : g.isInput id = s.isInput := by
  rw [isInput, at_s]
  rfl

theorem isInput_of_terminal {s : Symbol} (kind : s.kind = .terminal) : s.isInput = true := by
  rw [Symbol.isInput, kind]
  rfl

theorem isInput_iff : g.isInput id = true ↔ ∃ s, g.symbols.at? id = some s ∧ s.isInput = true :=
  Option.any_eq_true ..

theorem isNonterminal_iff :
    g.isNonterminal id = true ↔ ∃ s, g.symbols.at? id = some s ∧ s.kind = .nonterminal := by
  rw [isNonterminal, Option.any_eq_true]
  simp only [decide_eq_true_eq]

theorem isAction_iff : g.isAction id = true ↔ ∃ s, g.symbols.at? id = some s ∧ s.isAction = true :=
  Option.any_eq_true ..

theorem isAction_of_isInput (h : g.isInput id = true) : g.isAction id = false := by
  obtain ⟨s, at_s, input⟩ := isInput_iff.1 h
  rw [isAction_eq at_s]
  revert input
  show s.kind.isInput = true → s.kind.isAction = false
  cases s.kind <;> exact fun h => by first | rfl | cases h

theorem isInput_of_isNonterminal (h : g.isNonterminal id = true) : g.isInput id = false := by
  obtain ⟨s, at_s, kind⟩ := isNonterminal_iff.1 h
  rw [isInput_eq at_s]
  show s.kind.isInput = false
  rw [kind]
  rfl

theorem isAction_of_isNonterminal (h : g.isNonterminal id = true) : g.isAction id = false := by
  obtain ⟨s, at_s, kind⟩ := isNonterminal_iff.1 h
  rw [isAction_eq at_s]
  show s.kind.isAction = false
  rw [kind]
  rfl

theorem Lawful.isNonterminal_left (sound : g.Lawful) (hp : g.byNumber.get? n = some p) :
    g.isNonterminal p.left = true :=
  isNonterminal_iff.2 (sound.left hp)

/-! ## Contexts -/

theorem Rewrites.context (h : g.Rewrites α β) (γ δ : List Int) :
    g.Rewrites (γ ++ α ++ δ) (γ ++ β ++ δ) := by
  obtain ⟨α, β, hp⟩ := h
  have := Rewrites.rule (γ ++ α) (β ++ δ) hp
  simpa only [List.append_assoc, List.cons_append] using this

theorem Derives.context (h : g.Derives α β) (γ δ : List Int) :
    g.Derives (γ ++ α ++ δ) (γ ++ β ++ δ) := by
  induction h with
  | refl => exact .refl
  | tail _ step ih => exact ih.tail (step.context γ δ)

theorem Derives.append (h : g.Derives α β) (h' : g.Derives γ δ) :
    g.Derives (α ++ γ) (β ++ δ) := by
  have first : g.Derives (α ++ γ) (β ++ γ) := h.context [] γ
  have second := h'.context β []
  rw [List.append_nil, List.append_nil] at second
  exact first.trans second

theorem RewritesLast.context (h : g.RewritesLast n α β) (γ : List Int) (terminal : g.Terminals w) :
    g.RewritesLast n (γ ++ α ++ w) (γ ++ β ++ w) := by
  obtain ⟨α, v, hp, terminal'⟩ := h
  have both : g.Terminals (v ++ w) := by
    intro t mem
    rcases List.mem_append.1 mem with left | right
    · exact terminal' t left
    · exact terminal t right
  have := RewritesLast.rule (γ ++ α) (v ++ w) hp both
  simpa only [List.append_assoc, List.cons_append] using this

theorem Rightmost.context (h : g.Rightmost ns α β) (γ : List Int) (terminal : g.Terminals w) :
    g.Rightmost ns (γ ++ α ++ w) (γ ++ β ++ w) := by
  induction h with
  | refl α => exact .refl _
  | step first _ ih => exact .step (first.context γ terminal) ih

theorem Rightmost.trans (h : g.Rightmost ns α β) (h' : g.Rightmost ms β γ) :
    g.Rightmost (ns ++ ms) α γ := by
  induction h with
  | refl α => exact h'
  | step first _ ih => exact .step first (ih h')

/-! ## The empty word -/

theorem Lawful.not_vanishes (sound : g.Lawful) (input : g.isInput id = true) : ¬ g.Vanishes id := by
  intro vanishes
  cases vanishes with
  | action action =>
    rw [isAction_of_isInput input] at action
    cases action
  | rule hp _ =>
    rw [isInput_of_isNonterminal (sound.isNonterminal_left hp)] at input
    cases input

/-- Action symbols vanish with the others. -/
theorem vanish_of_erased (vanish : ∀ id ∈ g.erased γ, g.Vanishes id) : ∀ id ∈ γ, g.Vanishes id := by
  intro id mem
  by_cases action : g.isAction id = true
  · exact .action action
  · exact vanish id (List.mem_filter.2 ⟨mem, by simpa using action⟩)

theorem vanishes_of_derives (h : g.Derives α []) : ∀ id ∈ α, g.Vanishes id := by
  induction h using Relation.ReflTransGen.head_induction_on with
  | refl => exact fun id mem => absurd mem List.not_mem_nil
  | head step _ ih =>
    obtain ⟨α, β, hp⟩ := step
    rename_i n p _
    intro id mem
    rw [List.mem_append, List.mem_cons] at mem
    rcases mem with before | rfl | behind
    · exact ih id (List.mem_append_left _ before)
    · refine .rule hp (vanish_of_erased fun id kept => ih id ?_)
      exact List.mem_append_right _ (List.mem_append_left _ kept)
    · exact ih id (List.mem_append_right _ (List.mem_append_right _ behind))

theorem Lawful.derives_of_vanishes (sound : g.Lawful) (h : g.Vanishes id) :
    g.Nullable [id] := by
  induction h with
  | action action =>
    rw [Nullable, erased_cons_of_action action]
    exact .refl
  | rule hp _ ih =>
    rename_i n p _
    have left := isAction_of_isNonterminal (sound.isNonterminal_left hp)
    have right : ∀ γ, (∀ id ∈ γ, id ∈ p.right) → g.Nullable γ := by
      intro γ
      induction γ with
      | nil => exact fun _ => .refl
      | cons id γ ihγ =>
        intro among
        have head : g.Derives (g.erased [id]) [] := ih id (among id List.mem_cons_self)
        have tail : g.Derives (g.erased γ) [] := ihγ fun x hx => among x (List.mem_cons_of_mem _ hx)
        have both := head.append tail
        rwa [← erased_append] at both
    have step := Rewrites.rule [] [] hp
    rw [Nullable, erased_cons left]
    refine .head step ?_
    rw [List.append_nil]
    exact right p.right fun _ h => h

/-- A sequence derives the empty word exactly if all its symbols do. -/
theorem Lawful.nullable_iff (sound : g.Lawful) : g.Nullable γ ↔ ∀ id ∈ γ, g.Vanishes id := by
  constructor
  · exact fun h => vanish_of_erased (vanishes_of_derives h)
  · induction γ with
    | nil => exact fun _ => .refl
    | cons id γ ih =>
      intro all
      have head : g.Derives (g.erased [id]) [] :=
        sound.derives_of_vanishes (all id List.mem_cons_self)
      have tail : g.Derives (g.erased γ) [] := ih fun x hx => all x (List.mem_cons_of_mem _ hx)
      have both := head.append tail
      rwa [← erased_append] at both

/-! ## FIRST -/

theorem Begins.isInput (h : g.Begins γ t) : g.isInput t = true := by
  induction h with
  | read input => exact input
  | skip _ _ ih => exact ih
  | rule _ _ ih => exact ih

theorem Begins.append_right (h : g.Begins α t) (β : List Int) : g.Begins (α ++ β) t := by
  induction h with
  | read input => exact .read input
  | skip vanishes _ ih => exact .skip vanishes ih
  | rule hp first _ => exact .rule hp first

theorem Begins.append_left (h : g.Begins β t) (vanish : ∀ id ∈ α, g.Vanishes id) :
    g.Begins (α ++ β) t := by
  induction α with
  | nil => exact h
  | cons id α ih =>
    exact .skip (vanish id List.mem_cons_self) (ih fun x hx => vanish x (List.mem_cons_of_mem _ hx))

theorem begins_append : g.Begins (α ++ β) t ↔
    g.Begins α t ∨ (∀ id ∈ α, g.Vanishes id) ∧ g.Begins β t := by
  constructor
  · intro h
    induction α with
    | nil => exact .inr ⟨fun id mem => absurd mem List.not_mem_nil, h⟩
    | cons id α ih =>
      rw [List.cons_append] at h
      cases h with
      | read input => exact .inl (.read input)
      | rule hp first => exact .inl (.rule hp first)
      | skip vanishes rest =>
        rcases ih rest with first | ⟨vanish, second⟩
        · exact .inl (.skip vanishes first)
        · exact .inr ⟨List.forall_mem_cons.2 ⟨vanishes, vanish⟩, second⟩
  · rintro (first | ⟨vanish, second⟩)
    · exact first.append_right β
    · exact second.append_left vanish

theorem begins_erased (sound : g.Lawful) : g.Begins (g.erased γ) t ↔ g.Begins γ t := by
  induction γ with
  | nil => exact Iff.rfl
  | cons id γ ih =>
    by_cases action : g.isAction id = true
    · rw [erased_cons_of_action action, ih]
      constructor
      · exact .skip (.action action)
      · intro h
        cases h with
        | read input =>
          rw [isAction_of_isInput input] at action
          cases action
        | skip _ rest => exact rest
        | rule hp _ =>
          rw [isAction_of_isNonterminal (sound.isNonterminal_left hp)] at action
          cases action
    · have action : g.isAction id = false := by simpa using action
      rw [erased_cons action, ← List.singleton_append, begins_append, ih, ← begins_append]
      rfl

theorem begins_of_derives (sound : g.Lawful) (input : g.isInput t = true)
    (h : g.Derives α (t :: δ)) : g.Begins α t := by
  induction h using Relation.ReflTransGen.head_induction_on with
  | refl => exact .read input
  | head step _ ih =>
    obtain ⟨α, β, hp⟩ := step
    rw [begins_append, begins_append, begins_erased sound] at ih
    rw [begins_append]
    rcases ih with before | ⟨vanish, first | ⟨vanish', behind⟩⟩
    · exact .inl before
    · exact .inr ⟨vanish, .rule hp first⟩
    · exact .inr ⟨vanish, .skip (.rule hp (vanish_of_erased vanish')) behind⟩

theorem Begins.derives (sound : g.Lawful) (h : g.Begins γ t) :
    ∃ δ, g.Derives (g.erased γ) (t :: δ) := by
  induction h with
  | read input =>
    rw [erased_cons (isAction_of_isInput input)]
    exact ⟨_, .refl⟩
  | skip vanishes _ ih =>
    rename_i id t α _
    obtain ⟨δ, rest⟩ := ih
    have first : g.Derives (g.erased [id]) [] := sound.derives_of_vanishes vanishes
    have both := first.append rest
    rw [← erased_append] at both
    exact ⟨δ, both⟩
  | rule hp _ ih =>
    rename_i n t p α _
    obtain ⟨δ, first⟩ := ih
    rw [erased_cons (isAction_of_isNonterminal (sound.isNonterminal_left hp))]
    exact ⟨δ ++ g.erased α, .head (.rule [] _ hp) (first.append .refl)⟩

theorem Lawful.first_iff (sound : g.Lawful) : g.First γ t ↔ g.Begins γ t := by
  constructor
  · rintro ⟨input, δ, h⟩
    exact (begins_erased sound).1 (begins_of_derives sound input h)
  · exact fun h => ⟨h.isInput, h.derives sound⟩

/-! ## Words -/

theorem Yields.terminals (h : g.Yields α w) : g.Terminals w := by
  induction h with
  | nil => exact fun t mem => absurd mem List.not_mem_nil
  | read input _ ih => exact List.forall_mem_cons.2 ⟨input, ih⟩
  | rule _ _ _ ih ih' => exact List.forall_mem_append.2 ⟨ih, ih'⟩

theorem yields_self (terminal : g.Terminals w) : g.Yields w w := by
  induction w with
  | nil => exact .nil
  | cons t w ih =>
    obtain ⟨input, rest⟩ := List.forall_mem_cons.1 terminal
    exact .read input (ih rest)

theorem Yields.append (h : g.Yields α v) (h' : g.Yields β w) : g.Yields (α ++ β) (v ++ w) := by
  induction h with
  | nil => exact h'
  | read input _ ih => exact .read input ih
  | rule hp first _ _ ih =>
    rw [List.append_assoc]
    exact .rule hp first ih

theorem Yields.split (h : g.Yields (α ++ β) x) :
    ∃ v w, x = v ++ w ∧ g.Yields α v ∧ g.Yields β w := by
  induction α generalizing x with
  | nil => exact ⟨[], x, rfl, .nil, h⟩
  | cons id α ih =>
    rw [List.cons_append] at h
    cases h with
    | read input rest =>
      obtain ⟨v, w, rfl, first, second⟩ := ih rest
      exact ⟨id :: v, w, rfl, .read input first, second⟩
    | rule hp own rest =>
      obtain ⟨v, w, rfl, first, second⟩ := ih rest
      exact ⟨_, w, (List.append_assoc ..).symm, .rule hp own first, second⟩

/-- A terminal yields itself. -/
theorem Yields.of_isInput (h : g.Yields (id :: α) w) (sound : g.Lawful) (input : g.isInput id = true) :
    ∃ v, w = id :: v ∧ g.Yields α v := by
  cases h with
  | read _ rest => exact ⟨_, rfl, rest⟩
  | rule hp _ _ =>
    rw [isInput_of_isNonterminal (sound.isNonterminal_left hp)] at input
    cases input

/-- A nonterminal yields what the right-hand side of one of its productions does. -/
theorem Yields.of_isNonterminal (h : g.Yields [id] w) (nonterminal : g.isNonterminal id = true) :
    ∃ n p, g.byNumber.get? n = some p ∧ p.left = id ∧ g.Yields (g.erased p.right) w := by
  cases h with
  | read input _ =>
    rw [isInput_of_isNonterminal nonterminal] at input
    cases input
  | rule hp own rest =>
    cases rest
    rw [List.append_nil]
    exact ⟨_, _, hp, rfl, own⟩

theorem yields_of_derives (h : g.Derives α w) (terminal : g.Terminals w) : g.Yields α w := by
  induction h using Relation.ReflTransGen.head_induction_on with
  | refl => exact yields_self terminal
  | head step _ ih =>
    obtain ⟨α, β, hp⟩ := step
    obtain ⟨u, x, rfl, before, rest⟩ := ih.split
    obtain ⟨v, y, rfl, own, behind⟩ := rest.split
    exact before.append (.rule hp own behind)

theorem Yields.replace {β : List Int} (h : g.Replaces n id β) (own : g.Yields β v)
    (behind : g.Yields α w) : g.Yields (id :: α) (v ++ w) := by
  obtain ⟨p, hp, rfl, rfl⟩ := h
  exact .rule hp own behind

theorem RewritesLast.replace {β : List Int} (α : List Int) (h : g.Replaces n id β)
    (terminal : g.Terminals w) : g.RewritesLast n (α ++ id :: w) (α ++ (β ++ w)) := by
  obtain ⟨p, hp, rfl, rfl⟩ := h
  exact .rule α w hp terminal

theorem Rightmost.derives (h : g.Rightmost ns α β) : g.Derives α β := by
  induction h with
  | refl α => exact .refl
  | step first _ ih =>
    obtain ⟨α, w, hp, -⟩ := first
    exact .head (.rule α w hp) ih

/-- Every word that is yielded has a rightmost derivation. -/
theorem Yields.rightmost (h : g.Yields α w) : ∃ ns, g.Rightmost ns α w := by
  induction h with
  | nil => exact ⟨[], .refl []⟩
  | read _ _ ih =>
    rename_i t α w _ _
    obtain ⟨ns, rest⟩ := ih
    have nothing : g.Terminals [] := fun x mem => absurd mem List.not_mem_nil
    have := rest.context [t] nothing
    simp only [List.append_nil, List.singleton_append] at this
    exact ⟨ns, this⟩
  | rule hp own rest ih ih' =>
    rename_i n p α v w
    obtain ⟨ns, first⟩ := ih
    obtain ⟨ms, second⟩ := ih'
    have nothing : g.Terminals [] := fun x mem => absurd mem List.not_mem_nil
    have behind := second.context [p.left] nothing
    have before := first.context [] rest.terminals
    simp only [List.append_nil, List.nil_append, List.singleton_append] at behind before
    exact ⟨ms ++ n :: ns, behind.trans (.step (.rule [] w hp rest.terminals) before)⟩

/-! ## Productive grammars -/

/-- A registered symbol other than the end marker is read, is rewritten or stands for an action. -/
theorem Settled.cases_kind {marker start : Int} (settled : g.Settled marker start)
    {s : Symbol} (at_s : g.symbols.at? id = some s) :
    g.isInput id = true ∨ g.isNonterminal id = true ∨ g.isAction id = true := by
  have known := settled.known at_s
  have other : s.kind ≠ .node := by
    rcases settled.kinds at_s with ⟨kind, -⟩ | ⟨declarable, -⟩
    · rw [kind]
      exact nofun
    · exact declarable.2
  rw [isInput_iff, isNonterminal_iff, isAction_iff]
  cases kind : s.kind with
  | unknown => exact absurd kind known
  | node => exact absurd kind other
  | nonterminal => exact .inr (.inl ⟨s, at_s, kind⟩)
  | terminal => exact .inl ⟨s, at_s, isInput_of_terminal kind⟩
  | endMarker => exact .inl ⟨s, at_s, by rw [Symbol.isInput, kind]; rfl⟩
  | innerAction => exact .inr (.inr ⟨s, at_s, by rw [Symbol.isAction, kind]; rfl⟩)
  | trailingAction => exact .inr (.inr ⟨s, at_s, by rw [Symbol.isAction, kind]; rfl⟩)

section Productive

variable {marker start : Int} (settled : g.Settled marker start) (productive : g.Productive)
include settled productive

theorem Productive.exists_yields (registered : ∀ id ∈ γ, ∃ s, g.symbols.at? id = some s) :
    ∃ w, g.Yields (g.erased γ) w := by
  induction γ with
  | nil => exact ⟨[], .nil⟩
  | cons id γ ih =>
    obtain ⟨⟨s, at_s⟩, rest⟩ := List.forall_mem_cons.1 registered
    obtain ⟨w, later⟩ := ih rest
    rcases settled.cases_kind at_s with input | nonterminal | action
    · rw [erased_cons (isAction_of_isInput input)]
      exact ⟨id :: w, .read input later⟩
    · rw [erased_cons (isAction_of_isNonterminal nonterminal)]
      obtain ⟨v, terminal, derives⟩ := productive id nonterminal
      exact ⟨v ++ w, (yields_of_derives derives terminal).append later⟩
    · rw [erased_cons_of_action action]
      exact ⟨w, later⟩

/-- A terminal that begins what a sequence derives begins a word of it. -/
theorem Begins.exists_yields (registered : ∀ id ∈ γ, ∃ s, g.symbols.at? id = some s)
    (h : g.Begins γ t) : ∃ w, g.Yields (g.erased γ) (t :: w) := by
  induction h with
  | read input =>
    obtain ⟨w, rest⟩ := productive.exists_yields settled (List.forall_mem_cons.1 registered).2
    rw [erased_cons (isAction_of_isInput input)]
    exact ⟨w, .read input rest⟩
  | skip vanishes _ ih =>
    rename_i id t α _
    obtain ⟨w, rest⟩ := ih (List.forall_mem_cons.1 registered).2
    have nothing : g.Terminals [] := fun x mem => absurd mem List.not_mem_nil
    have own : g.Yields (g.erased [id]) [] :=
      yields_of_derives (settled.derives_of_vanishes vanishes) nothing
    have both := own.append rest
    rw [← erased_append] at both
    exact ⟨w, both⟩
  | rule hp _ ih =>
    obtain ⟨v, own⟩ := ih fun id mem => (settled.right hp id mem).2
    obtain ⟨w, rest⟩ := productive.exists_yields settled (List.forall_mem_cons.1 registered).2
    rw [erased_cons (isAction_of_isNonterminal (settled.isNonterminal_left hp))]
    exact ⟨v ++ w, .rule hp own rest⟩

end Productive

end ParserGenerator.Grammar
