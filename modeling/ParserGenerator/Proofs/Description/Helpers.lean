import ParserGenerator.Description.Token
import ParserGenerator.Proofs.Description.Standing
import ParserGenerator.Proofs.Grammar.Additions

/-!
# Helpers that lowering makes

The names of helpers are numbered, so a helper that is made has a name that nothing has yet. A part of
lowering leaves the productions of all names alone but those of the helpers it makes and of the name it
works for.
-/

namespace ParserGenerator

open Build
open Grammar (RightSymbol Keeps)

/-! ## Names -/

theorem not_marked_of_head {name : String} (dollar : name.toList.head? ≠ some '$')
    (percent : name.toList.head? ≠ some '%') : ¬ Marked name := by
  rintro (rfl | ⟨n, rfl⟩)
  · exact dollar rfl
  · exact Grammar.actionName_ne percent rfl

/-- What begins as an identifier does is not marked. -/
theorem not_marked_of_ident {name : String} {c : Char} (head : name.toList.head? = some c)
    (begins : Description.isIdentStart c = true) : ¬ Marked name := by
  apply not_marked_of_head <;>
    · rw [head]
      rintro ⟨⟩
      exact absurd begins (by decide)

/-- A number is told by its digits. -/
theorem toDigits_inj {m n : Nat} (eq : Nat.toDigits 10 m = Nat.toDigits 10 n) : m = n := by
  have value := congrArg (Nat.ofDigitChars 10 · 0) eq
  simpa only [Nat.ofDigitChars_toDigits (show 1 < 10 by decide) (show 10 ≤ 10 by decide)] using value

namespace Helper

def front : Helper → List Char
  | .group => ['_', '_', 'g', 'r', 'p']
  | .repetition => ['_', '_', 'r', 'e', 'p']
  | .option => ['_', '_', 'o', 'p', 't']

theorem toList_name (h : Helper) (n : Nat) : (h.name n).toList = h.front ++ Nat.toDigits 10 n := by
  cases h <;> simp [name, front, Lowering.groupName, Lowering.repetitionName, Lowering.optionName, toString]

theorem name_inj {h k : Helper} {m n : Nat} (eq : h.name m = k.name n) : h = k ∧ m = n := by
  have chars : h.front ++ Nat.toDigits 10 m = k.front ++ Nat.toDigits 10 n := by
    rw [← toList_name, ← toList_name, eq]
  have same : h = k := by
    have := congrArg (List.take 5) chars
    cases h <;> cases k <;> simp [front] at this ⊢
  subst same
  exact ⟨rfl, toDigits_inj (List.append_cancel_left chars)⟩

theorem head_name (h : Helper) (n : Nat) : (h.name n).toList.head? = some '_' := by
  rw [toList_name]
  cases h <;> rfl

theorem not_marked (h : Helper) (n : Nat) : ¬ Marked (h.name n) :=
  not_marked_of_ident (h.head_name n) (by decide)

end Helper

/-- A name that begins with a letter is not reserved. -/
theorem not_reserved_of_letter {name : String} (letter : name.toList.head?.any Char.isAlpha = true) :
    ¬ Reserved name := by
  obtain ⟨c, head, alpha⟩ := (Option.any_eq_true _ _).1 letter
  rintro (marked | ⟨h, n, rfl⟩)
  · exact not_marked_of_ident head (by simp [Description.isIdentStart, alpha]) marked
  · rw [h.head_name] at head
    cases head
    cases alpha

namespace Lowering

/-- How many helpers of a sort have been made. -/
def count (l : Lowering) : Helper → Nat
  | .group => l.groups
  | .repetition => l.repetitions
  | .option => l.options

/-- The lowering with one more helper of a sort. -/
def bump (l : Lowering) : Helper → Lowering
  | .group => { l with groups := l.groups + 1 }
  | .repetition => { l with repetitions := l.repetitions + 1 }
  | .option => { l with options := l.options + 1 }

/-- The name of the next helper of a sort. -/
def next (l : Lowering) (h : Helper) : String := h.name (l.count h + 1)

theorem newGroup_eq (l : Lowering) : newGroup l = .ok (l.next .group) (l.bump .group) := rfl
theorem newRepetition_eq (l : Lowering) : newRepetition l = .ok (l.next .repetition) (l.bump .repetition) := rfl
theorem newOption_eq (l : Lowering) : newOption l = .ok (l.next .option) (l.bump .option) := rfl

/-- A new helper is given the empty production and another one. -/
def Helps (l l' : Lowering) (h : Helper) (items : List RightSymbol) : Prop :=
  ∃ l₁, addPlain (l.next h) [] (l.bump h) = .ok () l₁ ∧ addPlain (l.next h) items l₁ = .ok () l'

theorem helps_of_repeated {l l' : Lowering} {base item : RightSymbol} (done : repeated base l = .ok item l') :
    item = .name (l.next .repetition) ∧ l.Helps l' .repetition [base, .name (l.next .repetition)] := by
  rw [repeated, bind_of_ok (newRepetition_eq l)] at done
  obtain ⟨⟨⟩, l₁, first, done⟩ := bind_eq_ok.1 done
  obtain ⟨⟨⟩, l₂, second, done⟩ := bind_eq_ok.1 done
  cases done
  exact ⟨rfl, l₁, first, second⟩

theorem helps_of_option {l l' : Lowering} {base : RightSymbol} {items : List RightSymbol}
    (done : suffixed base .opt l = .ok items l') :
    items = [.name (l.next .option)] ∧ l.Helps l' .option [base] := by
  rw [suffixed, bind_of_ok (newOption_eq l)] at done
  obtain ⟨⟨⟩, l₁, first, done⟩ := bind_eq_ok.1 done
  obtain ⟨⟨⟩, l₂, second, done⟩ := bind_eq_ok.1 done
  cases done
  exact ⟨rfl, l₁, first, second⟩

@[simp] theorem grammar_bump (l : Lowering) (h : Helper) : (l.bump h).grammar = l.grammar := by
  cases h <;> rfl

theorem count_bump (l : Lowering) (h k : Helper) :
    (l.bump h).count k = if k = h then l.count h + 1 else l.count k := by
  cases h <;> cases k <;> rfl

/-- An open grammar in which names of actions are left to actions, and no helper has productions that
has not been made. -/
structure Sound (l : Lowering) : Prop where
  opened : l.grammar.Open
  actions : l.grammar.ActionsNamed
  made : ∀ {h : Helper} {n r}, l.grammar.outline.produces (h.name n) r → n ≤ l.count h

/-- The name is one of a helper that is made from the first to the second state. -/
def New (l l' : Lowering) (s : String) : Prop :=
  ∃ (h : Helper) (n : Nat), s = h.name n ∧ l.count h < n ∧ n ≤ l'.count h

/-- From the first to the second state productions are added, to none but new helpers and the names that
the predicate allows. -/
structure Steps (l l' : Lowering) (allowed : String → Prop) : Prop where
  sound : l'.Sound
  keeps : l.grammar.Keeps l'.grammar
  counts : ∀ h, l.count h ≤ l'.count h
  contains : ∀ {s r}, l.grammar.outline.produces s r → l'.grammar.outline.produces s r
  only : ∀ {s r}, l'.grammar.outline.produces s r → New l l' s ∨ allowed s ∨ l.grammar.outline.produces s r

variable {l l' l'' : Lowering} {allowed allowed' : String → Prop} {s : String}

theorem New.mono_right (new : New l l' s) (counts : ∀ h, l'.count h ≤ l''.count h) : New l l'' s := by
  obtain ⟨h, n, rfl, above, upto⟩ := new
  exact ⟨h, n, rfl, above, upto.trans (counts h)⟩

theorem New.mono_left (new : New l' l'' s) (counts : ∀ h, l.count h ≤ l'.count h) : New l l'' s := by
  obtain ⟨h, n, rfl, above, upto⟩ := new
  exact ⟨h, n, rfl, (counts h).trans_lt above, upto⟩

/-- A helper is made only once. -/
theorem New.not_later (new : New l l' s) : ¬ New l' l'' s := by
  obtain ⟨h, n, rfl, -, upto⟩ := new
  rintro ⟨k, m, eq, above, -⟩
  obtain ⟨rfl, rfl⟩ := Helper.name_inj eq
  exact absurd upto (Nat.not_le.2 above)

theorem New.reserved (new : New l l' s) : Reserved s := by
  obtain ⟨h, n, rfl, -⟩ := new
  exact .inr ⟨h, n, rfl⟩

theorem Sound.fresh (sound : l.Sound) (h : Helper) (r : List String) :
    ¬ l.grammar.outline.produces (l.next h) r :=
  fun produced => Nat.not_succ_le_self _ (sound.made produced)

namespace Steps

theorem refl (sound : l.Sound) : Steps l l fun _ => False where
  sound := sound
  keeps := .refl _
  counts _ := le_rfl
  contains h := h
  only h := .inr (.inr h)

theorem trans (h : Steps l l' allowed) (h' : Steps l' l'' allowed') :
    Steps l l'' fun s => allowed s ∨ allowed' s where
  sound := h'.sound
  keeps := h.keeps.trans h'.keeps
  counts k := (h.counts k).trans (h'.counts k)
  contains produced := h'.contains (h.contains produced)
  only := by
    intro s r produced
    rcases h'.only produced with new | may | before
    · exact .inl (new.mono_left h.counts)
    · exact .inr (.inl (.inr may))
    · rcases h.only before with new | may | before
      · exact .inl (new.mono_right h'.counts)
      · exact .inr (.inl (.inl may))
      · exact .inr (.inr before)

/-- New helpers need not be allowed. -/
theorem narrow (h : Steps l l' allowed) (covered : ∀ s, allowed s → New l l' s ∨ allowed' s) :
    Steps l l' allowed' where
  sound := h.sound
  keeps := h.keeps
  counts := h.counts
  contains := h.contains
  only := by
    intro s r produced
    rcases h.only produced with new | may | before
    · exact .inl new
    · exact (covered s may).imp_right .inl
    · exact .inr (.inr before)

theorem only_old (h : Steps l l' allowed) (old : ¬ New l l' s) (other : ¬ allowed s) {r : List String} :
    l'.grammar.outline.produces s r ↔ l.grammar.outline.produces s r :=
  ⟨fun produced => ((h.only produced).resolve_left old).resolve_left other, h.contains⟩

end Steps

theorem steps_bump (sound : l.Sound) (h : Helper) : Steps l (l.bump h) fun _ => False := by
  have counts : ∀ k, l.count k ≤ (l.bump h).count k := by
    intro k
    rw [count_bump]
    split
    · rename_i same
      rw [same]
      exact Nat.le_succ _
    · exact le_rfl
  refine ⟨⟨?_, ?_, ?_⟩, ?_, counts, ?_, ?_⟩
  · simpa using sound.opened
  · simpa using sound.actions
  · intro k n r produced
    rw [grammar_bump] at produced
    exact (sound.made produced).trans (counts k)
  · simpa using Keeps.refl l.grammar
  · simp
  · intro s r produced
    exact .inr (.inr (by simpa using produced))

theorem new_next (l : Lowering) (h : Helper) : New l (l.bump h) (l.next h) :=
  ⟨h, l.count h + 1, rfl, Nat.lt_succ_self _, by rw [count_bump, if_pos rfl]⟩

/-! ## Calls on the grammar -/

theorem build_eq_ok {α : Type} {b : Build α} {a : α} :
    build b l = .ok a l' ↔ ∃ g, b l.grammar = .ok a g ∧ l' = { l with grammar := g } := by
  rw [build]
  cases b l.grammar with
  | ok a g =>
    constructor
    · intro eq
      cases eq
      exact ⟨g, rfl, rfl⟩
    · rintro ⟨g', eq, rfl⟩
      cases eq
      rfl
  | error e g =>
    constructor
    · exact nofun
    · rintro ⟨g', eq, -⟩
      cases eq

/-- What a grammar gains is a step, if it is gained for helpers that have been made or other names. -/
theorem Sound.steps_of_gains (sound : l.Sound) {g : Grammar} {new : String → List String → Prop}
    (gains : l.grammar.Gains g new) (made : ∀ {h : Helper} {n r}, new (h.name n) r → n ≤ l.count h) :
    Steps l { l with grammar := g } fun s => ∃ r, new s r where
  sound := {
    opened := gains.sound
    actions := gains.actions
    made := fun produced => (gains.produces.1 produced).elim sound.made made }
  keeps := gains.keeps
  counts h := by cases h <;> exact le_rfl
  contains produced := gains.produces.2 (.inl produced)
  only produced := (gains.produces.1 produced).elim (fun h => .inr (.inr h)) fun h => .inr (.inl ⟨_, h⟩)

theorem Sound.steps_of_declares (sound : l.Sound) {g : Grammar} (declares : l.grammar.Declares g) :
    Steps l { l with grammar := g } fun _ => False :=
  (sound.steps_of_gains (declares.gains sound.opened sound.actions) nofun).narrow fun _ ⟨_, h⟩ => h.elim

end Lowering

end ParserGenerator
