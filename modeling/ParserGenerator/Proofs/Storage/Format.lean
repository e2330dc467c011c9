import ParserGenerator.Proofs.Grammar.Build
import ParserGenerator.Storage.Stream

/-!
# What is written is read back

A reader takes the items that were written, gives the value back and leaves the items behind them as they
are. A reader that also restores the grammar is described by the grammars before and after it.
-/

namespace ParserGenerator.Storage

open Json (Value)
open Format

variable {α β : Type} {x : Reader α} {f : α → Reader β} {xs ys : List Value} {a : α} {b : β}
  {g g' g'' : Grammar}

/-- From the first grammar the reader takes just these items and gives the value, with the second
grammar. -/
def Takes (x : Reader α) (xs : List Value) (g : Grammar) (a : α) (g' : Grammar) : Prop :=
  ∀ position rest, x ⟨position, xs ++ rest, g⟩ = .ok a ⟨position + xs.length, rest, g'⟩

theorem takes_pure (a : α) (g : Grammar) : Takes (pure a) [] g a g := fun _ _ => rfl

theorem takes_bind (first : Takes x xs g a g') (second : Takes (f a) ys g' b g'') :
    Takes (x >>= f) (xs ++ ys) g b g'' := by
  intro position rest
  have opened : x ⟨position, (xs ++ ys) ++ rest, g⟩ = .ok a ⟨position + xs.length, ys ++ rest, g'⟩ := by
    rw [List.append_assoc]
    exact first position (ys ++ rest)
  simp only [bind, EStateM.bind, opened]
  rw [second, List.length_append, Nat.add_assoc]

theorem takes_map {k : α → β} (h : Takes x xs g a g') :
    Takes (x >>= fun a => pure (k a)) xs g (k a) g' := by
  have taken := takes_bind (f := fun a => pure (k a)) h (takes_pure (k a) g')
  rwa [List.append_nil] at taken

theorem takes_item {wanted : Json.Kind} {accept? : Value → Option α} {v : Value}
    (accepted : accept? v = some a) (g : Grammar) : Takes (Reader.item wanted accept?) [v] g a g := by
  intro position rest
  simp only [Reader.item, List.cons_append, List.nil_append, accepted]
  rfl

namespace Format

/-- The value is read back from what is written for it, and the grammar stays as it is. -/
def Restores (f : Format α) (a : α) : Prop := ∀ g, Takes f.read (f.write a) g a g

theorem restores_text (s : String) : text.Restores s := takes_item rfl

theorem restores_integer (n : Int) : integer.Restores n := takes_item rfl

theorem restores_optionalText : ∀ s : Option String, optionalText.Restores s
  | some _ => takes_item rfl
  | none => takes_item rfl

theorem restores_count (n : Nat) : count.Restores n := by
  intro g
  have natural : ¬ (n : Int) < 0 := by omega
  rw [count, ← List.append_nil (integer.write n)]
  apply takes_bind (restores_integer n g)
  rw [if_neg natural]
  exact takes_pure n g

/-- Values that are read one after the other. -/
theorem takes_times {f : Format α} :
    ∀ {as : List α}, (∀ a ∈ as, f.Restores a) →
      ∀ g, Takes (Reader.times as.length f.read) (as.flatMap f.write) g as g
  | [], _, g => takes_pure [] g
  | a :: as, each, g => by
    obtain ⟨first, later⟩ := List.forall_mem_cons.1 each
    rw [List.flatMap_cons]
    exact takes_bind (first g) (takes_map (takes_times later g))

theorem restores_many {f : Format α} {as : List α} (each : ∀ a ∈ as, f.Restores a) :
    (many f).Restores as :=
  fun g => takes_bind (restores_count as.length g) (takes_times each g)

end Format

/-! ## Values that go into the grammar -/

/-- A step on the grammar takes no items. -/
theorem takes_onGrammar {step : Build α} (h : step g = .ok a g') :
    Takes (Reader.onGrammar step) [] g a g' := by
  intro position rest
  simp only [Reader.onGrammar, List.nil_append, h]
  rfl

/-- Each value goes into the grammar as it is read. -/
theorem takes_times_onGrammar {f : Format α} {restore : α → Build Unit} :
    ∀ {as : List α} {g : Grammar}, (∀ a ∈ as, f.Restores a) → as.forM restore g = .ok () g' →
      ∃ us, Takes (Reader.times as.length (do Reader.onGrammar (restore (← f.read))))
        (as.flatMap f.write) g us g'
  | [], g, _, h => by
    cases h
    exact ⟨[], takes_pure [] _⟩
  | a :: as, g, each, h => by
    obtain ⟨first, later⟩ := List.forall_mem_cons.1 each
    obtain ⟨⟨⟩, g₁, step, rest⟩ := Build.bind_eq_ok.1 h
    obtain ⟨us, taken⟩ := takes_times_onGrammar later rest
    have entered : Takes (do Reader.onGrammar (restore (← f.read))) (f.write a ++ []) g () g₁ :=
      takes_bind (first g) (takes_onGrammar step)
    rw [List.append_nil] at entered
    refine ⟨() :: us, ?_⟩
    rw [List.flatMap_cons]
    exact takes_bind entered (takes_map taken)

theorem takes_restoreMany {f : Format α} {restore : α → Build Unit} {as : List α}
    (each : ∀ a ∈ as, f.Restores a) (h : as.forM restore g = .ok () g') :
    Takes (restoreMany f restore) ((many f).write as) g () g' := by
  obtain ⟨us, taken⟩ := takes_times_onGrammar each h
  exact takes_bind (Format.restores_count as.length g) (takes_map taken)

/-! ## Up to the end -/

/-- From the first grammar the reader takes all that is left and gives the value, with the second
grammar. -/
def Finishes (x : Reader α) (xs : List Value) (g : Grammar) (a : α) (g' : Grammar) : Prop :=
  ∀ position, ∃ r, x ⟨position, xs, g⟩ = .ok a r ∧ r.grammar = g'

theorem finishes_bind (first : Takes x xs g a g') (second : Finishes (f a) ys g' b g'') :
    Finishes (x >>= f) (xs ++ ys) g b g'' := by
  intro position
  obtain ⟨r, ended, last⟩ := second (position + xs.length)
  refine ⟨r, ?_, last⟩
  simp only [bind, EStateM.bind, first position ys]
  exact ended

theorem finishes_atEnd {step : Build α} (h : step g = .ok a g') :
    Finishes (do Reader.atEnd; Reader.onGrammar step) [] g a g' := by
  intro position
  refine ⟨⟨position, [], g'⟩, ?_, rfl⟩
  show Reader.onGrammar step ⟨position, [], g⟩ = _
  simp only [Reader.onGrammar, h]

end ParserGenerator.Storage
