import Mathlib.Data.List.Forall2

/-!
# Walks along a list that may fail

A walk that checks, maps or folds the entries of a list succeeds exactly if each of its steps does.
-/

namespace ParserGenerator.Attempt

variable {α β ε σ : Type}

theorem bind_eq_ok {x : Except ε α} {f : α → Except ε β} {b : β} :
    (x >>= f) = .ok b ↔ ∃ a, x = .ok a ∧ f a = .ok b := by
  cases x with
  | error e => exact ⟨nofun, by rintro ⟨a, ⟨⟩, -⟩⟩
  | ok a =>
    constructor
    · exact fun h => ⟨a, rfl, h⟩
    · rintro ⟨a', ⟨⟩, h⟩
      exact h

theorem map_eq_ok {x : Except ε α} {f : α → β} {b : β} : x.map f = .ok b ↔ ∃ a, x = .ok a ∧ f a = b := by
  cases x with
  | error e => exact ⟨nofun, by rintro ⟨a, ⟨⟩, -⟩⟩
  | ok a =>
    constructor
    · rintro ⟨⟩
      exact ⟨a, rfl, rfl⟩
    · rintro ⟨a', ⟨⟩, rfl⟩
      rfl

theorem forM_eq_ok {check : α → Except ε Unit} {as : List α} :
    as.forM check = .ok () ↔ ∀ a ∈ as, check a = .ok () := by
  induction as with
  | nil => exact ⟨fun _ a ha => absurd ha List.not_mem_nil, fun _ => rfl⟩
  | cons b bs ih =>
    have unrolled : (b :: bs).forM check = check b >>= fun _ => bs.forM check := rfl
    rw [unrolled, bind_eq_ok, List.forall_mem_cons, ← ih]
    constructor
    · rintro ⟨⟨⟩, first, rest⟩
      exact ⟨first, rest⟩
    · rintro ⟨first, rest⟩
      exact ⟨(), first, rest⟩

/-- A walk that checks entries fails at the first one that is refused. -/
theorem forM_eq_error {check : α → Except ε Unit} {as : List α} {e : ε} : as.forM check = .error e ↔
    ∃ front a back, as = front ++ a :: back ∧ (∀ b ∈ front, check b = .ok ()) ∧ check a = .error e := by
  induction as with
  | nil => exact ⟨nofun, by rintro ⟨front, a, back, same, -⟩; cases front <;> cases same⟩
  | cons b bs ih =>
    have unrolled : (b :: bs).forM check = check b >>= fun _ => bs.forM check := rfl
    rw [unrolled]
    cases first : check b with
    | error e' =>
      constructor
      · rintro ⟨⟩
        exact ⟨[], b, bs, rfl, nofun, first⟩
      · rintro ⟨front, a, back, same, fine, failed⟩
        cases front with
        | nil =>
          cases same
          exact first.symm.trans failed
        | cons c front =>
          cases same
          cases first.symm.trans (fine b List.mem_cons_self)
    | ok u =>
      refine ih.trans ⟨?_, ?_⟩
      · rintro ⟨front, a, back, rfl, fine, failed⟩
        exact ⟨b :: front, a, back, rfl, List.forall_mem_cons.2 ⟨first, fine⟩, failed⟩
      · rintro ⟨front, a, back, same, fine, failed⟩
        cases front with
        | nil =>
          cases same
          cases first.symm.trans failed
        | cons c front =>
          cases same
          exact ⟨front, a, back, rfl, (List.forall_mem_cons.1 fine).2, failed⟩

theorem mapM_eq_ok {f : α → Except ε β} {as : List α} {bs : List β} :
    as.mapM f = .ok bs ↔ List.Forall₂ (fun a b => f a = .ok b) as bs := by
  induction as generalizing bs with
  | nil =>
    rw [List.mapM_nil, List.forall₂_nil_left_iff]
    constructor
    · rintro ⟨⟩
      rfl
    · rintro rfl
      rfl
  | cons a as ih =>
    rw [List.mapM_cons, bind_eq_ok, List.forall₂_cons_left_iff]
    constructor
    · rintro ⟨b, first, h⟩
      obtain ⟨bs', rest, eq⟩ := bind_eq_ok.1 h
      cases eq
      exact ⟨b, bs', first, ih.1 rest, rfl⟩
    · rintro ⟨b, bs', first, rest, rfl⟩
      exact ⟨b, first, bind_eq_ok.2 ⟨bs', ih.2 rest, rfl⟩⟩

theorem exists_mapM {f : α → Except ε β} {as : List α} (each : ∀ a ∈ as, ∃ b, f a = .ok b) :
    ∃ bs, as.mapM f = .ok bs := by
  induction as with
  | nil => exact ⟨[], rfl⟩
  | cons a as ih =>
    obtain ⟨b, first⟩ := each a List.mem_cons_self
    obtain ⟨bs, rest⟩ := ih fun a' h => each a' (List.mem_cons_of_mem _ h)
    refine ⟨b :: bs, ?_⟩
    rw [List.mapM_cons, first, rest]
    rfl

theorem exists_mapM_option {f : α → Option β} {as : List α} (each : ∀ a ∈ as, ∃ b, f a = some b) :
    ∃ bs, as.mapM f = some bs ∧ ∀ b, b ∈ bs ↔ ∃ a ∈ as, f a = some b := by
  induction as with
  | nil => exact ⟨[], rfl, by simp⟩
  | cons a as ih =>
    obtain ⟨⟨b, first⟩, later⟩ := List.forall_mem_cons.1 each
    obtain ⟨bs, rest, mem⟩ := ih later
    refine ⟨b :: bs, ?_, fun b' => ?_⟩
    · rw [List.mapM_cons, first, rest]
      rfl
    · rw [List.mem_cons, mem, List.exists_mem_cons_iff, first, Option.some_inj, eq_comm]

/-- Related lists have related entries in the same places. -/
theorem related_getElem? {R : α → β → Prop} {as : List α} {bs : List β} (h : List.Forall₂ R as bs)
    {i : Nat} : (∀ a, as[i]? = some a → ∃ b, bs[i]? = some b ∧ R a b) ∧
      ∀ b, bs[i]? = some b → ∃ a, as[i]? = some a ∧ R a b := by
  induction h generalizing i with
  | nil => simp
  | cons first _ ih =>
    cases i with
    | zero => simpa using first
    | succ i => exact ih

/-- The invariant of a fold tells what has been entered, and every step enters something more. How steps
end is told by a relation that passes along a computation. -/
theorem foldlM_entering {m : Type → Type} [Monad m] [LawfulMonad m] {W : m σ → (σ → Prop) → Prop}
    (ends : ∀ {s P}, P s → W (pure s) P)
    (passes : ∀ {x : m σ} {f : σ → m σ} {P Q : σ → Prop}, W x P → (∀ s, P s → W (f s) Q) → W (x >>= f) Q)
    {δ : Type} {f : σ → α → m σ} (I : (δ → Prop) → σ → Prop) (adds : α → δ → Prop) {as : List α}
    {D : δ → Prop} {s : σ} (step : ∀ a ∈ as, ∀ D s, I D s → W (f s a) (I fun d => D d ∨ adds a d))
    (h : I D s) : W (as.foldlM f s) (I fun d => D d ∨ ∃ a ∈ as, adds a d) := by
  induction as generalizing s D with
  | nil =>
    have same : (fun d => D d ∨ ∃ a ∈ [], adds a d) = D := by simp
    rw [same]
    exact ends h
  | cons a as ih =>
    obtain ⟨first, later⟩ := List.forall_mem_cons.1 step
    have same : (fun d => D d ∨ ∃ b ∈ a :: as, adds b d) =
        fun d => (D d ∨ adds a d) ∨ ∃ b ∈ as, adds b d := by
      funext d
      rw [List.exists_mem_cons_iff, or_assoc]
    rw [List.foldlM_cons, same]
    exact passes (first D s h) fun s' h' => ih later h'

theorem exists_foldlM {δ : Type} {f : σ → α → Except ε σ} (I : (δ → Prop) → σ → Prop)
    (adds : α → δ → Prop) {as : List α} {D : δ → Prop} {s : σ}
    (step : ∀ a ∈ as, ∀ D s, I D s → ∃ s', f s a = .ok s' ∧ I (fun d => D d ∨ adds a d) s') (h : I D s) :
    ∃ s', as.foldlM f s = .ok s' ∧ I (fun d => D d ∨ ∃ a ∈ as, adds a d) s' := by
  refine foldlM_entering (W := fun (x : Except ε σ) (P : σ → Prop) => ∃ s, x = .ok s ∧ P s) ?_ ?_ I adds
    step h
  · exact fun h => ⟨_, rfl, h⟩
  · rintro x f P Q ⟨s, rfl, h⟩ rest
    exact rest s h

/-- A fold fails at an entry where what stands before it has been folded. -/
theorem exists_foldlM_error {f : σ → α → Except ε σ} {as : List α} {s : σ} {e : ε}
    (failed : as.foldlM f s = .error e) : ∃ front a back s', as = front ++ a :: back ∧
      front.foldlM f s = .ok s' ∧ f s' a = .error e := by
  induction as generalizing s with
  | nil => cases failed
  | cons a as ih =>
    rw [List.foldlM_cons] at failed
    cases first : f s a with
    | error e' =>
      rw [first] at failed
      cases failed
      exact ⟨[], a, as, s, rfl, rfl, first⟩
    | ok s₁ =>
      rw [first] at failed
      obtain ⟨front, b, back, s', rfl, folded, refused⟩ := ih failed
      refine ⟨a :: front, b, back, s', rfl, ?_, refused⟩
      rw [List.foldlM_cons, first]
      exact folded

theorem foldlM_keeps {f : σ → α → Except ε σ} {P : σ → Prop} {as : List α} {s s' : σ}
    (step : ∀ a ∈ as, ∀ {s s'}, P s → f s a = .ok s' → P s') (h : P s) (folded : as.foldlM f s = .ok s') :
    P s' := by
  induction as generalizing s with
  | nil =>
    cases folded
    exact h
  | cons a as ih =>
    obtain ⟨first, later⟩ := List.forall_mem_cons.1 step
    obtain ⟨s₁, made, rest⟩ := bind_eq_ok.1 (List.foldlM_cons.symm.trans folded)
    exact ih later (first h made) rest

/-! ## Answers and errors -/

variable {x : Except ε α} {f : α → Except ε β} {done : α → Prop} {done' : β → Prop} {allowed : ε → Prop}

/-- The answer has the property, or the error is allowed. -/
def Answers (x : Except ε α) (done : α → Prop) (allowed : ε → Prop) : Prop :=
  match x with
  | .ok a => done a
  | .error e => allowed e

@[simp] theorem answers_ok {a : α} : Answers (.ok a : Except ε α) done allowed ↔ done a := Iff.rfl

@[simp] theorem answers_pure {a : α} : Answers (pure a : Except ε α) done allowed ↔ done a := Iff.rfl

@[simp] theorem answers_error {e : ε} : Answers (.error e : Except ε α) done allowed ↔ allowed e := Iff.rfl

@[simp] theorem answers_throw {e : ε} : Answers (throw e : Except ε α) done allowed ↔ allowed e := Iff.rfl

theorem Answers.of_error {e : ε} (answers : Answers x done allowed) (failed : x = .error e) : allowed e := by
  rwa [failed] at answers

theorem exists_of_any {test : α → Bool} (h : x.toOption.any test = true) : ∃ a, x = .ok a ∧ test a = true := by
  cases x with
  | error e => cases h
  | ok a => exact ⟨a, rfl, h⟩

theorem answers_bind (first : Answers x done allowed) (second : ∀ a, done a → Answers (f a) done' allowed) :
    Answers (x >>= f) done' allowed := by
  cases x with
  | ok a => exact second a first
  | error e => exact first

theorem answers_mapM (each : ∀ a, Answers (f a) (fun _ => True) allowed) (as : List α) :
    Answers (as.mapM f) (fun _ => True) allowed := by
  induction as with
  | nil => exact trivial
  | cons a as ih =>
    rw [List.mapM_cons]
    exact answers_bind (each a) fun _ _ => answers_bind ih fun _ _ => trivial

theorem answers_forM {f : α → Except ε Unit} {as : List α}
    (each : ∀ a ∈ as, Answers (f a) (fun _ => True) allowed) :
    Answers (as.forM f) (fun _ => True) allowed := by
  induction as with
  | nil => exact trivial
  | cons a as ih =>
    obtain ⟨first, later⟩ := List.forall_mem_cons.1 each
    exact answers_bind first fun _ _ => ih later

/-! ## Two walks side by side -/

/-- Both give answers that are related, or both fail with the same error. -/
inductive Parallel (R : α → β → Prop) : Except ε α → Except ε β → Prop
  | ok {a : α} {b : β} : R a b → Parallel R (.ok a) (.ok b)
  | error (e : ε) : Parallel R (.error e) (.error e)

theorem parallel_self (x : Except ε α) : Parallel Eq x x := by
  cases x with
  | ok a => exact .ok rfl
  | error e => exact .error e

theorem Parallel.bind {γ δ : Type} {R : α → β → Prop} {S : γ → δ → Prop} {x : Except ε α} {y : Except ε β}
    {f : α → Except ε γ} {f' : β → Except ε δ} (first : Parallel R x y)
    (second : ∀ a b, R a b → Parallel S (f a) (f' b)) : Parallel S (x >>= f) (y >>= f') := by
  cases first with
  | ok related => exact second _ _ related
  | error e => exact .error e

end ParserGenerator.Attempt
