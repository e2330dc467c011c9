import ParserGenerator.Grammar.Basic

/-!
# How calls on a grammar end

A call either gives a value and a grammar, or fails and leaves a grammar behind. `Ends` states what holds
in both cases; each way of putting calls together has one rule.
-/

namespace ParserGenerator.Build

open Grammar (query)

section

variable {α β σ : Type} {s s' : σ} {x : EStateM Error σ α} {f : α → EStateM Error σ β} {a : α} {b : β}
  {e : Error}

theorem bind_of_ok (h : x s = .ok a s') : (x >>= f) s = f a s' := by
  simp only [bind, EStateM.bind, h]

theorem bind_of_error (h : x s = .error e s') : (x >>= f) s = .error e s' := by
  simp only [bind, EStateM.bind, h]

theorem bind_eq_ok : (x >>= f) s = .ok b s' ↔ ∃ a s₁, x s = .ok a s₁ ∧ f a s₁ = .ok b s' := by
  cases ended : x s with
  | ok a s₁ =>
    rw [bind_of_ok ended]
    constructor
    · exact fun h => ⟨a, s₁, rfl, h⟩
    · rintro ⟨a', s₁', eq, h⟩
      cases eq
      exact h
  | error e s₁ =>
    rw [bind_of_error ended]
    constructor
    · exact nofun
    · rintro ⟨a', s₁', eq, -⟩
      cases eq

/-! ## How a computation ends -/

variable {done : α → σ → Prop} {done' : β → σ → Prop} {allowed : Error → Prop}

/-- From a state the computation gives a value and a state with the relation, or fails with an error that is
allowed. -/
def Runs (x : EStateM Error σ α) (s : σ) (done : α → σ → Prop) (allowed : Error → Prop) : Prop :=
  match x s with
  | .ok a s' => done a s'
  | .error e _ => allowed e

theorem Runs.of_ok (h : Runs x s done allowed) (ended : x s = .ok a s') : done a s' := by
  rwa [Runs, ended] at h

theorem Runs.of_error (h : Runs x s done allowed) (ended : x s = .error e s') : allowed e := by
  rwa [Runs, ended] at h

theorem Runs.mono {done₂ : α → σ → Prop} {allowed₂ : Error → Prop} (h : Runs x s done allowed)
    (onDone : ∀ a s', done a s' → done₂ a s') (onError : ∀ e, allowed e → allowed₂ e) :
    Runs x s done₂ allowed₂ := by
  rw [Runs] at h ⊢
  split at h
  · exact onDone _ _ h
  · exact onError _ h

theorem runs_of_ok (h : ∀ a s', x s = .ok a s' → done a s') : Runs x s done fun _ => True := by
  rw [Runs]
  cases ended : x s with
  | ok a s' => exact h a s' ended
  | error e s' => exact trivial

theorem runs_pure (h : done a s) : Runs (pure a) s done allowed := h

theorem runs_throw (h : allowed e) : Runs (throw e : EStateM Error σ α) s done allowed := h

theorem runs_bind (first : Runs x s done allowed)
    (second : ∀ a s', x s = .ok a s' → done a s' → Runs (f a) s' done' allowed) :
    Runs (x >>= f) s done' allowed := by
  rw [Runs]
  cases ended : x s with
  | ok a s₁ =>
    rw [bind_of_ok ended]
    exact second a s₁ ended (first.of_ok ended)
  | error e s₁ =>
    rw [bind_of_error ended]
    exact first.of_error ended

end

variable {α β : Type} {g g' : Grammar} {x : Build α} {f : α → Build β} {a : α} {b : β} {e : Error}

theorem query_of_ok {look : Grammar → Except Error α} (h : look g = .ok a) :
    query look g = .ok a g := by
  rw [query, h]

theorem query_of_error {look : Grammar → Except Error α} (h : look g = .error e) :
    query look g = .error e g := by
  rw [query, h]

theorem query_eq_ok {look : Grammar → Except Error α} : query look g = .ok a g' ↔ look g = .ok a ∧ g' = g := by
  rw [query]
  cases look g with
  | ok b =>
    constructor
    · intro eq
      cases eq
      exact ⟨rfl, rfl⟩
    · rintro ⟨eq, rfl⟩
      cases eq
      rfl
  | error e => exact ⟨nofun, nofun⟩

theorem query_bind_eq_ok {look : Grammar → Except Error α} :
    (query look >>= f) g = .ok b g' ↔ ∃ a, look g = .ok a ∧ f a g = .ok b g' := by
  rw [bind_eq_ok]
  constructor
  · rintro ⟨a, g₁, queried, rest⟩
    obtain ⟨answer, eq⟩ := query_eq_ok.1 queried
    exact ⟨a, answer, eq ▸ rest⟩
  · rintro ⟨a, answer, rest⟩
    exact ⟨a, g, query_of_ok answer, rest⟩

/-- A call behind a check ends well if the check passes and the call ends well. -/
theorem guarded_eq_ok {check : Grammar → Bool} : (do
    if check (← get) then throw e
    x : Build α) g = .ok a g' ↔ check g = false ∧ x g = .ok a g' := by
  show (if check g = true then (throw e : Build PUnit) >>= fun _ => x else x) g = .ok a g' ↔ _
  cases check g with
  | true => exact ⟨nofun, nofun⟩
  | false => exact ⟨fun ended => ⟨rfl, ended⟩, fun ended => ended.2⟩

/-! ## Both ends of a call -/

variable {done : α → Grammar → Prop} {done' : β → Grammar → Prop} {failed : Grammar → Prop}

/-- A call from a grammar ends well with the first relation, or fails with the second property. -/
def Ends (x : Build α) (g : Grammar) (done : α → Grammar → Prop) (failed : Grammar → Prop) : Prop :=
  match x g with
  | .ok a g' => done a g'
  | .error _ g' => failed g'

instance [∀ a g, Decidable (done a g)] [∀ g, Decidable (failed g)] :
    Decidable (Ends x g done failed) :=
  match ended : x g with
  | .ok a g' => decidable_of_iff (done a g') (by rw [Ends, ended])
  | .error _ g' => decidable_of_iff (failed g') (by rw [Ends, ended])

/-- The grammar that a call leaves behind, whether it fails or not. -/
def leaves (x : Build α) (g : Grammar) : Grammar :=
  match x g with
  | .ok _ g' => g'
  | .error _ g' => g'

theorem Ends.of_ok (h : Ends x g done failed) (ended : x g = .ok a g') : done a g' := by
  rwa [Ends, ended] at h

theorem Ends.of_leaves {left : Grammar → Prop} (h : Ends x g (fun _ => left) left) :
    left (leaves x g) := by
  rw [leaves]
  rw [Ends] at h
  split at h <;> exact h

/-- A call that cannot fail ends well. -/
theorem Ends.exists_ok (h : Ends x g done fun _ => False) :
    ∃ a g', x g = .ok a g' ∧ done a g' := by
  rw [Ends] at h
  split at h
  · rename_i a g' ended
    exact ⟨a, g', ended, h⟩
  · exact h.elim

theorem Ends.ok_leaves (h : Ends x g done fun _ => False) : ∃ a, x g = .ok a (leaves x g) := by
  obtain ⟨a, g', ended, -⟩ := h.exists_ok
  exact ⟨a, by rw [leaves, ended]⟩

theorem Ends.mono {done₂ : α → Grammar → Prop} {failed₂ : Grammar → Prop}
    (h : Ends x g done failed) (onDone : ∀ a g', done a g' → done₂ a g')
    (onFailed : ∀ g', failed g' → failed₂ g') : Ends x g done₂ failed₂ := by
  rw [Ends] at h ⊢
  split at h
  · exact onDone _ _ h
  · exact onFailed _ h

theorem ends_bind (first : Ends x g done failed)
    (second : ∀ a g', done a g' → Ends (f a) g' done' failed) :
    Ends (x >>= f) g done' failed := by
  rw [Ends] at first ⊢
  cases ended : x g with
  | ok a g₁ =>
    rw [ended] at first
    rw [bind_of_ok ended]
    exact second a g₁ first
  | error e g₁ =>
    rw [ended] at first
    rw [bind_of_error ended]
    exact first

theorem ends_bind_of_ok (h : x g = .ok a g') (rest : Ends (f a) g' done' failed) :
    Ends (x >>= f) g done' failed := by
  rwa [Ends, bind_of_ok h]

theorem ends_pure (h : done a g) : Ends (pure a) g done failed := h

theorem ends_throw (h : failed g) : Ends (throw e : Build α) g done failed := h

theorem ends_throw_bind (h : failed g) : Ends ((throw e : Build α) >>= f) g done' failed := h

theorem ends_get_bind {f : Grammar → Build β} (h : Ends (f g) g done' failed) :
    Ends (get >>= f) g done' failed := h

theorem ends_query {look : Grammar → Except Error α} :
    Ends (query look) g (fun a g' => look g = .ok a ∧ g' = g) (fun g' => g' = g) := by
  rw [Ends, query]
  cases look g with
  | ok a => exact ⟨rfl, rfl⟩
  | error e => rfl

theorem ends_modify {change : Grammar → Grammar} {done : Unit → Grammar → Prop}
    (h : done () (change g)) : Ends (modify change) g done failed := h

theorem ends_modify_bind {change : Grammar → Grammar} {f : Unit → Build β}
    (h : Ends (f ()) (change g) done' failed) : Ends (modify change >>= f) g done' failed := h

/-- A property of the grammar that every call of a list keeps. -/
theorem ends_forM {as : List α} {f : α → Build Unit} {kept : Grammar → Prop}
    (step : ∀ a ∈ as, ∀ g, kept g → Ends (f a) g (fun _ => kept) failed) (h : kept g) :
    Ends (as.forM f) g (fun _ => kept) failed := by
  induction as generalizing g with
  | nil => exact h
  | cons a as ih =>
    apply ends_bind (step a List.mem_cons_self g h)
    intro _ g' h'
    exact ih (fun b hb => step b (List.mem_cons_of_mem _ hb)) h'

end ParserGenerator.Build
