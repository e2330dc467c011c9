import ParserGenerator.Collection.Worklist
import Mathlib.Data.Finset.Card

/-!
# What repeated work comes to

A repetition whose changes all lower the measure ends behind a pass that changed nothing. A sweep whose
array never outgrows the bound visits every entry. So `reach` lists exactly what the seeds lead to,
provided that this is no more than the bound.
-/

namespace ParserGenerator

section Iterate

variable {σ : Type} {measure : σ → Nat} {pass : σ → σ × Bool} {I : σ → Prop}

/-- What holds from a last pass on, and is handed on to the state before a pass that changed something,
holds from the beginning of a repetition. -/
theorem iterate_induct {s : σ} {P : σ → σ → Prop} (kept : ∀ s, I s → I (pass s).1)
    (falls : ∀ s, I s → (pass s).2 = true → measure (pass s).1 < measure s)
    (last : ∀ s, I s → (pass s).2 = false → P s (pass s).1)
    (next : ∀ s r, I s → (pass s).2 = true → P (pass s).1 r → P s r) (h : I s) :
    P s (iterate measure pass s) := by
  fun_induction iterate measure pass s with
  | case1 s _ changed ih => exact next s _ h changed.1 (ih (kept s h))
  | case2 s _ settled =>
    refine last s h ?_
    by_contra changed
    have changed : (pass s).2 = true := by simpa using changed
    exact settled ⟨changed, falls s h changed⟩

theorem iterate_settles (kept : ∀ s, I s → I (pass s).1)
    (falls : ∀ s, I s → (pass s).2 = true → measure (pass s).1 < measure s) {s : σ} (h : I s) :
    ∃ last, I last ∧ (pass last).2 = false ∧ iterate measure pass s = (pass last).1 :=
  iterate_induct (P := fun _ r => ∃ last, I last ∧ (pass last).2 = false ∧ r = (pass last).1) kept falls
    (fun s h still => ⟨s, h, still, rfl⟩) (fun _ _ _ _ later => later) h

/-- A repetition ends behind a pass. -/
theorem exists_iterate_eq {s : σ} (kept : ∀ s, I s → I (pass s).1) (h : I s) :
    ∃ last, I last ∧ iterate measure pass s = (pass last).1 := by
  fun_induction iterate measure pass s with
  | case1 s next changed ih => exact ih (kept s h)
  | case2 s next settled => exact ⟨s, h, rfl⟩

theorem iterate_keeps {s : σ} (kept : ∀ s, I s → I (pass s).1) (h : I s) : I (iterate measure pass s) := by
  obtain ⟨last, h', eq⟩ := exists_iterate_eq kept h
  exact eq ▸ kept last h'

theorem iterate_eq_of_still {s : σ} (still : (pass s).2 = false) : iterate measure pass s = (pass s).1 := by
  rw [iterate]
  exact if_neg fun changed => Bool.false_ne_true (still.symm.trans changed.1)

end Iterate

section Fold

variable {σ α : Type} {step : σ → α → σ} {as : List α} {s : σ}

theorem foldl_eq_self (each : ∀ a ∈ as, step s a = s) : as.foldl step s = s := by
  induction as with
  | nil => rfl
  | cons a as ih =>
    obtain ⟨first, rest⟩ := List.forall_mem_cons.1 each
    rw [List.foldl_cons, first, ih rest]

/-- What a walk makes of an entry, and later entries leave alone, holds of all entries behind the walk. -/
theorem foldl_makes {P : α → σ → Prop} (kept : ∀ a b s, P a s → P a (step s b)) (made : ∀ a s, P a (step s a)) :
    ∀ a ∈ as, P a (as.foldl step s) := by
  induction as generalizing s with
  | nil => exact fun a mem => absurd mem List.not_mem_nil
  | cons a as ih =>
    refine List.forall_mem_cons.2 ⟨?_, ih⟩
    exact List.foldlRecOn as step (made a s) fun s h b _ => kept a b s h

end Fold

section Sweep

variable {α : Type} {bound : Nat}

theorem sweep_visits_all (visit : Nat → α → Array α → Array α) {I : Nat → Array α → Prop}
    (kept : ∀ i xs (h : i < xs.size), I i xs → I (i + 1) (visit i xs[i] xs))
    (bounded : ∀ i xs, I i xs → xs.size ≤ bound) {i : Nat} {xs : Array α} (h : I i xs) :
    ∃ j, I j (sweep bound visit xs i) ∧ (sweep bound visit xs i).size ≤ j := by
  fun_induction sweep bound visit xs i with
  | case1 xs i inside ih => exact ih (kept i xs inside.1 h)
  | case2 xs i outside =>
    have := bounded i xs h
    exact ⟨i, h, by omega⟩

/-- Sweeps whose visits keep arrays of one size in a relation end in that relation. -/
theorem sweep_related {β : Type} {visit : Nat → α → Array α → Array α}
    {visit' : Nat → β → Array β → Array β} {R : Array α → Array β → Prop}
    (sizes : ∀ {xs ys}, R xs ys → ys.size = xs.size)
    (visits : ∀ i xs ys (inside : i < xs.size) (inside' : i < ys.size), R xs ys →
      R (visit i xs[i] xs) (visit' i ys[i] ys))
    {i : Nat} {xs : Array α} {ys : Array β} (related : R xs ys) :
    R (sweep bound visit xs i) (sweep bound visit' ys i) := by
  induction xs, i using sweep.induct bound visit generalizing ys with
  | case1 xs i inside ih =>
    have inside' : i < ys.size ∧ i < bound := ⟨by rw [sizes related]; exact inside.1, inside.2⟩
    unfold sweep
    rw [dif_pos inside, dif_pos inside']
    exact ih (visits i xs ys inside.1 inside'.1 related)
  | case2 xs i outside =>
    unfold sweep
    rw [dif_neg outside, dif_neg (by rw [sizes related]; exact outside)]
    exact related

end Sweep

variable {α : Type}

/-- What the seeds lead to. -/
inductive Reachable (next : α → List α) (seeds : List α) : α → Prop
  | seed {x : α} : x ∈ seeds → Reachable next seeds x
  | step {x y : α} : Reachable next seeds x → y ∈ next x → Reachable next seeds y

section Reach

variable [DecidableEq α]

theorem mem_pushNew {xs : Array α} {new : List α} {x : α} :
    x ∈ pushNew xs new ↔ x ∈ xs ∨ x ∈ new := by
  rw [pushNew]
  induction new generalizing xs with
  | nil => simp
  | cons y ys ih =>
    rw [List.foldl_cons, ih, List.mem_cons]
    by_cases h : y ∈ xs
    · rw [if_pos (Array.contains_iff_mem.2 h)]
      constructor
      · exact fun o => o.elim .inl fun hx => .inr (.inr hx)
      · rintro (hx | rfl | hx)
        exacts [.inl hx, .inl h, .inr hx]
    · rw [if_neg fun present => h (Array.contains_iff_mem.1 present), Array.mem_push, or_assoc]

theorem nodup_pushNew {xs : Array α} (distinct : xs.toList.Nodup) (new : List α) :
    (pushNew xs new).toList.Nodup := by
  rw [pushNew]
  induction new generalizing xs with
  | nil => exact distinct
  | cons y ys ih =>
    rw [List.foldl_cons]
    apply ih
    by_cases h : y ∈ xs
    · rwa [if_pos (Array.contains_iff_mem.2 h)]
    · rw [if_neg fun present => h (Array.contains_iff_mem.1 present), Array.toList_push]
      have : y ∉ xs.toList := fun mem => h (Array.mem_toList_iff.1 mem)
      exact List.nodup_append.2 ⟨distinct, by simp, fun a ha b hb eq => by
        rw [List.mem_singleton.1 hb] at eq
        exact this (eq ▸ ha)⟩

theorem getElem?_pushNew {xs : Array α} {i : Nat} (h : i < xs.size) (new : List α) :
    (pushNew xs new)[i]? = xs[i]? := by
  rw [pushNew]
  induction new generalizing xs with
  | nil => rfl
  | cons y ys ih =>
    rw [List.foldl_cons]
    split
    · exact ih h
    · rw [ih (by rw [Array.size_push]; omega), Array.getElem?_push, if_neg (by omega)]

/-- The entries before the given index have brought in what they lead to. -/
structure Swept (next : α → List α) (seeds : List α) (i : Nat) (xs : Array α) : Prop where
  distinct : xs.toList.Nodup
  reached : ∀ x ∈ xs, Reachable next seeds x
  seeded : ∀ x ∈ seeds, x ∈ xs
  inside : i ≤ xs.size
  followed : ∀ j < i, ∀ x, xs[j]? = some x → ∀ y ∈ next x, y ∈ xs

variable {next : α → List α} {seeds : List α}

theorem Swept.first : Swept next seeds 0 (pushNew #[] seeds) where
  distinct := nodup_pushNew List.nodup_nil seeds
  reached := by
    intro x hx
    exact .seed ((mem_pushNew.1 hx).resolve_left (Array.not_mem_empty x))
  seeded := fun x hx => mem_pushNew.2 (.inr hx)
  inside := Nat.zero_le _
  followed := fun j hj => absurd hj (Nat.not_lt_zero j)

theorem Swept.visit {i : Nat} {xs : Array α} (swept : Swept next seeds i xs) (h : i < xs.size) :
    Swept next seeds (i + 1) (pushNew xs (next xs[i])) where
  distinct := nodup_pushNew swept.distinct _
  reached := by
    intro y hy
    rcases mem_pushNew.1 hy with old | new
    · exact swept.reached y old
    · exact .step (swept.reached _ (Array.getElem_mem h)) new
  seeded := fun x hx => mem_pushNew.2 (.inl (swept.seeded x hx))
  inside := by
    have present : (pushNew xs (next xs[i]))[i]? = some xs[i] := by
      rw [getElem?_pushNew h, Array.getElem?_eq_getElem h]
    exact (Array.getElem?_eq_some_iff.1 present).1
  followed := by
    intro j hj x hx y hy
    rcases Nat.lt_succ_iff_lt_or_eq.1 hj with before | rfl
    · rw [getElem?_pushNew (by omega)] at hx
      exact mem_pushNew.2 (.inl (swept.followed j before x hx y hy))
    · rw [getElem?_pushNew h, Array.getElem?_eq_getElem h] at hx
      cases hx
      exact mem_pushNew.2 (.inr hy)

theorem Swept.size_le {i bound : Nat} {xs : Array α} (swept : Swept next seeds i xs)
    (pool : Finset α) (within : ∀ x, Reachable next seeds x → x ∈ pool)
    (card : pool.card ≤ bound) : xs.size ≤ bound := by
  have subset : xs.toList.toFinset ⊆ pool := fun x hx =>
    within x (swept.reached x (Array.mem_toList_iff.1 (List.mem_toFinset.1 hx)))
  calc xs.size = xs.toList.toFinset.card := by
        rw [List.toFinset_card_of_nodup swept.distinct, Array.length_toList]
    _ ≤ pool.card := Finset.card_le_card subset
    _ ≤ bound := card

/-- All the entries that the seeds lead to are found if they are no more than the bound. -/
theorem swept_reach {bound : Nat} (pool : Finset α)
    (within : ∀ x, Reachable next seeds x → x ∈ pool) (card : pool.card ≤ bound) :
    ∃ xs : Array α, Swept next seeds xs.size xs ∧ reach bound next seeds = xs.toList := by
  obtain ⟨j, swept, all⟩ := sweep_visits_all (fun _ x xs => pushNew xs (next x))
    (fun _ _ h swept => Swept.visit swept h)
    (fun _ _ swept => swept.size_le pool within card) Swept.first
  have := swept.inside
  exact ⟨_, (Nat.le_antisymm this all) ▸ swept, rfl⟩

theorem mem_reach {bound : Nat} (pool : Finset α)
    (within : ∀ x, Reachable next seeds x → x ∈ pool) (card : pool.card ≤ bound) {x : α} :
    x ∈ reach bound next seeds ↔ Reachable next seeds x := by
  obtain ⟨xs, swept, eq⟩ := swept_reach pool within card
  rw [eq, Array.mem_toList_iff]
  constructor
  · exact swept.reached x
  · intro reachable
    induction reachable with
    | seed h => exact swept.seeded _ h
    | step _ hy ih =>
      obtain ⟨j, hj, at_j⟩ := Array.getElem_of_mem ih
      exact swept.followed j hj _ (by rw [Array.getElem?_eq_getElem hj, at_j]) _ hy

theorem nodup_reach {bound : Nat} (pool : Finset α)
    (within : ∀ x, Reachable next seeds x → x ∈ pool) (card : pool.card ≤ bound) :
    (reach bound next seeds).Nodup := by
  obtain ⟨xs, swept, eq⟩ := swept_reach pool within card
  rw [eq]
  exact swept.distinct

end Reach

end ParserGenerator
