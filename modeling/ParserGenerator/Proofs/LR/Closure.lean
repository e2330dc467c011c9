import ParserGenerator.LR.Automaton
import ParserGenerator.Proofs.Collection.Worklist
import ParserGenerator.Proofs.Grammar.Coherent
import ParserGenerator.Proofs.Grammar.Derivation
import Mathlib.Data.Finset.Prod

/-!
# Closed sets of items

The items that a list of items brings in are found within the bound on their number. They are described by
the two rules: a dot before a nonterminal brings in its productions, and a dot before an action symbol
moves on.
-/

namespace ParserGenerator.Grammar

variable {g : Grammar} {marker start : Int}

/-- The item has its dot inside the right-hand side of a production or at its end. -/
def Valid (g : Grammar) (it : Item) : Prop :=
  ∃ p, g.byNumber.get? it.production = some p ∧ it.position ≤ p.right.length

/-- A symbol of a production stands behind the dot. -/
def Expects (g : Grammar) (it : Item) (id : Int) : Prop :=
  ∃ p, g.byNumber.get? it.production = some p ∧ p.right[it.position]? = some id

/-- What items bring in. -/
inductive Closure (g : Grammar) (kernel : Item → Prop) : Item → Prop
  | kernel {it : Item} : kernel it → Closure g kernel it
  | expand {it : Item} {n : Int} {p : Production} : Closure g kernel it → g.Expects it p.left →
      g.byNumber.get? n = some p → Closure g kernel ⟨n, 0⟩
  | skip {it : Item} {id : Int} : Closure g kernel it → g.Expects it id → g.isAction id = true →
      Closure g kernel it.advance

theorem Expects.valid_advance {it : Item} {id : Int} (h : g.Expects it id) : g.Valid it.advance := by
  obtain ⟨p, hp, next⟩ := h
  exact ⟨p, hp, (List.getElem?_eq_some_iff.1 next).1⟩

theorem Expects.inj {it : Item} {a b : Int} (h : g.Expects it a) (h' : g.Expects it b) : a = b := by
  obtain ⟨p, hp, next⟩ := h
  obtain ⟨q, hq, next'⟩ := h'
  rw [hp] at hq
  cases hq
  exact Option.some.inj (next.symm.trans next')

theorem expects_iff {n : Int} {p : Production} (hp : g.byNumber.get? n = some p) {i : Nat} {id : Int} :
    g.Expects ⟨n, i⟩ id ↔ p.right[i]? = some id := by
  constructor
  · rintro ⟨q, hq, next⟩
    cases hp.symm.trans hq
    exact next
  · exact fun next => ⟨p, hp, next⟩

theorem not_expects_complete {n : Int} {p : Production} (hp : g.byNumber.get? n = some p) {id : Int} :
    ¬ g.Expects ⟨n, p.right.length⟩ id := by
  simp [expects_iff hp]

theorem expects_of_right {n : Int} {p : Production} {α γ : List Int} {x : Int}
    (hp : g.byNumber.get? n = some p) (right : p.right = α ++ x :: γ) :
    g.Expects ⟨n, α.length⟩ x := by
  refine ⟨p, hp, ?_⟩
  rw [right, List.getElem?_append_right (Nat.le_refl _), Nat.sub_self]
  rfl

/-- Over one more symbol the dot moves on. -/
theorem advance_of_length {n : Int} {α : List Int} (x : Int) :
    (⟨n, α.length⟩ : Item).advance = ⟨n, (α ++ [x]).length⟩ := by
  rw [List.length_append]
  rfl

theorem Expects.split {it : Item} {id : Int} (h : g.Expects it id) :
    ∃ n p α γ, it = ⟨n, α.length⟩ ∧ g.byNumber.get? n = some p ∧ p.right = α ++ id :: γ := by
  obtain ⟨p, hp, at_id⟩ := h
  obtain ⟨inside, eq⟩ := List.getElem?_eq_some_iff.1 at_id
  refine ⟨it.production, p, p.right.take it.position, p.right.drop (it.position + 1), ?_, hp, ?_⟩
  · rw [List.length_take_of_le (Nat.le_of_lt inside)]
  · rw [← eq, List.getElem_cons_drop, List.take_append_drop]

theorem Coherent.next?_eq (coherent : g.Coherent) {it : Item} (valid : g.Valid it) {id : Int} :
    it.next? g = some id ↔ g.Expects it id := by
  obtain ⟨p, hp, -⟩ := valid
  rw [Item.next?, coherent.rightOf_eq hp]
  constructor
  · exact fun next => ⟨p, hp, next⟩
  · rintro ⟨q, hq, next⟩
    rw [hp] at hq
    cases hq
    exact next

/-- An item brings in productions of the nonterminal behind its dot, or itself one step further. -/
theorem Coherent.consequences_cases (coherent : g.Coherent) {it it' : Item} (valid : g.Valid it)
    (mem : it' ∈ it.consequences g) :
    (∃ n p, g.Expects it p.left ∧ g.isNonterminal p.left = true ∧ g.byNumber.get? n = some p ∧
      it' = ⟨n, 0⟩) ∨
    ∃ id, g.Expects it id ∧ g.isAction id = true ∧ it' = it.advance := by
  rw [Item.consequences] at mem
  cases found : (it.next? g).bind g.symbols.at? with
  | none =>
    rw [found] at mem
    cases mem
  | some s =>
    rw [found] at mem
    obtain ⟨id, next, at_s⟩ := Option.bind_eq_some_iff.1 found
    have expects := (coherent.next?_eq valid).1 next
    dsimp only at mem
    split at mem
    · rename_i kind
      obtain ⟨n, listed, rfl⟩ := List.mem_map.1 mem
      obtain ⟨p, hp, rfl⟩ := coherent.own at_s listed
      exact .inl ⟨n, p, expects, isNonterminal_iff.2 ⟨s, at_s, kind⟩, hp, rfl⟩
    · split at mem
      · rename_i action
        exact .inr ⟨id, expects, (isAction_eq at_s).trans action, List.mem_singleton.1 mem⟩
      · cases mem

theorem Settled.mem_consequences (settled : g.Settled marker start) {it it' : Item}
    (valid : g.Valid it) : it' ∈ it.consequences g ↔
      (∃ n p, g.Expects it p.left ∧ g.byNumber.get? n = some p ∧ it' = ⟨n, 0⟩) ∨
      ∃ id, g.Expects it id ∧ g.isAction id = true ∧ it' = it.advance := by
  have coherent := settled.coherent
  constructor
  · intro mem
    refine (coherent.consequences_cases valid mem).imp_left ?_
    rintro ⟨n, p, expects, -, hp, eq⟩
    exact ⟨n, p, expects, hp, eq⟩
  · rintro (⟨n, p, expects, hp, rfl⟩ | ⟨id, expects, action, rfl⟩)
    · obtain ⟨s, at_s, kind⟩ := settled.left hp
      rw [Item.consequences, (coherent.next?_eq valid).2 expects, Option.bind_some, at_s]
      dsimp only
      rw [if_pos kind]
      exact List.mem_map_of_mem ((settled.mem_productions at_s).2 ⟨p, hp, rfl⟩)
    · obtain ⟨s, at_s, kind⟩ := isAction_iff.1 action
      have other : s.kind ≠ .nonterminal := by
        intro nonterminal
        rw [Symbol.isAction, nonterminal] at kind
        cases kind
      rw [Item.consequences, (coherent.next?_eq valid).2 expects, Option.bind_some, at_s]
      dsimp only
      rw [if_neg other, if_pos kind]
      exact List.mem_singleton_self _

theorem Closure.valid {kernel : Item → Prop} (valid : ∀ it, kernel it → g.Valid it) {it : Item}
    (h : g.Closure kernel it) : g.Valid it := by
  cases h with
  | kernel mem => exact valid _ mem
  | expand _ _ hp => exact ⟨_, hp, Nat.zero_le _⟩
  | skip _ expects _ => exact expects.valid_advance

theorem Closure.mono {kernel kernel' : Item → Prop} (sub : ∀ it, kernel it → kernel' it) {it : Item}
    (h : g.Closure kernel it) : g.Closure kernel' it := by
  induction h with
  | kernel mem => exact .kernel (sub _ mem)
  | expand _ expects hp ih => exact .expand ih expects hp
  | skip _ expects action ih => exact .skip ih expects action

theorem Settled.reachable_iff (settled : g.Settled marker start) {kernel : List Item}
    (valid : ∀ it ∈ kernel, g.Valid it) {it : Item} :
    Reachable (·.consequences g) kernel it ↔ g.Closure (· ∈ kernel) it := by
  constructor
  · intro h
    induction h with
    | seed mem => exact .kernel mem
    | step _ mem ih =>
      rcases (settled.mem_consequences (ih.valid valid)).1 mem with
        ⟨n, p, expects, hp, rfl⟩ | ⟨id, expects, action, rfl⟩
      · exact .expand ih expects hp
      · exact .skip ih expects action
  · intro h
    induction h with
    | kernel mem => exact .seed mem
    | expand before expects hp ih =>
      exact .step ih ((settled.mem_consequences (before.valid valid)).2
        (.inl ⟨_, _, expects, hp, rfl⟩))
    | skip before expects action ih =>
      exact .step ih ((settled.mem_consequences (before.valid valid)).2
        (.inr ⟨_, expects, action, rfl⟩))

/-! ## The number of items -/

theorem le_foldl_max (f : Production → Nat) (ps : List Production) (n : Nat) :
    n ≤ ps.foldl (fun n p => max n (f p)) n ∧ ∀ p ∈ ps, f p ≤ ps.foldl (fun n p => max n (f p)) n := by
  induction ps generalizing n with
  | nil => exact ⟨Nat.le_refl n, nofun⟩
  | cons p ps ih =>
    obtain ⟨start, each⟩ := ih (max n (f p))
    rw [List.foldl_cons]
    refine ⟨Nat.le_trans (Nat.le_max_left ..) start, List.forall_mem_cons.2 ⟨?_, each⟩⟩
    exact Nat.le_trans (Nat.le_max_right ..) start

/-- All items that a state can hold. -/
def itemPool (g : Grammar) : Finset Item :=
  (Finset.range g.productionCount ×ˢ Finset.range (g.longestRight + 1)).image fun x => ⟨x.1, x.2⟩

theorem card_itemPool (g : Grammar) : g.itemPool.card ≤ g.itemBound := by
  calc g.itemPool.card
      ≤ (Finset.range g.productionCount ×ˢ Finset.range (g.longestRight + 1)).card :=
        Finset.card_image_le
    _ = g.productionCount * (g.longestRight + 1) := by
        rw [Finset.card_product, Finset.card_range, Finset.card_range]
    _ ≤ g.itemBound := Nat.mul_le_mul_right _ (Nat.le_succ _)

theorem Coherent.mem_itemPool (coherent : g.Coherent) {it : Item} (valid : g.Valid it) :
    it ∈ g.itemPool := by
  obtain ⟨p, hp, inside⟩ := valid
  obtain ⟨i, hi⟩ := coherent.natural hp
  have listed : g.productions[i]? = some p := by rw [coherent.listed i, ← hi, hp]
  have bound : i < g.productionCount := by
    rw [coherent.counted]
    exact (Array.getElem?_eq_some_iff.1 listed).1
  have length : p.right.length ≤ g.longestRight := by
    apply (le_foldl_max (fun p => p.right.length) _ 0).2
    exact List.mem_append_right _ (OrderedMap.mem_values.2 ⟨_, hp⟩)
  refine Finset.mem_image.2 ⟨(i, it.position), ?_, ?_⟩
  · rw [Finset.mem_product, Finset.mem_range, Finset.mem_range]
    exact ⟨bound, by omega⟩
  · rw [← hi]

theorem Coherent.valid_of_reachable (coherent : g.Coherent) {kernel : List Item}
    (valid : ∀ it ∈ kernel, g.Valid it) {it : Item} (h : Reachable (·.consequences g) kernel it) :
    g.Valid it := by
  induction h with
  | seed mem => exact valid _ mem
  | step _ mem ih =>
    rcases coherent.consequences_cases ih mem with ⟨n, p, -, -, hp, rfl⟩ | ⟨id, expects, -, rfl⟩
    · exact ⟨p, hp, Nat.zero_le _⟩
    · exact expects.valid_advance

/-- All that items lead to is listed, each item once. -/
theorem Coherent.closure_spec (coherent : g.Coherent) {kernel : List Item}
    (valid : ∀ it ∈ kernel, g.Valid it) :
    (g.closure kernel).Nodup ∧
      ∀ it, it ∈ g.closure kernel ↔ Reachable (·.consequences g) kernel it := by
  have within : ∀ it, Reachable (·.consequences g) kernel it → it ∈ g.itemPool := fun _ h =>
    coherent.mem_itemPool (coherent.valid_of_reachable valid h)
  exact ⟨nodup_reach g.itemPool within g.card_itemPool,
    fun _ => mem_reach g.itemPool within g.card_itemPool⟩

/-- A closed set of items is listed in full, each item once. -/
theorem Settled.closure_spec (settled : g.Settled marker start) {kernel : List Item}
    (valid : ∀ it ∈ kernel, g.Valid it) :
    (g.closure kernel).Nodup ∧ ∀ it, it ∈ g.closure kernel ↔ g.Closure (· ∈ kernel) it := by
  obtain ⟨nodup, spec⟩ := settled.coherent.closure_spec valid
  exact ⟨nodup, fun it => (spec it).trans (settled.reachable_iff valid)⟩

end ParserGenerator.Grammar
