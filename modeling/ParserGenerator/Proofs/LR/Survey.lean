import ParserGenerator.LR.Lookahead
import ParserGenerator.Proofs.Analysis.Nullable
import ParserGenerator.Proofs.Collection.Attempt

/-!
# Surveys

As far as the answers are truthful, a survey either shows what it is asked for or stops at a symbol that
is registered but not settled. With all answers it never stops.
-/

namespace ParserGenerator.Grammar

variable {g : Grammar} {marker start : Int} {α β σ : Type} {P : α → Prop} {Q : β → Prop}

/-- The survey shows something, or asks about a symbol that is not settled. -/
def Shows (g : Grammar) (s : Survey α) (P : α → Prop) : Prop :=
  (∃ a, s = .ok a ∧ P a) ∨
    ∃ id, s = .error (.unsettled id) ∧ g.facts.nullable.get? id = none ∧
      ∃ x, g.symbols.at? id = some x

theorem Shows.mono {s : Survey α} {R : α → Prop} (h : g.Shows s P) (le : ∀ a, P a → R a) :
    g.Shows s R := by
  rcases h with ⟨a, eq, shown⟩ | asked
  · exact .inl ⟨a, eq, le a shown⟩
  · exact .inr asked

theorem shows_pure {a : α} (h : P a) : g.Shows (pure a) P := .inl ⟨a, rfl, h⟩

theorem shows_bind {s : Survey α} {f : α → Survey β} (first : g.Shows s P)
    (rest : ∀ a, P a → g.Shows (f a) Q) : g.Shows (s >>= f) Q := by
  rcases first with ⟨a, rfl, shown⟩ | ⟨id, rfl, asked⟩
  · exact rest a shown
  · exact .inr ⟨id, rfl, asked⟩

theorem shows_mapM {f : α → Survey β} {R : α → β → Prop} {as : List α}
    (each : ∀ a ∈ as, g.Shows (f a) (R a)) : g.Shows (as.mapM f) (List.Forall₂ R as) := by
  induction as with
  | nil => exact shows_pure .nil
  | cons a as ih =>
    obtain ⟨first, later⟩ := List.forall_mem_cons.1 each
    rw [List.mapM_cons]
    refine shows_bind first fun b hb => ?_
    refine shows_bind (ih later) fun bs hbs => ?_
    exact shows_pure (.cons hb hbs)

theorem shows_foldlM {δ : Type} {f : σ → α → Survey σ} (I : (δ → Prop) → σ → Prop)
    (adds : α → δ → Prop) {as : List α} {D : δ → Prop} {s : σ}
    (step : ∀ a ∈ as, ∀ D s, I D s → g.Shows (f s a) (I fun d => D d ∨ adds a d)) (h : I D s) :
    g.Shows (as.foldlM f s) (I fun d => D d ∨ ∃ a ∈ as, adds a d) :=
  Attempt.foldlM_entering shows_pure shows_bind I adds step h

theorem shows_find {e : Except Error α} {a : α} (eq : e = .ok a) (h : P a) :
    g.Shows (Survey.find e) P := by
  rw [eq]
  exact shows_pure h

/-- With all answers given a survey is not stopped. -/
theorem Shows.exists_ok {s : Survey α} (h : g.Shows s P) (answered : g.Answered g.facts.nullable) :
    ∃ a, s = .ok a ∧ P a := by
  rcases h with shown | ⟨id, -, absent, x, at_x⟩
  · exact shown
  · obtain ⟨b, given⟩ := answered.total at_x
    rw [absent] at given
    cases given

/-! ## Questions -/

section Questions

variable (truthful : g.Truthful g.facts.nullable) {id : Int} {ids : List Int}
include truthful

theorem shows_vanishes (registered : ∃ x, g.symbols.at? id = some x) :
    g.Shows (g.vanishes id) fun b => b = true ↔ g.Vanishes id := by
  obtain ⟨x, at_x⟩ := registered
  have known : g.symbols.symbol id = .ok x := SymbolTable.symbol_eq_ok at_x
  rw [Grammar.vanishes]
  refine shows_bind (shows_find (P := fun _ => True) known trivial) fun _ _ => ?_
  cases given : g.facts.nullable.get? id with
  | some b => exact shows_pure (truthful given)
  | none => exact .inr ⟨id, rfl, given, x, at_x⟩

theorem shows_allVanish (registered : ∀ id ∈ ids, ∃ x, g.symbols.at? id = some x) :
    g.Shows (g.allVanish ids) fun b => b = true ↔ ∀ id ∈ ids, g.Vanishes id := by
  induction ids with
  | nil => exact shows_pure (by simp)
  | cons id ids ih =>
    obtain ⟨first, rest⟩ := List.forall_mem_cons.1 registered
    rw [allVanish]
    refine shows_bind (shows_vanishes truthful first) fun b hb => ?_
    cases b with
    | true =>
      refine (ih rest).mono fun b' hb' => ?_
      rw [List.forall_mem_cons, hb']
      exact ⟨fun vanish => ⟨hb.1 rfl, vanish⟩, And.right⟩
    | false =>
      refine shows_pure ⟨nofun, fun all => ?_⟩
      exact hb.2 (all id List.mem_cons_self)

theorem shows_vanishing (registered : ∀ id ∈ ids, ∃ x, g.symbols.at? id = some x) :
    g.Shows (g.vanishing ids) fun found => ∀ id, id ∈ found ↔ id ∈ ids ∧ g.Vanishes id := by
  induction ids with
  | nil => exact shows_pure (by simp)
  | cons id ids ih =>
    obtain ⟨first, rest⟩ := List.forall_mem_cons.1 registered
    rw [vanishing]
    refine shows_bind (shows_vanishes truthful first) fun own hown => ?_
    refine shows_bind (ih rest) fun found hfound => shows_pure fun a => ?_
    cases own with
    | true =>
      rw [if_pos rfl, List.mem_cons, List.mem_cons, hfound]
      have vanishes := hown.1 rfl
      grind
    | false =>
      rw [if_neg Bool.false_ne_true, List.mem_cons, hfound]
      have stays : ¬ g.Vanishes id := fun vanishes => Bool.false_ne_true (hown.2 vanishes)
      grind

end Questions

end ParserGenerator.Grammar
