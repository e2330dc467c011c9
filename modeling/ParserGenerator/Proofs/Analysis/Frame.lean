import ParserGenerator.Proofs.Analysis.FirstFollow
import ParserGenerator.LR.Automaton

/-!
# The analysis leaves a grammar alone

With other facts a grammar has the same rules, derivations and states.
-/

namespace ParserGenerator.Grammar

variable {g : Grammar} {marker start : Int} {α β ns : List Int} {n id : Int}

theorem Lawful.having (sound : g.Lawful) (f : Facts) : (g.having f).Lawful where
  table := sound.table
  kinds := sound.kinds
  number_eq := sound.number_eq
  left := sound.left
  right := sound.right
  filed := sound.filed

theorem Settled.having (settled : g.Settled marker start) (f : Facts) :
    (g.having f).Settled marker start where
  toLawful := settled.toLawful.having f
  closed := settled.closed
  frozen := settled.frozen
  known := settled.known
  listed := settled.listed
  natural := settled.natural
  counted := settled.counted
  ordered := settled.ordered
  produced := settled.produced
  marker_kind := settled.marker_kind
  marker_name := settled.marker_name
  start_kind := settled.start_kind
  start_name := settled.start_name
  zero := settled.zero
  marker_left := settled.marker_left
  marker_right := settled.marker_right

theorem Rewrites.having (h : g.Rewrites α β) (f : Facts) : (g.having f).Rewrites α β := by
  obtain ⟨α, β, hp⟩ := h
  exact .rule α β hp

theorem Derives.having (h : g.Derives α β) (f : Facts) : (g.having f).Derives α β := by
  induction h with
  | refl => exact .refl
  | tail _ step ih => exact ih.tail (step.having f)

theorem RewritesLast.having (h : g.RewritesLast n α β) (f : Facts) :
    (g.having f).RewritesLast n α β := by
  obtain ⟨α, w, hp, terminal⟩ := h
  exact .rule α w hp terminal

theorem Rightmost.having (h : g.Rightmost ns α β) (f : Facts) : (g.having f).Rightmost ns α β := by
  induction h with
  | refl α => exact .refl α
  | step first _ ih => exact .step (first.having f) ih

theorem rightmost_having {f : Facts} : (g.having f).Rightmost ns α β ↔ g.Rightmost ns α β :=
  ⟨fun h => h.having g.facts, fun h => h.having f⟩

theorem Vanishes.having (h : g.Vanishes id) (f : Facts) : (g.having f).Vanishes id := by
  induction h with
  | action action => exact .action action
  | rule hp _ ih => exact .rule hp ih

theorem vanishes_having {f : Facts} : (g.having f).Vanishes id ↔ g.Vanishes id :=
  ⟨fun h => h.having g.facts, fun h => h.having f⟩

theorem Answered.having {f : Facts} (h : g.Answered f.nullable) :
    (g.having f).Answered (g.having f).facts.nullable where
  truthful := fun given => (h.truthful given).trans vanishes_having.symm
  total := h.total

theorem precedenceOf_having {f : Facts} (p : Production) :
    (g.having f).precedenceOf p = g.precedenceOf p := by
  have lastTerminal : precedenceOf.lastTerminal (g.having f) = precedenceOf.lastTerminal g := by
    funext ids
    induction ids with
    | nil => rfl
    | cons id ids ih =>
      simp only [precedenceOf.lastTerminal, ih]
      rfl
  rw [precedenceOf, precedenceOf, lastTerminal]
  rfl

theorem explore_having (f : Facts) : (g.having f).explore = g.explore := rfl

end ParserGenerator.Grammar
