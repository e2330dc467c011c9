import ParserGenerator.LR.Automaton
import ParserGenerator.Proofs.Grammar.Lawful

/-!
# Coherent grammars

The construction of states and tables relies on little: productions are listed by number, are filed with
their left-hand sides and use registered symbols. This much holds of every closed grammar, also of one in
which the start marker is used like any other symbol.
-/

namespace ParserGenerator.Grammar

variable {g : Grammar} {marker start : Int} {n : Int} {p : Production}

/-- The productions are listed by number and made of registered symbols, those that a symbol has are its
own, and production 0 has one symbol on its right. -/
structure Coherent (g : Grammar) : Prop where
  table : g.symbols.Lawful
  ending : ∃ s, g.symbols.at? endMarkerId = some s ∧ s.isInput = true
  right : ∀ {n p}, g.byNumber.get? n = some p → ∀ id ∈ p.right, ∃ s, g.symbols.at? id = some s
  own : ∀ {id s n}, g.symbols.at? id = some s → n ∈ s.productions →
    ∃ p, g.byNumber.get? n = some p ∧ p.left = id
  listed : ∀ i : Nat, g.productions[i]? = g.byNumber.get? i
  natural : ∀ {n p}, g.byNumber.get? n = some p → ∃ i : Nat, n = i
  counted : g.productionCount = g.productions.size
  zero : ∃ p, g.byNumber.get? 0 = some p ∧ p.right.length = 1

/-- The productions of a nonterminal are those with it on their left. -/
theorem Lawful.mem_productions (sound : g.Lawful) {id n : Int} {s : Symbol}
    (at_s : g.symbols.at? id = some s) :
    n ∈ s.productions ↔ ∃ p, g.byNumber.get? n = some p ∧ p.left = id := by
  rw [sound.filed at_s, List.mem_map]
  constructor
  · rintro ⟨p, mem, rfl⟩
    obtain ⟨mem, left⟩ := List.mem_filter.1 mem
    obtain ⟨m, hm⟩ := OrderedMap.mem_values.1 mem
    rw [sound.number_eq hm]
    exact ⟨p, hm, of_decide_eq_true left⟩
  · rintro ⟨p, hp, left⟩
    exact ⟨p, List.mem_filter.2 ⟨OrderedMap.mem_values.2 ⟨n, hp⟩, decide_eq_true left⟩,
      sound.number_eq hp⟩

theorem Lawful.input_endMarker (sound : g.Lawful) :
    ∃ s, g.symbols.at? endMarkerId = some s ∧ s.isInput = true := by
  obtain ⟨s, at_s, -⟩ := sound.table.endMarker
  refine ⟨s, at_s, ?_⟩
  rcases sound.kinds at_s with ⟨kind, -⟩ | ⟨-, other⟩
  · rw [Symbol.isInput, kind]
    rfl
  · exact absurd rfl other

theorem Settled.coherent (settled : g.Settled marker start) : g.Coherent where
  table := settled.table
  ending := settled.input_endMarker
  right := fun hp id mem => (settled.right hp id mem).2
  own := fun at_s mem => (settled.mem_productions at_s).1 mem
  listed := settled.listed
  natural := settled.natural
  counted := settled.counted
  zero := ⟨_, settled.zero, rfl⟩

namespace Coherent

variable (coherent : g.Coherent)
include coherent

theorem productionAt?_eq (hp : g.byNumber.get? n = some p) : g.productionAt? n = some p := by
  obtain ⟨i, rfl⟩ := coherent.natural hp
  rw [productionAt?]
  simp only [Int.not_lt.2 (Int.natCast_nonneg i), if_false, Int.toNat_natCast]
  rw [coherent.listed i, hp]

theorem rightOf_eq (hp : g.byNumber.get? n = some p) : g.rightOf n = p.right := by
  rw [rightOf, coherent.productionAt?_eq hp]
  rfl

end Coherent

end ParserGenerator.Grammar
