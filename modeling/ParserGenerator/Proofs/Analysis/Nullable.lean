import ParserGenerator.Proofs.Analysis.Settling

/-!
# The settled answers are right

Symbols that were rightly answered in the negative release nothing anyway, so what is settled besides is right
as well. In a settled grammar nothing stops it.
-/

namespace ParserGenerator.Grammar

open Build

variable {g : Grammar} {marker start : Int} {barred : Int → Prop} {answers : IdMap Bool} {id : Int}

/-- The answers that are settled are right. -/
def Truthful (g : Grammar) (answers : IdMap Bool) : Prop :=
  ∀ {id b}, answers.get? id = some b → (b = true ↔ g.Vanishes id)

/-- Every registered symbol has its answer, and the answers are right. -/
structure Answered (g : Grammar) (answers : IdMap Bool) : Prop where
  truthful : g.Truthful answers
  total : ∀ {id s}, g.symbols.at? id = some s → ∃ b, answers.get? id = some b

theorem VanishesPast.vanishes (h : g.VanishesPast barred id) : g.Vanishes id := by
  induction h with
  | action action => exact .action action
  | rule hp _ _ _ ih => exact .rule hp ih

section Truthful

variable (sound : g.Lawful) (truthful : g.Truthful answers)
include sound truthful

theorem Truthful.vanishesPast_iff : g.VanishesPast (answers.get? · = some false) id ↔ g.Vanishes id := by
  refine ⟨VanishesPast.vanishes, fun vanishes => ?_⟩
  induction vanishes with
  | action action => exact .action action
  | rule hp right ih =>
    refine .rule hp (sound.isNonterminal_left hp) (fun denied => ?_) ih
    cases (truthful denied).2 (.rule hp right)

theorem Truthful.told : g.Told (answers.get? · = some false) answers where
  granted given := (truthful.vanishesPast_iff sound).2 ((truthful given).1 rfl)
  denied := .inl
  refused := by
    intro id denied
    refine ⟨denied, Bool.eq_false_iff.2 fun action => ?_⟩
    cases (truthful denied).2 (.action action)

end Truthful

namespace Settled

variable (settled : g.Settled marker start) (truthful : g.Truthful g.facts.nullable)
include settled

theorem readable : g.Readable where
  kinds := by
    intro id s at_s
    refine ⟨settled.known at_s, ?_⟩
    rcases settled.kinds at_s with ⟨kind, -⟩ | ⟨declarable, -⟩
    · rw [kind]
      decide
    · exact declarable.2
  left := by
    intro n p hp
    obtain ⟨s, at_s, -⟩ := settled.left hp
    exact ⟨s, at_s⟩
  right hp id mem := (settled.right hp id mem).2

include truthful

/-- Settling the answers succeeds, and they are right. -/
theorem ends_settleNullable :
    Ends settleNullable g (fun _ g' => ∃ answers, g' = g.knowing answers ∧ g.Answered answers)
      (fun _ => False) := by
  have told := truthful.told settled.toLawful
  refine (Grammar.ends_settleNullable settled.table told).mono ?_ fun _ stopped => stopped.1 settled.readable
  rintro - _ ⟨answers, rfl, resolved⟩
  refine ⟨answers, rfl, fun given => ?_, resolved.total⟩
  rw [resolved.truthful given, truthful.vanishesPast_iff settled.toLawful]

/-- So does the question about one symbol. -/
theorem ends_isNullable {s : Symbol} (at_s : g.symbols.at? id = some s)
    (unsettled : g.facts.nullable.get? id = none) :
    Ends (isNullable id) g (fun _ g' => ∃ answers, g' = g.knowing answers ∧ g.Answered answers)
      (fun _ => False) := by
  have registered : g.symbols.symbol id = .ok s := SymbolTable.symbol_eq_ok at_s
  have open_question : (!g.facts.isSettled id) = true := by
    cases known : g.facts.isSettled id with
    | true =>
      obtain ⟨b, hb⟩ := isSettled_iff.1 known
      rw [unsettled] at hb
      cases hb
    | false => rfl
  have kind := derivationKind_eq at_s (settled.readable.kinds at_s)
  rw [isNullable, Ends, bind_of_ok (query_of_ok registered)]
  apply ends_get_bind
  rw [if_pos open_question, Ends, bind_of_ok (query_of_ok kind)]
  apply ends_bind (settled.ends_settleNullable truthful)
  intro _ g' answered
  exact ends_get_bind (ends_pure answered)

end Settled

end ParserGenerator.Grammar
