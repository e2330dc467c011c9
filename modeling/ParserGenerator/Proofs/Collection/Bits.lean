import ParserGenerator.Collection.Bits
import Mathlib.Algebra.GroupWithZero.Nat

/-!
# Sets written as numbers and read back

The number of a set has a bit at the place of each of its members and nowhere else, so a set of listed
members is read back as it was written.
-/

namespace ParserGenerator.Bits

variable {α : Type} [DecidableEq α] {members : OrderedSet α}

theorem testBit_foldl_set (as : List α) (bits i : Nat) :
    (as.foldl (fun bits a => bits ||| 1 <<< members.toList.idxOf a) bits).testBit i = true ↔
      bits.testBit i = true ∨ ∃ a ∈ as, members.toList.idxOf a = i := by
  induction as generalizing bits with
  | nil => simp
  | cons a as ih =>
    have single : (1 <<< members.toList.idxOf a).testBit i = true ↔
        members.toList.idxOf a = i := by
      rw [Nat.one_shiftLeft, Nat.testBit_two_pow, decide_eq_true_eq]
    rw [List.foldl_cons, ih, Nat.testBit_or, Bool.or_eq_true, single, or_assoc]
    simp

theorem testBit_encode {as : List α} {i : Nat} :
    (encode members as).testBit i = true ↔ ∃ a ∈ as, members.toList.idxOf a = i := by
  rw [encode, testBit_foldl_set]
  simp

theorem encode_lt {as : List α} (listed : ∀ a ∈ as, a ∈ members) :
    encode members as < 2 ^ members.size := by
  apply Nat.lt_pow_two_of_testBit
  intro i high
  rw [← Bool.not_eq_true, testBit_encode]
  rintro ⟨a, ha, rfl⟩
  exact absurd (List.idxOf_lt_length_of_mem (listed a ha)) (Nat.not_lt.2 high)

end ParserGenerator.Bits
