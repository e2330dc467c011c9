import ParserGenerator.Collection.OrderedSet

/-!
# Sets as numbers

Over a list of members a set is a number: the bit at a place tells whether the member there belongs to
the set. The union of two sets is the bitwise disjunction of their numbers.
-/

namespace ParserGenerator.Bits

variable {α : Type}

/-- The entries of a list at the places where a number has a bit. -/
def select : List α → Nat → List α
  | [], _ => []
  | a :: as, bits => if bits.testBit 0 then a :: select as (bits / 2) else select as (bits / 2)

theorem select_sublist (as : List α) (bits : Nat) : (select as bits).Sublist as := by
  induction as generalizing bits with
  | nil => exact List.Sublist.refl _
  | cons a as ih =>
    rw [select]
    split
    · exact (ih _).cons_cons a
    · exact (ih _).cons a

theorem mem_select {a : α} {as : List α} {bits : Nat} :
    a ∈ select as bits ↔ ∃ i, as[i]? = some a ∧ bits.testBit i := by
  induction as generalizing bits with
  | nil => simp [select]
  | cons b as ih =>
    have later : a ∈ select as (bits / 2) ↔ ∃ i, as[i]? = some a ∧ bits.testBit (i + 1) := by
      simp [ih, Nat.testBit_succ]
    rw [select]
    constructor
    · intro h
      split at h
      · rcases List.mem_cons.1 h with rfl | h
        · exact ⟨0, rfl, by assumption⟩
        · obtain ⟨i, hi⟩ := later.1 h
          exact ⟨i + 1, hi⟩
      · obtain ⟨i, hi⟩ := later.1 h
        exact ⟨i + 1, hi⟩
    · rintro ⟨i, hi, hb⟩
      cases i with
      | zero =>
        rw [if_pos hb]
        exact List.mem_cons.2 (.inl (Option.some.inj hi).symm)
      | succ i =>
        have := later.2 ⟨i, hi, hb⟩
        split
        · exact List.mem_cons_of_mem _ this
        · exact this

/-- The listed members that a number has bits for. -/
def decode (members : OrderedSet α) (bits : Nat) : OrderedSet α :=
  ⟨select members.toList bits, members.nodup.sublist (select_sublist _ _)⟩

theorem mem_decode {a : α} {members : OrderedSet α} {bits : Nat} :
    a ∈ decode members bits ↔ ∃ i, members.toList[i]? = some a ∧ bits.testBit i := mem_select

variable [DecidableEq α]

/-- The number of the set of the given ones among the listed members. -/
def encode (members : OrderedSet α) (as : List α) : Nat :=
  as.foldl (fun bits a => bits ||| 1 <<< members.toList.idxOf a) 0

end ParserGenerator.Bits
