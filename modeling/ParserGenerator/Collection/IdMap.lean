/-!
# Maps from identifiers

Identifiers are small numbers, so a map from them is a row of places: the even ones belong to the
identifiers from zero on, the odd ones to those below zero. Looking up and writing take one step.
-/

namespace ParserGenerator

structure IdMap (β : Type) where
  places : Array (Option β) := #[]

namespace IdMap

variable {β : Type}

instance : EmptyCollection (IdMap β) := ⟨{}⟩
instance : Inhabited (IdMap β) := ⟨∅⟩

/-- The place of an identifier. -/
def place : Int → Nat
  | .ofNat n => 2 * n
  | .negSucc n => 2 * n + 1

theorem place_inj {a b : Int} : place a = place b ↔ a = b := by
  constructor
  · intro h
    cases a <;> cases b <;> simp only [place] at h
    · exact congrArg Int.ofNat (by omega)
    · omega
    · omega
    · exact congrArg Int.negSucc (by omega)
  · exact congrArg place

def get? (m : IdMap β) (id : Int) : Option β := m.places.getD (place id) none
def getD (m : IdMap β) (id : Int) (b : β) : β := (m.get? id).getD b
def contains (m : IdMap β) (id : Int) : Bool := (m.get? id).isSome

/-- The places, with as many vacant ones behind them as it takes for one more. -/
def grown (places : Array (Option β)) (n : Nat) : Array (Option β) :=
  places ++ Array.replicate (n + 1 - places.size) none

def insert (m : IdMap β) (id : Int) (b : β) : IdMap β :=
  ⟨(grown m.places (place id)).setIfInBounds (place id) (some b)⟩

theorem getD_grown (places : Array (Option β)) (n i : Nat) :
    (grown places n).getD i none = places.getD i none := by
  simp only [Array.getD_eq_getD_getElem?, grown, Array.getElem?_append, Array.getElem?_replicate]
  split
  · rfl
  · rw [Array.getElem?_eq_none (by omega)]
    split <;> rfl

@[simp] theorem get?_empty (id : Int) : (∅ : IdMap β).get? id = none := rfl

@[simp] theorem get?_insert {m : IdMap β} {id a : Int} {b : β} :
    (m.insert id b).get? a = if id = a then some b else m.get? a := by
  have size : place id < (grown m.places (place id)).size := by
    simp only [grown, Array.size_append, Array.size_replicate]
    omega
  rw [get?, insert, Array.getD_eq_getD_getElem?, Array.getElem?_setIfInBounds]
  by_cases h : id = a
  · rw [if_pos (congrArg place h), if_pos size, if_pos h]
    rfl
  · rw [if_neg (fun e => h (place_inj.1 e)), if_neg h, ← Array.getD_eq_getD_getElem?, getD_grown]
    rfl

end IdMap

end ParserGenerator
