import Mathlib.Data.List.Induction
import ParserGenerator.Grammar.Basic

/-!
# Trees of binary operators

Binary operators are declared line by line. An operand between two of them goes to the one on the later
line, and on one line to the side to which the line groups. A tree is grouped if it gives each operand
where it goes. The operators between the operands determine the grouped tree: it is found by adding one
operator after the other on the right.
-/

namespace ParserGenerator

/-- Binary operators, and the lines that declare them. -/
structure OperatorTable where
  names : List String
  lines : List (Associativity × List String)
  distinct : names.Nodup
  /-- The names that are in use otherwise. -/
  plain : ∀ o ∈ names, o ≠ "" ∧ o ≠ "NUM" ∧ o ≠ "E" ∧ o ≠ endMarkerName ∧ o ≠ Grammar.startMarkerName
  once : (lines.flatMap Prod.snd).Nodup
  declared : ∀ o ∈ names, o ∈ lines.flatMap Prod.snd
  sided : ∀ line ∈ lines, line.1 ≠ .nonassoc

namespace OperatorTable

variable {T : OperatorTable} {o p q : String}

/-- The number of the production for an operator, and that of the one for numbers, which comes last. -/
def rule (T : OperatorTable) (o : String) : Int := T.names.idxOf o + 1
def leaf (T : OperatorTable) : Int := T.names.length + 1

/-- The line on which an operator is declared, and the side to which that line groups. -/
def line (T : OperatorTable) (o : String) : Nat := T.lines.findIdx (o ∈ ·.2)
def side (T : OperatorTable) (o : String) : Associativity := (T.lines[T.line o]?.map Prod.fst).getD .left

/-- The operand between two operators goes to the left one. -/
def Takes (T : OperatorTable) (o p : String) : Prop :=
  T.line p < T.line o ∨ T.line o = T.line p ∧ T.side o = .left

instance : Decidable (T.Takes o p) := inferInstanceAs (Decidable (_ ∨ _))

theorem side_eq (same : T.line o = T.line p) : T.side o = T.side p := by rw [side, side, same]

theorem Takes.trans (h : T.Takes o p) (h' : T.Takes p q) : T.Takes o q := by
  rcases h with later | ⟨same, left⟩
  · rcases h' with later' | ⟨same', -⟩
    · exact .inl (Nat.lt_trans later' later)
    · exact .inl (same' ▸ later)
  · rcases h' with later' | ⟨same', -⟩
    · exact .inl (same ▸ later')
    · exact .inr ⟨same.trans same', left⟩

/-- What an operator leaves to another one goes to that one before whatever the first one takes. -/
theorem Takes.of_not (h : ¬ T.Takes o p) (h' : T.Takes o q) : T.Takes p q := by
  rw [Takes, not_or, not_and] at h
  obtain ⟨notLater, right⟩ := h
  rcases h' with later | ⟨same, left⟩
  · exact .inl (by omega)
  · rcases Nat.lt_or_eq_of_le (Nat.not_lt.1 notLater) with before | same'
    · exact .inl (by omega)
    · exact absurd left (right same')

end OperatorTable

inductive OperatorTree where
  | number
  | node (left : OperatorTree) (operator : String) (right : OperatorTree)
  deriving DecidableEq

namespace OperatorTree

variable {T : OperatorTable} {t t' : OperatorTree} {o : String} {os : List String}

/-- The operators from left to right. -/
def operators : OperatorTree → List String
  | number => []
  | node l o r => l.operators ++ o :: r.operators

/-- The kinds of the tokens from left to right. -/
def kinds : OperatorTree → List String
  | number => ["NUM"]
  | node l o r => l.kinds ++ o :: r.kinds

/-- The numbers of the productions, those of the operands before that of their operator. -/
def reductions (T : OperatorTable) : OperatorTree → List Int
  | number => [T.leaf]
  | node l o r => l.reductions T ++ r.reductions T ++ [T.rule o]

/-- Every operand goes where it should. -/
def Grouped (T : OperatorTable) : OperatorTree → Prop
  | number => True
  | node l o r => l.Grouped T ∧ r.Grouped T ∧ (∀ p ∈ l.operators, T.Takes p o) ∧
      ∀ p ∈ r.operators, ¬ T.Takes o p

instance decidableGrouped (T : OperatorTable) : ∀ t : OperatorTree, Decidable (t.Grouped T)
  | number => isTrue trivial
  | node l _ r =>
    have := decidableGrouped T l
    have := decidableGrouped T r
    inferInstanceAs (Decidable (_ ∧ _ ∧ _ ∧ _))

/-- Numbers with the operators between them. -/
def chain : List String → List String
  | [] => ["NUM"]
  | o :: os => "NUM" :: o :: chain os

theorem chain_append (os os' : List String) : chain (os ++ o :: os') = chain os ++ o :: chain os' := by
  induction os with
  | nil => rfl
  | cons p os ih => rw [List.cons_append, chain, chain, ih, List.cons_append, List.cons_append]

theorem chain_injective : Function.Injective chain := by
  intro os
  induction os with
  | nil =>
    rintro (_ | ⟨p, os'⟩) same
    · rfl
    · simp [chain] at same
  | cons o os ih =>
    rintro (_ | ⟨p, os'⟩) same
    · simp [chain] at same
    · rw [chain, chain, List.cons.injEq, List.cons.injEq] at same
      rw [same.2.1, ih same.2.2]

theorem kinds_eq : ∀ t : OperatorTree, t.kinds = chain t.operators
  | number => rfl
  | node l _ r => by rw [kinds, operators, chain_append, kinds_eq l, kinds_eq r]

/-! ## The grouped tree of given operators -/

/-- The tree with one more operator, and a number, on its right. -/
def extend (T : OperatorTable) : OperatorTree → String → OperatorTree
  | number, o => node number o number
  | node l p r, o => if T.Takes p o then node (node l p r) o number else node l p (r.extend T o)

def climb (T : OperatorTable) (os : List String) : OperatorTree := os.foldl (extend T) number

theorem operators_extend (t : OperatorTree) : (t.extend T o).operators = t.operators ++ [o] := by
  induction t with
  | number => rfl
  | node l p r _ ih =>
    rw [extend]
    split
    · simp [operators]
    · simp [operators, ih]

/-- All operators of a grouped tree take what the topmost one takes. -/
theorem Grouped.takes {l r : OperatorTree} {p : String} (h : (node l p r).Grouped T) (takes : T.Takes p o) :
    ∀ q ∈ (node l p r).operators, T.Takes q o := by
  obtain ⟨-, -, left, right⟩ := h
  intro q mem
  rcases List.mem_append.1 mem with inside | inside
  · exact (left q inside).trans takes
  · rcases List.mem_cons.1 inside with rfl | inside
    · exact takes
    · exact .of_not (right q inside) takes

theorem Grouped.extend (h : t.Grouped T) : (t.extend T o).Grouped T := by
  induction t with
  | number => exact ⟨trivial, trivial, by simp [operators], by simp [operators]⟩
  | node l p r _ ih =>
    rw [OperatorTree.extend]
    split
    · rename_i takes
      exact ⟨h, trivial, h.takes takes, by simp [operators]⟩
    · rename_i leaves
      obtain ⟨ofLeft, ofRight, left, right⟩ := h
      refine ⟨ofLeft, ih ofRight, left, ?_⟩
      rw [operators_extend]
      intro q mem
      rcases List.mem_append.1 mem with inside | last
      · exact right q inside
      · rwa [List.mem_singleton.1 last]

theorem climb_spec (T : OperatorTable) (os : List String) :
    (climb T os).Grouped T ∧ (climb T os).operators = os := by
  induction os using List.reverseRecOn with
  | nil => exact ⟨trivial, rfl⟩
  | append_singleton os o ih =>
    rw [climb, List.foldl_append, List.foldl_cons, List.foldl_nil, operators_extend]
    exact ⟨ih.1.extend, congrArg (· ++ [o]) ih.2⟩

/-- An operator on top of one grouped tree and inside another one, which has the top of the first one
inside, would take an operand in only one of them. -/
theorem Grouped.not_inside {l r l' r' : OperatorTree} {p : String} {mid : List String}
    (h : (node l o r).Grouped T) (h' : (node l' p r').Grouped T)
    (before : l'.operators = l.operators ++ o :: mid) (behind : r.operators = mid ++ p :: r'.operators) :
    False := by
  have takes : T.Takes o p := h'.2.2.1 o (by simp [before])
  have leaves : ¬ T.Takes o p := h.2.2.2 p (by simp [behind])
  exact leaves takes

theorem Grouped.unique (h : t.Grouped T) (h' : t'.Grouped T) (same : t.operators = t'.operators) :
    t = t' := by
  induction t generalizing t' with
  | number =>
    cases t' with
    | number => rfl
    | node => simp [operators] at same
  | node l o r ihl ihr =>
    cases t' with
    | number => simp [operators] at same
    | node l' o' r' =>
      rcases List.append_eq_append_iff.1 same with ⟨rest, before, behind⟩ | ⟨rest, before, behind⟩
      · cases rest with
        | nil =>
          obtain ⟨rfl, right⟩ := List.cons.inj behind
          rw [List.append_nil] at before
          rw [ihl h.1 h'.1 before.symm, ihr h.2.1 h'.2.1 right]
        | cons p mid =>
          obtain ⟨rfl, inside⟩ := List.cons.inj behind
          exact (h.not_inside h' before inside).elim
      · cases rest with
        | nil =>
          obtain ⟨rfl, right⟩ := List.cons.inj behind
          rw [List.append_nil] at before
          rw [ihl h.1 h'.1 before, ihr h.2.1 h'.2.1 right.symm]
        | cons p mid =>
          obtain ⟨rfl, inside⟩ := List.cons.inj behind
          exact (h'.not_inside h before inside).elim

/-- Between numbers the operators are grouped in one way. -/
theorem existsUnique_grouped (T : OperatorTable) (os : List String) :
    ∃! t : OperatorTree, t.Grouped T ∧ t.kinds = chain os := by
  obtain ⟨grouped, operators⟩ := climb_spec T os
  refine ⟨climb T os, ⟨grouped, by rw [kinds_eq, operators]⟩, ?_⟩
  rintro t ⟨grouped', spelled⟩
  refine grouped'.unique grouped (chain_injective ?_)
  rw [← kinds_eq, spelled, operators]

end OperatorTree

end ParserGenerator
