import ParserGenerator.LR.Digraph
import ParserGenerator.Proofs.Collection.Bits
import ParserGenerator.Proofs.Collection.Worklist
import Mathlib.Algebra.Order.BigOperators.Group.List
import Mathlib.Algebra.Order.Ring.Nat
import Mathlib.Logic.Relation

/-!
# Collected sets are the least solution

A node leads to the nodes at the ends of its paths, itself among them. The set that a node collects is
the union of the own sets of all nodes that it leads to.
-/

namespace ParserGenerator.Digraph

/-- There is a path, of no edge or more, from the first node to the second. -/
def Leads (edges : List (Nat × Nat)) : Nat → Nat → Prop :=
  Relation.ReflTransGen fun a b => (a, b) ∈ edges

variable {edges : List (Nat × Nat)} {sets base : Array Nat}

@[simp] theorem size_absorb (sets : Array Nat) (e : Nat × Nat) :
    (absorb sets e).size = sets.size := Array.size_modify

theorem getD_absorb (sets : Array Nat) (e : Nat × Nat) (inside : e.1 < sets.size) (n : Nat) :
    (absorb sets e).getD n 0 =
      if e.1 = n then sets.getD n 0 ||| sets.getD e.2 0 else sets.getD n 0 := by
  simp only [absorb, Array.getD_eq_getD_getElem?, Array.getElem?_modify]
  by_cases h : e.1 = n
  · subst h
    rw [if_pos rfl, if_pos rfl, Array.getElem?_eq_getElem inside]
    rfl
  · rw [if_neg h, if_neg h]

/-! ## Growth -/

/-- The second family has all bits of the first. -/
def Below (sets sets' : Array Nat) : Prop :=
  sets.size = sets'.size ∧ ∀ n, sets.getD n 0 ||| sets'.getD n 0 = sets'.getD n 0

theorem Below.refl (sets : Array Nat) : Below sets sets := ⟨rfl, fun _ => Nat.or_self _⟩

theorem Below.trans {a b c : Array Nat} (h : Below a b) (h' : Below b c) : Below a c :=
  ⟨h.1.trans h'.1, fun n => by rw [← h'.2 n, ← Nat.or_assoc, h.2 n]⟩

theorem Below.antisymm {a b : Array Nat} (h : Below a b) (h' : Below b a) : a = b := by
  apply Array.ext h.1
  intro n hn hn'
  have same : a.getD n 0 = b.getD n 0 := by rw [← h.2 n, Nat.or_comm, h'.2 n]
  simpa [Array.getD, hn, hn'] using same

theorem Below.le {a b : Array Nat} (h : Below a b) (n : Nat) : a.getD n 0 ≤ b.getD n 0 :=
  h.2 n ▸ Nat.left_le_or

theorem Below.testBit {a b : Array Nat} (h : Below a b) {n i : Nat}
    (bit : (a.getD n 0).testBit i = true) : (b.getD n 0).testBit i = true := by
  rw [← h.2 n, Nat.testBit_or, bit, Bool.true_or]

theorem below_absorb (sets : Array Nat) (e : Nat × Nat) : Below sets (absorb sets e) := by
  refine ⟨(size_absorb sets e).symm, fun n => ?_⟩
  by_cases inside : e.1 < sets.size
  · rw [getD_absorb sets e inside]
    split
    · rw [← Nat.or_assoc, Nat.or_self]
    · exact Nat.or_self _
  · have : absorb sets e = sets := Array.ext (size_absorb sets e) fun i _ hi => by
      simp only [absorb, Array.getElem_modify]
      rw [if_neg (by omega)]
    rw [this, Nat.or_self]

theorem below_foldl_absorb (edges : List (Nat × Nat)) (sets : Array Nat) :
    Below sets (edges.foldl absorb sets) := by
  induction edges generalizing sets with
  | nil => exact .refl sets
  | cons e es ih => exact (below_absorb sets e).trans (ih _)

theorem below_round (edges : List (Nat × Nat)) (sets : Array Nat) : Below sets (round edges sets) :=
  (below_foldl_absorb _ sets).trans (below_foldl_absorb _ _)

theorem absorb_eq_of_foldl_eq (settled : edges.foldl absorb sets = sets) :
    ∀ e ∈ edges, absorb sets e = sets := by
  induction edges with
  | nil => exact fun e he => absurd he List.not_mem_nil
  | cons e es ih =>
    have first : absorb sets e = sets := by
      apply Below.antisymm _ (below_absorb sets e)
      have := below_foldl_absorb es (absorb sets e)
      rwa [← List.foldl_cons, settled] at this
    rw [List.foldl_cons, first] at settled
    intro e' he'
    rcases List.mem_cons.1 he' with rfl | later
    · exact first
    · exact ih settled e' later

/-- A round without change finds every edge obeyed. -/
theorem obeyed_of_round_eq (sources : ∀ e ∈ edges, e.1 < sets.size)
    (settled : round edges sets = sets) {a b : Nat} (edge : (a, b) ∈ edges) {i : Nat}
    (bit : (sets.getD b 0).testBit i = true) : (sets.getD a 0).testBit i = true := by
  have way : edges.reverse.foldl absorb sets = sets := by
    apply Below.antisymm _ (below_foldl_absorb _ sets)
    have := below_foldl_absorb edges (edges.reverse.foldl absorb sets)
    rwa [← round, settled] at this
  rw [round, way] at settled
  have same := getD_absorb sets (a, b) (sources _ edge) a
  rw [absorb_eq_of_foldl_eq settled (a, b) edge, if_pos rfl] at same
  rw [same, Nat.testBit_or, bit, Bool.or_true]

/-! ## Paths -/

/-- Every member of a family is one of the base at a node that its own node leads to. -/
def Within (edges : List (Nat × Nat)) (base sets : Array Nat) : Prop :=
  ∀ n i, (sets.getD n 0).testBit i = true →
    ∃ m, Leads edges n m ∧ (base.getD m 0).testBit i = true

theorem Within.absorb {e : Nat × Nat} (edge : e ∈ edges) (inside : e.1 < sets.size)
    (h : Within edges base sets) : Within edges base (absorb sets e) := by
  intro n i bit
  rw [getD_absorb sets e inside] at bit
  by_cases source : e.1 = n
  · rw [if_pos source, Nat.testBit_or, Bool.or_eq_true] at bit
    rcases bit with own | given
    · exact h n i own
    · obtain ⟨m, path, member⟩ := h _ i given
      exact ⟨m, .head (source ▸ edge) path, member⟩
  · rw [if_neg source] at bit
    exact h n i bit

theorem Within.foldl_absorb {taken : List (Nat × Nat)} (among : ∀ e ∈ taken, e ∈ edges)
    (sources : ∀ e ∈ edges, e.1 < sets.size) (h : Within edges base sets) :
    Within edges base (taken.foldl Digraph.absorb sets) := by
  induction taken generalizing sets with
  | nil => exact h
  | cons e es ih =>
    rw [List.foldl_cons]
    have edge := among e List.mem_cons_self
    apply ih (fun e' he' => among e' (List.mem_cons_of_mem _ he'))
    · intro e' he'
      rw [size_absorb]
      exact sources e' he'
    · exact h.absorb edge (sources e edge)

theorem Within.round (sources : ∀ e ∈ edges, e.1 < sets.size) (h : Within edges base sets) :
    Within edges base (round edges sets) := by
  apply Within.foldl_absorb (fun e he => he)
  · intro e he
    rw [← (below_foldl_absorb edges.reverse sets).1]
    exact sources e he
  · exact h.foldl_absorb (fun e he => List.mem_reverse.1 he) sources

/-! ## The end of the rounds -/

theorem sum_lt_sum {as bs : List Nat} (len : as.length = bs.length)
    (le : ∀ i, as.getD i 0 ≤ bs.getD i 0) (ne : as ≠ bs) : as.sum < bs.sum := by
  induction as generalizing bs with
  | nil =>
    cases bs with
    | nil => exact absurd rfl ne
    | cons b bs => cases len
  | cons a as ih =>
    cases bs with
    | nil => cases len
    | cons b bs =>
      have head : a ≤ b := le 0
      have tail : ∀ i, as.getD i 0 ≤ bs.getD i 0 := fun i => le (i + 1)
      rw [List.sum_cons, List.sum_cons]
      by_cases same : as = bs
      · subst same
        have : a ≠ b := fun eq => ne (eq ▸ rfl)
        omega
      · have := ih (Nat.succ.inj len) tail same
        omega

theorem missing_eq (members : Nat) (sets : Array Nat) :
    missing members sets = sets.size * 2 ^ members - sets.toList.sum := by
  rw [missing, ← Array.foldl_toList, List.sum_eq_foldl]
  rfl

theorem missing_lt {members : Nat} {sets sets' : Array Nat} (grown : Below sets sets')
    (ne : sets' ≠ sets) (bounded : ∀ n, sets'.getD n 0 < 2 ^ members) :
    missing members sets' < missing members sets := by
  have lists : sets.toList ≠ sets'.toList := fun eq => ne (Array.toList_inj.1 eq.symm)
  have sums := sum_lt_sum (by simpa using grown.1) (fun i => by simpa using grown.le i) lists
  have limit : sets'.toList.sum ≤ sets'.toList.length * 2 ^ members := by
    apply List.sum_le_card_nsmul
    intro a ha
    obtain ⟨i, hi, rfl⟩ := List.getElem_of_mem ha
    have := bounded i
    rw [Array.getD_eq_getD_getElem?, Array.getElem?_eq_getElem (by simpa using hi)] at this
    exact this.le
  rw [missing_eq, missing_eq, ← grown.1]
  rw [Array.length_toList, ← grown.1] at limit
  omega

/-! ## Sets of members -/

theorem mem_foldl_union {own : List (OrderedSet Int)} {s : OrderedSet Int} {t : Int} :
    t ∈ own.foldl OrderedSet.union s ↔ t ∈ s ∨ ∃ u ∈ own, t ∈ u := by
  induction own generalizing s with
  | nil => simp
  | cons u us ih =>
    rw [List.foldl_cons, ih, OrderedSet.mem_union, or_assoc]
    simp

variable {own : Array (OrderedSet Int)}

theorem mem_members {n : Nat} {t : Int} (h : t ∈ own.getD n ∅) :
    t ∈ own.foldl OrderedSet.union ∅ := by
  rw [← Array.foldl_toList, mem_foldl_union]
  by_cases inside : n < own.size
  · exact .inr ⟨own[n], Array.getElem_mem_toList inside, by simpa [Array.getD, inside] using h⟩
  · simp [Array.getD, inside] at h

/-- The own sets as numbers over the list of all members. -/
def encoded (own : Array (OrderedSet Int)) : Array Nat :=
  own.map fun s => Bits.encode (own.foldl OrderedSet.union ∅) s.toList

theorem getD_encoded (n : Nat) :
    (encoded own).getD n 0 =
      Bits.encode (own.foldl OrderedSet.union ∅) (own.getD n ∅).toList := by
  rw [encoded, Array.getD_eq_getD_getElem?, Array.getElem?_map, Array.getD_eq_getD_getElem?]
  cases own[n]? <;> rfl

theorem testBit_encoded {n i : Nat} :
    ((encoded own).getD n 0).testBit i = true ↔
      ∃ t ∈ own.getD n ∅, (own.foldl OrderedSet.union ∅).toList.idxOf t = i := by
  rw [getD_encoded, Bits.testBit_encode]
  rfl

theorem encoded_lt (n : Nat) :
    (encoded own).getD n 0 < 2 ^ (own.foldl OrderedSet.union ∅).size := by
  rw [getD_encoded]
  exact Bits.encode_lt fun _ => mem_members

/-- The numbers at the end of the rounds: a round changes them no more, and they are the base grown
along paths. -/
theorem exists_collected (sources : ∀ e ∈ edges, e.1 < own.size) :
    ∃ sets : Array Nat, round edges sets = sets ∧ Below (encoded own) sets ∧
      Within edges (encoded own) sets ∧
      saturate edges own = sets.map (Bits.decode (own.foldl OrderedSet.union ∅)) := by
  let members := own.foldl OrderedSet.union ∅
  let pass (sets : Array Nat) : Array Nat × Bool := (round edges sets, round edges sets ≠ sets)
  let Inv (sets : Array Nat) : Prop :=
    Below (encoded own) sets ∧ Within edges (encoded own) sets
  have inside : ∀ sets, Inv sets → ∀ e ∈ edges, e.1 < sets.size := by
    intro sets inv e he
    rw [← inv.1.1, encoded, Array.size_map]
    exact sources e he
  have kept : ∀ sets, Inv sets → Inv (pass sets).1 := fun sets inv =>
    ⟨inv.1.trans (below_round edges sets), inv.2.round (inside sets inv)⟩
  have bounded : ∀ sets, Inv sets → ∀ n, sets.getD n 0 < 2 ^ members.size := by
    intro sets inv n
    apply Nat.lt_pow_two_of_testBit
    intro i high
    rw [← Bool.not_eq_true]
    intro bit
    obtain ⟨m, -, bit⟩ := inv.2 n i bit
    have low := Nat.testBit_lt_two_pow (Nat.lt_of_lt_of_le (@encoded_lt own m)
      (Nat.pow_le_pow_right Nat.two_pos high))
    rw [low] at bit
    cases bit
  have falls : ∀ sets, Inv sets → (pass sets).2 = true →
      missing members.size (pass sets).1 < missing members.size sets := by
    intro sets inv changed
    exact missing_lt (below_round edges sets) (of_decide_eq_true changed)
      (bounded _ (kept sets inv))
  have start : Inv (encoded own) :=
    ⟨.refl _, fun n i bit => ⟨n, Relation.ReflTransGen.refl, bit⟩⟩
  obtain ⟨last, inv, settled, eq⟩ := iterate_settles kept falls start
  have fixed : round edges last = last := by simpa [pass] using settled
  refine ⟨last, fixed, inv.1, inv.2, ?_⟩
  have : iterate (missing members.size) pass (encoded own) = last := eq.trans fixed
  rw [← this]
  rfl

theorem size_saturate (sources : ∀ e ∈ edges, e.1 < own.size) :
    (saturate edges own).size = own.size := by
  obtain ⟨sets, -, below, -, eq⟩ := exists_collected sources
  rw [eq, Array.size_map, ← below.1, encoded, Array.size_map]

theorem mem_getD_map_decode {members : OrderedSet Int} {sets : Array Nat} {n : Nat} {t : Int} :
    t ∈ (sets.map (Bits.decode members)).getD n ∅ ↔
      ∃ i, members.toList[i]? = some t ∧ (sets.getD n 0).testBit i = true := by
  rw [Array.getD_eq_getD_getElem?, Array.getElem?_map, Array.getD_eq_getD_getElem?]
  cases sets[n]? with
  | some bits => exact Bits.mem_decode
  | none => simp

/-- Whatever the edges are, what is collected comes from the nodes. -/
theorem exists_of_mem_saturate {n : Nat} {t : Int} (mem : t ∈ (saturate edges own).getD n ∅) :
    ∃ m, t ∈ own.getD m ∅ := by
  obtain ⟨i, listed, -⟩ := mem_getD_map_decode.1 mem
  have member : t ∈ own.foldl OrderedSet.union ∅ := List.mem_of_getElem? listed
  rw [← Array.foldl_toList, mem_foldl_union] at member
  obtain ⟨u, listed, inside⟩ := member.resolve_left (OrderedSet.not_mem_empty t)
  obtain ⟨m, at_m⟩ := List.mem_iff_getElem?.1 listed
  rw [Array.getElem?_toList] at at_m
  exact ⟨m, by rwa [Array.getD_eq_getD_getElem?, at_m]⟩

/-- A node collects the own sets of all nodes that it leads to, and nothing else. -/
theorem mem_saturate (sources : ∀ e ∈ edges, e.1 < own.size) {n : Nat} {t : Int} :
    t ∈ (saturate edges own).getD n ∅ ↔ ∃ m, Leads edges n m ∧ t ∈ own.getD m ∅ := by
  obtain ⟨sets, fixed, below, within, eq⟩ := exists_collected sources
  have inside : ∀ e ∈ edges, e.1 < sets.size := by
    intro e he
    rw [← below.1, encoded, Array.size_map]
    exact sources e he
  rw [eq, mem_getD_map_decode]
  constructor
  · rintro ⟨i, listed, bit⟩
    obtain ⟨m, path, bit⟩ := within n i bit
    obtain ⟨u, hu, rfl⟩ := testBit_encoded.1 bit
    rw [List.getElem?_idxOf (mem_members hu)] at listed
    exact ⟨m, path, Option.some.inj listed ▸ hu⟩
  · rintro ⟨m, path, ht⟩
    refine ⟨_, List.getElem?_idxOf (mem_members ht), ?_⟩
    induction path using Relation.ReflTransGen.head_induction_on with
    | refl => exact below.testBit (testBit_encoded.2 ⟨t, ht, rfl⟩)
    | head edge _ ih => exact obeyed_of_round_eq inside fixed edge ih

theorem mem_saturate_own (sources : ∀ e ∈ edges, e.1 < own.size) {n : Nat} {t : Int}
    (mem : t ∈ own.getD n ∅) : t ∈ (saturate edges own).getD n ∅ :=
  (mem_saturate sources).2 ⟨n, .refl, mem⟩

theorem mem_saturate_edge (sources : ∀ e ∈ edges, e.1 < own.size) {n m : Nat} {t : Int}
    (edge : (n, m) ∈ edges) (mem : t ∈ (saturate edges own).getD m ∅) :
    t ∈ (saturate edges own).getD n ∅ := by
  obtain ⟨k, path, mem⟩ := (mem_saturate sources).1 mem
  exact (mem_saturate sources).2 ⟨k, .head edge path, mem⟩

/-- What holds of the own members of all nodes and passes against the edges holds of all that is
collected. -/
theorem saturate_induction (sources : ∀ e ∈ edges, e.1 < own.size) {P : Nat → Prop} {n : Nat} {t : Int}
    (base : ∀ n, t ∈ own.getD n ∅ → P n) (step : ∀ n m, (n, m) ∈ edges → P m → P n)
    (collected : t ∈ (saturate edges own).getD n ∅) : P n := by
  obtain ⟨m, path, mem⟩ := (mem_saturate sources).1 collected
  clear collected
  induction path using Relation.ReflTransGen.head_induction_on with
  | refl => exact base m mem
  | head edge _ ih => exact step _ _ edge ih

end ParserGenerator.Digraph
