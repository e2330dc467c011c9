import ParserGenerator.Proofs.Regex.Language
import ParserGenerator.Regex.Nfa

/-!
# The paths that expressions become

An expression is built into an automaton as paths between two nodes. Every text of its language is on one
of them. For the converse nodes are labelled with languages, such that along every arc the label behind
the arc, after what the arc reads, is part of the label in front: then what is read on a path leads from
the label at its end into the label at its start. A labelling that allows for the language between the two
nodes extends to the nodes that are added.
-/

namespace ParserGenerator

open Computability

/-- An arc from the node, on a character or on nothing. -/
def Node.Leads (property : PropertyTest) (x : Node) (j : Nat) : Option Char → Prop
  | none => j ∈ x.epsilons
  | some c => (c, j) ∈ x.arcs ∨ ∃ k, (k, j) ∈ x.classes ∧ k.test property c = true

namespace Nfa

variable {n n' n₁ n₂ : Nfa} {i j s f : Nat} {o : Option Char} {c : Char} {u v w : List Char}
  {L : Language Char}

def Edge (n : Nfa) (i : Nat) (o : Option Char) (j : Nat) : Prop :=
  ∃ x, n.nodes[i]? = some x ∧ x.Leads n.property j o

/-- A text is read from one node to another. -/
inductive Path (n : Nfa) : Nat → List Char → Nat → Prop
  | nil (i : Nat) : Path n i [] i
  | cons {i j k : Nat} {o : Option Char} {w : List Char} :
      n.Edge i o j → Path n j w k → Path n i (o.toList ++ w) k

theorem Path.append {k : Nat} (h : n.Path i u j) (h' : n.Path j v k) : n.Path i (u ++ v) k := by
  induction h with
  | nil => exact h'
  | cons edge _ ih =>
    rw [List.append_assoc]
    exact .cons edge (ih h')

theorem Path.of_edge (h : n.Edge i o j) : n.Path i o.toList j := by
  have path := Path.cons h (.nil j)
  rwa [List.append_nil] at path

theorem Path.mono (edges : ∀ {i o j}, n.Edge i o j → n'.Edge i o j) (h : n.Path i w j) : n'.Path i w j := by
  induction h with
  | nil i => exact .nil i
  | cons edge _ ih => exact .cons (edges edge) ih

/-- Arcs lead to nodes of the automaton. -/
def Inside (n : Nfa) : Prop := ∀ i o j, n.Edge i o j → j < n.nodes.size

/-- The acceptance of a node. -/
def acceptAt (n : Nfa) (i : Nat) : Option Acceptance := (n.nodes[i]?).bind Node.accept

theorem Edge.source (h : n.Edge i o j) : i < n.nodes.size := by
  obtain ⟨x, at_i, -⟩ := h
  exact (Array.getElem?_eq_some_iff.1 at_i).1

/-! ## Labels -/

/-- Along every arc, what it reads and then the label behind it are part of the label in front. -/
def Respects (n : Nfa) (Λ : Nat → Language Char) : Prop :=
  ∀ i o j, n.Edge i o j → ∀ w ∈ Λ j, o.toList ++ w ∈ Λ i

theorem Respects.of_path {Λ : Nat → Language Char} (h : n.Respects Λ) (path : n.Path i u j)
    (behind : v ∈ Λ j) : u ++ v ∈ Λ i := by
  induction path with
  | nil => exact behind
  | cons edge _ ih =>
    rw [List.append_assoc]
    exact h _ _ _ edge _ (ih behind)

/-- Labels of the nodes of an automaton may be changed elsewhere. -/
theorem Respects.congr {Λ Λ' : Nat → Language Char} (h : n.Respects Λ) (inside : n.Inside)
    (same : ∀ i < n.nodes.size, Λ' i = Λ i) : n.Respects Λ' := by
  intro i o j edge w mem
  rw [same j (inside i o j edge)] at mem
  rw [same i edge.source]
  exact h i o j edge w mem

/-! ## Steps of the construction -/

/-- Nodes and arcs are only added, and no acceptance. -/
structure Extends (n n' : Nfa) : Prop where
  size : n.nodes.size ≤ n'.nodes.size
  property : n'.property = n.property
  start : n'.start = n.start
  edges : ∀ {i o j}, n.Edge i o j → n'.Edge i o j
  accept : ∀ i, n'.acceptAt i = n.acceptAt i
  inside : n.Inside → n'.Inside

theorem Extends.trans (h : n.Extends n₁) (h' : n₁.Extends n₂) : n.Extends n₂ where
  size := h.size.trans h'.size
  property := h'.property.trans h.property
  start := h'.start.trans h.start
  edges := fun edge => h'.edges (h.edges edge)
  accept := fun i => (h'.accept i).trans (h.accept i)
  inside := fun inside => h'.inside (h.inside inside)

theorem edge_addNode : n.addNode.Edge i o j ↔ n.Edge i o j := by
  constructor
  · rintro ⟨x, at_i, leads⟩
    rw [addNode, Array.getElem?_push] at at_i
    split at at_i
    · cases at_i
      cases o with
      | none => cases leads
      | some c =>
        rcases leads with arc | ⟨k, arc, -⟩
        · cases arc
        · cases arc
    · exact ⟨x, at_i, leads⟩
  · rintro ⟨x, at_i, leads⟩
    refine ⟨x, ?_, leads⟩
    have := (Array.getElem?_eq_some_iff.1 at_i).1
    rw [addNode, Array.getElem?_push, if_neg (by omega), at_i]

theorem size_addNode : n.addNode.nodes.size = n.nodes.size + 1 := Array.size_push _

theorem extends_addNode : n.Extends n.addNode where
  size := size_addNode ▸ Nat.le_succ _
  property := rfl
  start := rfl
  edges := edge_addNode.2
  accept := by
    intro i
    rw [acceptAt, acceptAt, addNode, Array.getElem?_push]
    split
    · rename_i last
      rw [last, Array.getElem?_eq_none (Nat.le_refl _)]
      rfl
    · rfl
  inside := by
    intro inside i o j edge
    rw [size_addNode]
    exact Nat.lt_succ_of_lt (inside i o j (edge_addNode.1 edge))

/-! A change of a node that gives it arcs to one target, on what `O` tells. -/

section Change

variable {g : Node → Node} {O : Option Char → Prop} {t : Nat} {Λ : Nat → Language Char}
  (hi : i < n.nodes.size)
  (leads : ∀ x o j, (g x).Leads n.property j o ↔ x.Leads n.property j o ∨ O o ∧ j = t)
include hi leads

theorem edge_change {a b : Nat} : (n.change i g).Edge a o b ↔ n.Edge a o b ∨ a = i ∧ O o ∧ b = t := by
  have at_a : (n.change i g).nodes[a]? = if i = a then n.nodes[a]?.map g else n.nodes[a]? :=
    Array.getElem?_modify
  constructor
  · rintro ⟨x, found, along⟩
    rw [at_a] at found
    split at found
    · rename_i same
      obtain ⟨y, at_y, rfl⟩ := Option.map_eq_some_iff.1 found
      exact ((leads y o b).1 along).imp (fun old => ⟨y, at_y, old⟩) fun new => ⟨same.symm, new⟩
    · exact .inl ⟨x, found, along⟩
  · rintro (⟨x, found, along⟩ | ⟨rfl, new⟩)
    · by_cases same : i = a
      · exact ⟨g x, by rw [at_a, if_pos same, found]; rfl, (leads x o b).2 (.inl along)⟩
      · exact ⟨x, by rw [at_a, if_neg same, found], along⟩
    · refine ⟨g n.nodes[a], ?_, (leads _ o b).2 (.inr new)⟩
      rw [at_a, if_pos rfl, Array.getElem?_eq_getElem hi]
      rfl

theorem extends_change (accept : ∀ x, (g x).accept = x.accept) (ht : t < n.nodes.size) :
    n.Extends (n.change i g) := by
  have size : (n.change i g).nodes.size = n.nodes.size := Array.size_modify
  refine ⟨size.ge, rfl, rfl, fun edge => (edge_change hi leads).2 (.inl edge), fun a => ?_, ?_⟩
  · rw [acceptAt, acceptAt, change, Array.getElem?_modify]
    split
    · cases n.nodes[a]? with
      | none => rfl
      | some x => exact accept x
    · rfl
  · intro inside a o b edge
    rw [size]
    rcases (edge_change hi leads).1 edge with old | ⟨-, -, rfl⟩
    · exact inside a o b old
    · exact ht

theorem Respects.change (h : n.Respects Λ) (new : ∀ o, O o → ∀ w ∈ Λ t, o.toList ++ w ∈ Λ i) :
    (n.change i g).Respects Λ := by
  intro a o b edge
  rcases (edge_change hi leads).1 edge with old | ⟨rfl, added, rfl⟩
  · exact h a o b old
  · exact new o added

end Change

section Leads

variable {t : Nat} {k : CharClass} {property : PropertyTest} {x : Node}

theorem leads_epsilon : Node.Leads property { x with epsilons := x.epsilons ++ [t] } j o ↔
    x.Leads property j o ∨ o = none ∧ j = t := by
  cases o <;> simp [Node.Leads]

theorem leads_arc : Node.Leads property { x with arcs := x.arcs ++ [(c, t)] } j o ↔
    x.Leads property j o ∨ o = some c ∧ j = t := by
  cases o with
  | none => simp [Node.Leads]
  | some a => simp [Node.Leads, or_right_comm]

theorem leads_class : Node.Leads property { x with classes := x.classes ++ [(k, t)] } j o ↔
    x.Leads property j o ∨ (∃ c, o = some c ∧ k.test property c = true) ∧ j = t := by
  cases o with
  | none => simp [Node.Leads]
  | some a =>
    simp only [Node.Leads, List.mem_append, List.mem_singleton, Prod.mk.injEq, Option.some.injEq,
      exists_eq_left', or_and_right, exists_or, or_assoc]
    have only : (∃ m, (m = k ∧ j = t) ∧ m.test property a = true) ↔
        k.test property a = true ∧ j = t := by
      constructor
      · rintro ⟨m, ⟨rfl, rfl⟩, passes⟩
        exact ⟨passes, rfl⟩
      · rintro ⟨passes, rfl⟩
        exact ⟨k, ⟨rfl, rfl⟩, passes⟩
    rw [only]

end Leads

/-! ## Paths for a language -/

/-- Between two nodes the texts of a language were added as paths, and no others. -/
structure Realises (L : Language Char) (s f : Nat) (n n' : Nfa) : Prop extends Extends n n' where
  complete : ∀ w ∈ L, n'.Path s w f
  sound : n.Inside → ∀ {Λ : Nat → Language Char}, n.Respects Λ → L * Λ f ≤ Λ s →
    ∃ Λ' : Nat → Language Char, (∀ i < n.nodes.size, Λ' i = Λ i) ∧ n'.Respects Λ'

theorem realises_change {g : Node → Node} {O : Option Char → Prop} (hs : s < n.nodes.size)
    (hf : f < n.nodes.size)
    (leads : ∀ x o j, (g x).Leads n.property j o ↔ x.Leads n.property j o ∨ O o ∧ j = f)
    (accept : ∀ x, (g x).accept = x.accept) (whole : ∀ w, w ∈ L ↔ ∃ o, O o ∧ w = o.toList) :
    Realises L s f n (n.change s g) where
  toExtends := extends_change hs leads accept hf
  complete := by
    intro w mem
    obtain ⟨o, holds, rfl⟩ := (whole w).1 mem
    exact .of_edge ((edge_change hs leads).2 (.inr ⟨rfl, holds, rfl⟩))
  sound := by
    intro _ Λ h part
    refine ⟨Λ, fun _ _ => rfl, h.change hs leads fun o holds w mem => part ?_⟩
    exact Language.append_mem_mul ((whole _).2 ⟨o, holds, rfl⟩) mem

theorem realises_epsilon (hs : s < n.nodes.size) (hf : f < n.nodes.size) :
    Realises 1 s f n (n.addEpsilon s f) := by
  refine realises_change hs hf (fun x o j => leads_epsilon) (fun _ => rfl) fun w => ?_
  rw [Language.mem_one]
  constructor
  · rintro rfl
    exact ⟨none, rfl, rfl⟩
  · rintro ⟨_, rfl, rfl⟩
    rfl

theorem realises_class {k : CharClass} (hs : s < n.nodes.size) (hf : f < n.nodes.size) :
    Realises ((Regex.oneOf k).language n.property) s f n (n.addClass s k f) := by
  refine realises_change hs hf (fun x o j => leads_class) (fun _ => rfl) fun w => ?_
  constructor
  · rintro ⟨c, passes, rfl⟩
    exact ⟨some c, ⟨c, rfl, passes⟩, rfl⟩
  · rintro ⟨_, ⟨c, rfl, passes⟩, rfl⟩
    exact ⟨c, passes, rfl⟩

theorem realises_arc (hs : s < n.nodes.size) (hf : f < n.nodes.size) :
    Realises {[c]} s f n (n.addArc s c f) := by
  refine realises_change hs hf (fun x o j => leads_arc) (fun _ => rfl) fun w => ?_
  constructor
  · rintro rfl
    exact ⟨some c, rfl, rfl⟩
  · rintro ⟨_, rfl, rfl⟩
    rfl

theorem edge_addEpsilon (hi : i < n.nodes.size) : (n.addEpsilon i j).Edge i none j :=
  (edge_change hi fun _ _ _ => leads_epsilon).2 (.inr ⟨rfl, rfl, rfl⟩)

theorem Respects.addEpsilon {Λ : Nat → Language Char} (h : n.Respects Λ) (hi : i < n.nodes.size)
    (part : Λ j ≤ Λ i) : (n.addEpsilon i j).Respects Λ := by
  refine h.change hi (fun _ _ _ => leads_epsilon) ?_
  rintro _ rfl w mem
  exact part mem

/-- Nothing is added for the empty language. -/
theorem realises_zero : Realises 0 s f n n where
  size := Nat.le_refl _
  property := rfl
  start := rfl
  edges := fun edge => edge
  accept := fun _ => rfl
  inside := fun inside => inside
  complete := fun w mem => absurd mem (Language.notMem_zero w)
  sound := fun _ Λ h _ => ⟨Λ, fun _ _ => rfl, h⟩

variable {M : Language Char}

/-- Paths for two languages between the same nodes. -/
theorem Realises.or (h : Realises L s f n n₁) (h' : Realises M s f n₁ n₂) (hs : s < n.nodes.size)
    (hf : f < n.nodes.size) : Realises (L + M) s f n n₂ where
  toExtends := h.toExtends.trans h'.toExtends
  complete := by
    intro w mem
    rcases (Language.mem_add L M w).1 mem with first | second
    · exact (h.complete w first).mono h'.edges
    · exact h'.complete w second
  sound := by
    intro inside Λ respects part
    rw [add_mul] at part
    obtain ⟨Λ₁, same₁, respects₁⟩ := h.sound inside respects (le_trans le_self_add part)
    have part' : M * Λ₁ f ≤ Λ₁ s := by
      rw [same₁ f hf, same₁ s hs]
      exact le_trans le_add_self part
    obtain ⟨Λ₂, same₂, respects₂⟩ := h'.sound (h.inside inside) respects₁ part'
    exact ⟨Λ₂, fun i hi => (same₂ i (hi.trans_le h.size)).trans (same₁ i hi), respects₂⟩

/-- Labels of nodes that there are not yet may be chosen. -/
theorem Respects.update {Λ : Nat → Language Char} (h : n.Respects Λ) (inside : n.Inside)
    (A : Language Char) : n.addNode.Respects (Function.update Λ n.nodes.size A) := by
  have kept : n.Respects (Function.update Λ n.nodes.size A) :=
    h.congr inside fun i hi => Function.update_of_ne (Nat.ne_of_lt hi) _ _
  intro i o j edge
  exact kept i o j (edge_addNode.1 edge)

/-- Paths for one language to a fresh node and for another one from there. -/
theorem Realises.seq (h : Realises L s n.nodes.size n.addNode n₁) (h' : Realises M n.nodes.size f n₁ n₂)
    (hs : s < n.nodes.size) (hf : f < n.nodes.size) : Realises (L * M) s f n n₂ where
  toExtends := (extends_addNode.trans h.toExtends).trans h'.toExtends
  complete := by
    intro w mem
    obtain ⟨u, first, v, second, rfl⟩ := Language.mem_mul.1 mem
    exact ((h.complete u first).mono h'.edges).append (h'.complete v second)
  sound := by
    intro inside Λ respects part
    have old : ∀ i < n.nodes.size, Function.update Λ n.nodes.size (M * Λ f) i = Λ i :=
      fun i hi => Function.update_of_ne (Nat.ne_of_lt hi) _ _
    have room : ∀ i ≤ n.nodes.size, i < n.addNode.nodes.size :=
      fun i hi => size_addNode ▸ Nat.lt_succ_of_le hi
    obtain ⟨Λ₁, same₁, respects₁⟩ := h.sound (extends_addNode.inside inside)
      (respects.update inside (M * Λ f)) (by
        rw [Function.update_self, old s hs, ← mul_assoc]
        exact part)
    obtain ⟨Λ₂, same₂, respects₂⟩ := h'.sound (h.inside (extends_addNode.inside inside)) respects₁ (by
      rw [same₁ f (room f hf.le), same₁ _ (room _ (Nat.le_refl _)), old f hf, Function.update_self])
    refine ⟨Λ₂, fun i hi => ?_, respects₂⟩
    have grown : i < n₁.nodes.size := (room i hi.le).trans_le h.size
    rw [same₂ i grown, same₁ i (room i hi.le), old i hi]

/-- A construction of paths for a language between any two nodes. -/
structure Builds (property : PropertyTest) (L : Language Char) (paths : Nat → Nat → Nfa → Nfa) : Prop where
  realises : ∀ {s f n}, s < n.nodes.size → f < n.nodes.size → n.property = property →
    Realises L s f n (paths s f n)

section Builds

variable {property : PropertyTest} {paths : Nat → Nat → Nfa → Nfa}

theorem builds_chain (cs : List Char) : Builds property {cs} fun s f => addChain f cs s := by
  induction cs with
  | nil => exact ⟨fun hs hf _ => realises_epsilon hs hf⟩
  | cons c cs ih =>
    refine ⟨fun {s f n} hs hf tested => ?_⟩
    have split : ({c :: cs} : Language Char) = {[c]} * {cs} := by
      ext w
      rw [Language.mem_mul]
      constructor
      · rintro rfl
        exact ⟨[c], rfl, cs, rfl, rfl⟩
      · rintro ⟨_, rfl, _, rfl, rfl⟩
        rfl
    have room : ∀ i ≤ n.nodes.size, i < n.addNode.nodes.size :=
      fun i hi => size_addNode ▸ Nat.lt_succ_of_le hi
    have first := realises_arc (c := c) (room s hs.le) (room _ (Nat.le_refl _))
    rw [split]
    exact first.seq (ih.realises ((room _ (Nat.le_refl _)).trans_le first.size)
      ((room f hf.le).trans_le first.size) (first.property.trans tested)) hs hf

/-- Two fresh nodes with paths between them, of which the first is entered on nothing. -/
structure Opens (L : Language Char) (s : Nat) (n n' : Nfa) : Prop extends Extends n n' where
  room : n.nodes.size + 2 ≤ n'.nodes.size
  enter : n'.Edge s none n.nodes.size
  within : ∀ w ∈ L, n'.Path n.nodes.size w (n.nodes.size + 1)
  sound : n.Inside → ∀ {Λ : Nat → Language Char} {A B : Language Char}, n.Respects Λ → L * B ≤ A →
    A ≤ Λ s → ∃ Λ' : Nat → Language Char, (∀ i < n.nodes.size, Λ' i = Λ i) ∧
      Λ' n.nodes.size = A ∧ Λ' (n.nodes.size + 1) = B ∧ n'.Respects Λ'

theorem Builds.opens (h : Builds property L paths) (hs : s < n.nodes.size) (tested : n.property = property) :
    Opens L s n (paths n.nodes.size (n.nodes.size + 1) (n.addNode.addNode.addEpsilon s n.nodes.size)) := by
  have two : n.addNode.addNode.nodes.size = n.nodes.size + 2 := by rw [size_addNode, size_addNode]
  have hs₁ : s < n.addNode.addNode.nodes.size := by omega
  have fresh : n.Extends n.addNode.addNode := extends_addNode.trans extends_addNode
  have way_in := realises_epsilon hs₁ (by omega : n.nodes.size < n.addNode.addNode.nodes.size)
  have size_in := way_in.size
  have inner := h.realises (s := n.nodes.size) (f := n.nodes.size + 1) (by omega) (by omega)
    (way_in.property.trans tested)
  refine ⟨(fresh.trans way_in.toExtends).trans inner.toExtends, (two ▸ size_in).trans inner.size,
    inner.edges (edge_addEpsilon hs₁), inner.complete, ?_⟩
  intro inside Λ A B respects part front
  have respects₁ := (respects.update inside A).update (extends_addNode.inside inside) B
  rw [size_addNode] at respects₁
  have old : ∀ i < n.nodes.size, Function.update (Function.update Λ n.nodes.size A)
      (n.nodes.size + 1) B i = Λ i := by
    intro i hi
    rw [Function.update_of_ne (by omega), Function.update_of_ne (by omega)]
  have first : Function.update (Function.update Λ n.nodes.size A) (n.nodes.size + 1) B
      n.nodes.size = A := by
    rw [Function.update_of_ne (by omega), Function.update_self]
  have second : Function.update (Function.update Λ n.nodes.size A) (n.nodes.size + 1) B
      (n.nodes.size + 1) = B := Function.update_self ..
  have respects₂ := respects₁.addEpsilon hs₁ (j := n.nodes.size) (by rwa [old s hs, first])
  obtain ⟨Λ', same, respects'⟩ := inner.sound (way_in.inside (fresh.inside inside)) respects₂ (by
    rwa [first, second])
  exact ⟨Λ', fun i hi => (same i (by omega)).trans (old i hi), (same _ (by omega)).trans first,
    (same _ (by omega)).trans second, respects'⟩

/-- Such nodes of which the second one is left on nothing. -/
structure Encloses (L : Language Char) (s f : Nat) (n n' : Nfa) : Prop extends Extends n n' where
  room : n.nodes.size + 2 ≤ n'.nodes.size
  enter : n'.Edge s none n.nodes.size
  leave : n'.Edge (n.nodes.size + 1) none f
  within : ∀ w ∈ L, n'.Path n.nodes.size w (n.nodes.size + 1)
  sound : n.Inside → ∀ {Λ : Nat → Language Char} {A B : Language Char}, n.Respects Λ → L * B ≤ A →
    A ≤ Λ s → Λ f ≤ B → ∃ Λ' : Nat → Language Char, (∀ i < n.nodes.size, Λ' i = Λ i) ∧
      Λ' n.nodes.size = A ∧ Λ' (n.nodes.size + 1) = B ∧ n'.Respects Λ'

theorem Builds.encloses (h : Builds property L paths) (hs : s < n.nodes.size) (hf : f < n.nodes.size)
    (tested : n.property = property) : Encloses L s f n (between s f paths n) := by
  have opened := h.opens hs tested
  have room := opened.room
  have last : n.nodes.size + 1 < (paths n.nodes.size (n.nodes.size + 1)
      (n.addNode.addNode.addEpsilon s n.nodes.size)).nodes.size := by omega
  have way_out := realises_epsilon last (by omega : f < _)
  refine ⟨opened.toExtends.trans way_out.toExtends, room.trans way_out.size, way_out.edges opened.enter,
    edge_addEpsilon last, fun w mem => (opened.within w mem).mono way_out.edges, ?_⟩
  intro inside Λ A B respects part front behind
  obtain ⟨Λ', same, first, second, respects'⟩ := opened.sound inside respects part front
  refine ⟨Λ', same, first, second, respects'.addEpsilon last ?_⟩
  rwa [same f hf, second]

theorem Builds.between (h : Builds property L paths) :
    Builds property L fun s f => between s f paths := by
  refine ⟨fun {s f n} hs hf tested => ?_⟩
  have enclosed := h.encloses hs hf tested
  refine ⟨enclosed.toExtends, fun w mem => ?_, fun inside Λ respects part => ?_⟩
  · have path := (Path.of_edge enclosed.enter).append
      ((enclosed.within w mem).append (Path.of_edge enclosed.leave))
    rwa [Option.toList_none, List.append_nil, List.nil_append] at path
  · obtain ⟨Λ', same, -, -, respects'⟩ := enclosed.sound inside respects le_rfl part le_rfl
    exact ⟨Λ', same, respects'⟩

/-- A text that may be read once can be read any number of times, where the end leads back. -/
theorem Path.repeat {first last : Nat} (within : ∀ w ∈ L, n.Path first w last)
    (back : n.Edge last none first) : ∀ w ∈ L * L∗, n.Path first w last := by
  have again : ∀ ws : List (List Char), (∀ v ∈ ws, v ∈ L) → n.Path last ws.flatten last := by
    intro ws
    induction ws with
    | nil => exact fun _ => .nil last
    | cons v ws ih =>
      intro among
      obtain ⟨head, tail⟩ := List.forall_mem_cons.1 among
      exact .cons back ((within v head).append (ih tail))
  intro w mem
  obtain ⟨u, once, v, often, rfl⟩ := Language.mem_mul.1 mem
  obtain ⟨ws, rfl, among⟩ := Language.mem_kstar.1 often
  exact (within u once).append (again ws among)

theorem Builds.plus (h : Builds property L paths) : Builds property (L * L∗) fun s f n =>
    (Nfa.between s f paths n).addEpsilon (n.nodes.size + 1) n.nodes.size := by
  refine ⟨fun {s f n} hs hf tested => ?_⟩
  have enclosed := h.encloses hs hf tested
  have room := enclosed.room
  have last : n.nodes.size + 1 < (Nfa.between s f paths n).nodes.size := by omega
  have back := realises_epsilon last (by omega : n.nodes.size < _)
  refine ⟨enclosed.toExtends.trans back.toExtends, fun w mem => ?_, fun inside Λ respects part => ?_⟩
  · have path := (Path.of_edge (back.edges enclosed.enter)).append
      ((Path.repeat (fun w mem => (enclosed.within w mem).mono back.edges) (edge_addEpsilon last)
        w mem).append (Path.of_edge (back.edges enclosed.leave)))
    rwa [Option.toList_none, List.append_nil, List.nil_append] at path
  · have once : L * (L∗ * Λ f) ≤ L * L∗ * Λ f := (mul_assoc _ _ _).ge
    have none : Λ f ≤ L∗ * Λ f := le_mul_of_one_le_left' one_le_kstar
    obtain ⟨Λ', same, front, behind, respects'⟩ := enclosed.sound inside respects once part none
    refine ⟨Λ', same, respects'.addEpsilon last ?_⟩
    rw [front, behind]
    exact mul_le_mul_left mul_kstar_le_kstar _

/-- Paths with the way past them. -/
theorem Builds.optional (h : Builds property L paths) :
    Builds property (L + 1) fun s f n => (paths s f n).addEpsilon s f := by
  refine ⟨fun {s f n} hs hf tested => ?_⟩
  have first := h.realises hs hf tested
  exact first.or (realises_epsilon (hs.trans_le first.size) (hf.trans_le first.size)) hs hf

end Builds

mutual

/-- The construction adds the paths for the language of an expression. -/
theorem builds_addRegex (property : PropertyTest) : ∀ r : Regex,
    Builds property (r.language property) (addRegex r)
  | .empty => ⟨fun hs hf _ => by
    rw [Regex.language, addRegex]
    exact realises_epsilon hs hf⟩
  | .literal text => ⟨fun hs hf tested => by
    rw [Regex.language, addRegex]
    exact (builds_chain text.toList).realises hs hf tested⟩
  | .oneOf c => ⟨fun hs hf tested => by
    rw [addRegex, ← tested]
    exact realises_class hs hf⟩
  | .concat parts => ⟨fun hs hf tested => by
    rw [Regex.language, addRegex]
    exact (builds_addConcat property parts).realises hs hf tested⟩
  | .alt options => ⟨fun hs hf tested => by
    rw [Regex.language, addRegex]
    exact (builds_addAlt property options).realises hs hf tested⟩
  | .star r => ⟨fun hs hf tested => by
    rw [Regex.language, addRegex, ← Language.one_add_self_mul_kstar_eq_kstar, add_comm]
    exact (builds_addRegex property r).plus.optional.realises hs hf tested⟩
  | .plus r => ⟨fun hs hf tested => by
    rw [Regex.language, addRegex]
    exact (builds_addRegex property r).plus.realises hs hf tested⟩
  | .opt r => ⟨fun hs hf tested => by
    rw [Regex.language, addRegex, add_comm]
    exact (builds_addRegex property r).between.optional.realises hs hf tested⟩

theorem builds_addConcat (property : PropertyTest) : ∀ rs : List Regex,
    Builds property (Regex.languages property rs).prod (addConcat rs)
  | [] => ⟨fun hs hf _ => by
    rw [Regex.languages, addConcat]
    exact realises_epsilon hs hf⟩
  | [r] => ⟨fun hs hf tested => by
    rw [Regex.languages, Regex.languages, List.prod_singleton, addConcat]
    exact (builds_addRegex property r).realises hs hf tested⟩
  | r :: r' :: rs => ⟨fun {s f n} hs hf tested => by
    rw [Regex.languages, List.prod_cons, addConcat]
    have room : ∀ i ≤ n.nodes.size, i < n.addNode.nodes.size :=
      fun i hi => size_addNode ▸ Nat.lt_succ_of_le hi
    have first := (builds_addRegex property r).realises (room s hs.le) (room _ (Nat.le_refl _)) tested
    have rest := (builds_addConcat property (r' :: rs)).realises
      ((room _ (Nat.le_refl _)).trans_le first.size) ((room f hf.le).trans_le first.size)
      (first.property.trans tested)
    exact first.seq rest hs hf
    exact nofun⟩

theorem builds_addAlt (property : PropertyTest) : ∀ rs : List Regex,
    Builds property (Regex.languages property rs).sum (addAlt rs)
  | [] => ⟨fun _ _ _ => realises_zero⟩
  | r :: rs => ⟨fun hs hf tested => by
    rw [Regex.languages, List.sum_cons, addAlt]
    have first := (builds_addRegex property r).between.realises hs hf tested
    exact first.or ((builds_addAlt property rs).realises (hs.trans_le first.size)
      (hf.trans_le first.size) (first.property.trans tested)) hs hf⟩

end

end Nfa

end ParserGenerator
