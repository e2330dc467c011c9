import ParserGenerator.LR.Digraph
import Mathlib.Data.Set.Basic
import Mathlib.Logic.Relation

/-!
# The layers of a search's stack

A search's stack is cut into layers, one for each visit: the visited node, and above it the nodes that were
met from it and whose visits have ended although they reach further down. What these have collected and how
low they reach has been handed to the visited node. A component is closed when its layer reaches no lower
than its own visited node; no edge leads out of it then but to nodes that are done.
-/

namespace ParserGenerator.Digraph

variable {α : Type} [DecidableEq α] {g : Digraph α} {own : α → Set Int} {x y z : α}

def Reaches (g : Digraph α) : α → α → Prop :=
  Relation.ReflTransGen fun x y => y ∈ g.successors x

theorem Reaches.of_edge (edge : y ∈ g.successors x) : g.Reaches x y := .single edge

/-- All members of the own sets of the nodes that a node reaches. -/
def gathered (g : Digraph α) (own : α → Set Int) (x : α) : Set Int :=
  {i | ∃ y, g.Reaches x y ∧ i ∈ own y}

theorem own_subset_gathered : own x ⊆ g.gathered own x := fun _ mem => ⟨x, .refl, mem⟩

theorem Reaches.gathered_subset (path : g.Reaches x y) : g.gathered own y ⊆ g.gathered own x := by
  rintro i ⟨z, rest, mem⟩
  exact ⟨z, path.trans rest, mem⟩

theorem Reaches.gathered_eq (path : g.Reaches x y) (back : g.Reaches y x) :
    g.gathered own x = g.gathered own y :=
  Set.Subset.antisymm back.gathered_subset path.gathered_subset

/-! ## Heights on a stack -/

/-- The height of a node on a stack; the top comes first. -/
def rank : List α → α → Nat
  | [], _ => 0
  | y :: ys, x => if y = x then ys.length + 1 else rank ys x

theorem rank_le (S : List α) (x : α) : rank S x ≤ S.length := by
  induction S with
  | nil => exact Nat.le_refl 0
  | cons y ys ih =>
    rw [rank, List.length_cons]
    split
    · exact Nat.le_refl _
    · exact Nat.le_succ_of_le ih

theorem rank_pos {S : List α} (mem : x ∈ S) : 0 < rank S x := by
  induction S with
  | nil => cases mem
  | cons y ys ih =>
    rw [rank]
    split
    · exact Nat.succ_pos _
    · rename_i other
      exact ih ((List.mem_cons.1 mem).resolve_left (Ne.symm other))

theorem rank_append {top : List α} (above : x ∉ top) (S : List α) : rank (top ++ S) x = rank S x := by
  induction top with
  | nil => rfl
  | cons y ys ih =>
    rw [List.mem_cons, not_or] at above
    rw [List.cons_append, rank, if_neg (Ne.symm above.1), ih above.2]

/-- A node of the lower part of a stack has its height there. -/
theorem rank_eq {top base : List α} (nodup : (top ++ base).Nodup) (mem : x ∈ base) :
    rank (top ++ base) x = rank base x :=
  rank_append (fun above => (List.nodup_append.1 nodup).2.2 x above x mem rfl) base

theorem rank_top {top base : List α} (nodup : (top ++ x :: base).Nodup) :
    rank (top ++ x :: base) x = base.length + 1 := by
  rw [rank_eq nodup List.mem_cons_self, rank, if_pos rfl]

/-! ## Layers -/

section Layers

variable (g own) (d : α → Nat) (c : α → Set Int)

/-- An edge whose target has been met leads to a node that is done, with its members handed on, or to a
node on the stack that is not below what the source reaches. -/
def Settles (S : List α) (x y : α) : Prop :=
  d y = bottom ∧ g.gathered own y ⊆ c x ∨ y ∈ S ∧ d x ≤ rank S y

/-- The depth of a node is the height of a node that it reaches, itself or one below it. -/
def Grounded (S : List α) (x : α) : Prop :=
  d x ≤ rank S x ∧ ∃ z ∈ S, rank S z = d x ∧ g.Reaches x z

/-- A node above the visited one in its layer. What it has is with the visited node, or with a pending one,
which has been met from the visited node and is yet to hand it over. -/
structure Owned (pending : List α) (x : α) (S : List α) (u : α) : Prop where
  path : g.Reaches x u
  handed : ∃ z ∈ S, (z = x ∨ z ∈ pending) ∧ c u ⊆ c z ∧ d z ≤ d u
  edge : ∀ y ∈ g.successors u, Settles g own d c S u y
  low : Grounded g d S u
  down : d u < rank S u

/-- A visited node, the nodes of its layer above it and the stack below it. -/
structure Layer (pending : List α) (v : Visit α) (owned base : List α) : Prop where
  height : v.height = base.length + 1
  along : ∀ y ∈ v.rest ++ pending, y ∈ g.successors v.node
  edge : ∀ y ∈ g.successors v.node, y ∈ v.rest ++ pending ∨
    Settles g own d c (owned ++ v.node :: base) v.node y
  node : Grounded g d (owned ++ v.node :: base) v.node
  owned : ∀ u ∈ owned, Owned g own d c pending v.node (owned ++ v.node :: base) u

/-- A stack in layers, those of the visits begun last on top. Each visited node but the topmost waits for the
one above it. -/
inductive Layered : List α → List (Visit α) → List α → Prop
  | none (pending : List α) : Layered pending [] []
  | layer {pending : List α} {v : Visit α} {visits : List (Visit α)} {owned base : List α} :
      Layer g own d c pending v owned base → Layered [v.node] visits base →
      Layered pending (v :: visits) (owned ++ v.node :: base)

end Layers

variable {d d' : α → Nat} {c c' : α → Set Int} {pending : List α} {v p : Visit α}
  {visits : List (Visit α)} {owned base S : List α}

theorem Settles.congr (same : d' x = d x ∧ c' x = c x) (done : ∀ y, d y = bottom → d' y = bottom)
    (settles : Settles g own d c S x y) : Settles g own d' c' S x y := by
  rw [Settles, same.1, same.2]
  exact settles.imp_left fun done' => ⟨done _ done'.1, done'.2⟩

theorem Settles.above {top : List α} (nodup : (top ++ S).Nodup) (settles : Settles g own d c S x y) :
    Settles g own d c (top ++ S) x y := by
  refine settles.imp_right fun on => ⟨List.mem_append_right _ on.1, ?_⟩
  rw [rank_eq nodup on.1]
  exact on.2

theorem Grounded.congr (same : d' x = d x) (grounded : Grounded g d S x) : Grounded g d' S x := by
  rw [Grounded, same]
  exact grounded

theorem Grounded.above {top : List α} (nodup : (top ++ S).Nodup) (mem : x ∈ S)
    (grounded : Grounded g d S x) : Grounded g d (top ++ S) x := by
  obtain ⟨deep, z, on, height, path⟩ := grounded
  rw [Grounded, rank_eq nodup mem]
  exact ⟨deep, z, List.mem_append_right _ on, (rank_eq nodup on).trans height, path⟩

theorem Grounded.lt_bottom (few : S.length < bottom) (grounded : Grounded g d S x) : d x < bottom :=
  Nat.lt_of_le_of_lt (grounded.1.trans (rank_le S x)) few

theorem Owned.congr (same : ∀ u ∈ S, d' u = d u ∧ c' u = c u) (done : ∀ y, d y = bottom → d' y = bottom)
    (on : x ∈ S) (owned : Owned g own d c pending z S x) : Owned g own d' c' pending z S x := by
  obtain ⟨u, on', which, held, deep⟩ := owned.handed
  refine ⟨owned.path, ⟨u, on', which, ?_⟩, fun y edge => (owned.edge y edge).congr (same x on) done,
    owned.low.congr (same x on).1, ?_⟩
  · rw [(same x on).1, (same x on).2, (same u on').1, (same u on').2]
    exact ⟨held, deep⟩
  · rw [(same x on).1]
    exact owned.down

/-- A layer depends on the depths and the members of its own nodes and of those below, and on which nodes are
done. -/
theorem Layer.congr (same : ∀ u ∈ owned ++ v.node :: base, d' u = d u ∧ c' u = c u)
    (done : ∀ y, d y = bottom → d' y = bottom) (layer : Layer g own d c pending v owned base) :
    Layer g own d' c' pending v owned base := by
  have node := same v.node (List.mem_append_right _ List.mem_cons_self)
  refine ⟨layer.height, layer.along, ?_, layer.node.congr node.1, ?_⟩
  · exact fun y edge => (layer.edge y edge).imp_right (.congr node done)
  · exact fun u mem => (layer.owned u mem).congr same done (List.mem_append_left _ mem)

theorem Layered.congr (same : ∀ u ∈ S, d' u = d u ∧ c' u = c u)
    (done : ∀ y, d y = bottom → d' y = bottom) (layered : Layered g own d c pending visits S) :
    Layered g own d' c' pending visits S := by
  induction layered with
  | none pending => exact .none pending
  | layer top _ ih =>
    refine .layer (top.congr same done) (ih fun u mem => same u ?_)
    exact List.mem_append_right _ (List.mem_cons_of_mem _ mem)

theorem Layered.grounded (layered : Layered g own d c pending visits S) (nodup : S.Nodup) :
    ∀ u ∈ S, Grounded g d S u := by
  induction layered with
  | none => exact fun u mem => absurd mem List.not_mem_nil
  | @layer pending v visits owned base top _ ih =>
    intro u mem
    rcases List.mem_append.1 mem with above | below
    · exact (top.owned u above).low
    · rcases List.mem_cons.1 below with rfl | below
      · exact top.node
      · rw [List.append_cons] at nodup ⊢
        exact (ih (List.nodup_append.1 nodup).2.1 u below).above nodup below

theorem Layered.exists_layer (layered : Layered g own d c pending (v :: visits) S) :
    ∃ owned base, S = owned ++ v.node :: base ∧ Layer g own d c pending v owned base ∧
      Layered g own d c [v.node] visits base := by
  cases layered with
  | layer top below => exact ⟨_, _, rfl, top, below⟩

theorem Layered.stack_eq_nil (layered : Layered g own d c pending [] S) : S = [] := by
  cases layered
  rfl

/-! ## Steps -/

/-- The next edge of the node that was met last is taken up. -/
theorem Layered.take {rest : List α} {height : Nat}
    (layered : Layered g own d c [] (⟨x, y :: rest, height⟩ :: visits) S) :
    Layered g own d c [y] (⟨x, rest, height⟩ :: visits) S := by
  cases layered with
  | layer top below =>
    have moved : ∀ z, z ∈ rest ++ [y] ↔ z ∈ (y :: rest) ++ [] := by
      intro z
      rw [List.append_nil, List.mem_append, List.mem_singleton, List.mem_cons, or_comm]
    refine .layer (v := ⟨x, rest, height⟩) ⟨top.height, ?_, ?_, top.node, ?_⟩ below
    · exact fun z mem => top.along z ((moved z).1 mem)
    · exact fun z edge => (top.edge z edge).imp_left (moved z).2
    · intro u mem
      have owned := top.owned u mem
      obtain ⟨z, on, which, held⟩ := owned.handed
      exact { owned with handed := ⟨z, on, .inl (which.resolve_right List.not_mem_nil), held⟩ }

/-- A node that is met begins a layer of its own. -/
theorem Layered.enter (layered : Layered g own d c [y] visits S) (new : y ∉ S) (unmet : d y ≠ bottom)
    (at_y : d' y = S.length + 1) (same : ∀ u, u ≠ y → d' u = d u) :
    Layered g own d' c [] (⟨y, g.successors y, S.length + 1⟩ :: visits) (y :: S) := by
  have height : rank (y :: S) y = S.length + 1 := by rw [rank, if_pos rfl]
  have top : Layer g own d' c [] ⟨y, g.successors y, S.length + 1⟩ [] S := by
    refine ⟨rfl, fun z mem => by rwa [List.append_nil] at mem, fun z edge => .inl (List.mem_append_left _ edge),
      ?_, fun u mem => absurd mem List.not_mem_nil⟩
    exact ⟨(at_y.trans height.symm).le, y, List.mem_cons_self, height.trans at_y.symm, .refl⟩
  refine .layer top (layered.congr ?_ ?_)
  · exact fun u mem => ⟨same u fun eq => new (eq ▸ mem), rfl⟩
  · exact fun z done => (same z fun eq => unmet (eq ▸ done)).trans done

/-- A pending node hands what it has to the visited one. -/
theorem Layer.gather (layer : Layer g own d c [y] v owned base) (nodup : (owned ++ v.node :: base).Nodup)
    (few : (owned ++ v.node :: base).length < bottom)
    (met : d y = bottom ∧ g.gathered own y ⊆ c y ∨
      y ∈ owned ++ v.node :: base ∧ Grounded g d (owned ++ v.node :: base) y)
    (deep : d' v.node = min (d v.node) (d y)) (held : c' v.node = c v.node ∪ c y)
    (same : ∀ u, u ≠ v.node → d' u = d u ∧ c' u = c u) :
    Layer g own d' c' [] v owned base := by
  have edge : y ∈ g.successors v.node := layer.along y (List.mem_append_right _ List.mem_cons_self)
  have done : ∀ z, d z = bottom → d' z = bottom := by
    intro z at_z
    refine (same z fun eq => ?_).1.trans at_z
    exact Nat.ne_of_lt (layer.node.lt_bottom few) (eq ▸ at_z)
  have above : ∀ u ∈ owned, d' u = d u ∧ c' u = c u := by
    intro u mem
    refine same u fun eq => ?_
    exact (List.nodup_append.1 nodup).2.2 u mem v.node List.mem_cons_self eq
  have grown : c v.node ⊆ c' v.node := held ▸ Set.subset_union_left
  have taken : c y ⊆ c' v.node := held ▸ Set.subset_union_right
  refine ⟨layer.height, ?_, ?_, ?_, ?_⟩
  · intro z mem
    rw [List.append_nil] at mem
    exact layer.along z (List.mem_append_left _ mem)
  · intro z out
    rw [List.append_nil]
    rcases layer.edge z out with waiting | settles
    · rcases List.mem_append.1 waiting with later | now
      · exact .inl later
      · obtain rfl := List.mem_singleton.1 now
        refine .inr (met.imp ?_ ?_)
        · exact fun finished => ⟨done z finished.1, finished.2.trans taken⟩
        · exact fun on => ⟨on.1, (deep.trans_le (Nat.min_le_right _ _)).trans on.2.1⟩
    · refine .inr (settles.imp ?_ ?_)
      · exact fun finished => ⟨done z finished.1, finished.2.trans grown⟩
      · exact fun on => ⟨on.1, (deep.trans_le (Nat.min_le_left _ _)).trans on.2⟩
  · obtain ⟨under, z, on, height, path⟩ := layer.node
    refine ⟨(deep.trans_le (Nat.min_le_left _ _)).trans under, ?_⟩
    by_cases lower : d v.node ≤ d y
    · exact ⟨z, on, by rw [deep, Nat.min_eq_left lower, height], path⟩
    · rcases met with finished | ⟨-, -, z', on', height', path'⟩
      · have := layer.node.lt_bottom few
        omega
      · refine ⟨z', on', ?_, .head edge path'⟩
        rw [deep, Nat.min_eq_right (Nat.le_of_not_le lower), height']
  · intro u mem
    have owned := layer.owned u mem
    obtain ⟨z, on, which, gave, low⟩ := owned.handed
    refine ⟨owned.path, ⟨v.node, List.mem_append_right _ List.mem_cons_self, .inl rfl, ?_⟩,
      fun z out => (owned.edge z out).congr (above u mem) done, owned.low.congr (above u mem).1, ?_⟩
    · rw [(above u mem).1, (above u mem).2, deep]
      rcases which with rfl | waiting
      · exact ⟨gave.trans grown, (Nat.min_le_left _ _).trans low⟩
      · obtain rfl := List.mem_singleton.1 waiting
        exact ⟨gave.trans taken, (Nat.min_le_right _ _).trans low⟩
    · rw [(above u mem).1]
      exact owned.down

/-- A layer whose node reaches below it becomes part of the layer below. -/
theorem Layer.merge {owned' : List α}
    (layer : Layer g own d c [] v owned (owned' ++ p.node :: base)) (ended : v.rest = [])
    (nodup : (owned ++ v.node :: (owned' ++ p.node :: base)).Nodup) (reaches : d v.node ≠ v.height)
    (below : Layer g own d c [v.node] p owned' base) :
    Layer g own d c [v.node] p (owned ++ v.node :: owned') base := by
  have whole : (owned ++ v.node :: owned') ++ p.node :: base =
      owned ++ v.node :: (owned' ++ p.node :: base) := by rw [List.append_assoc, List.cons_append]
  have split : owned ++ v.node :: (owned' ++ p.node :: base) =
      (owned ++ [v.node]) ++ (owned' ++ p.node :: base) := List.append_cons _ _ _
  have first : g.Reaches p.node v.node := .of_edge (below.along _ (List.mem_append_right _ List.mem_cons_self))
  have on_v : v.node ∈ owned ++ v.node :: (owned' ++ p.node :: base) :=
    List.mem_append_right _ List.mem_cons_self
  have height := rank_top nodup
  rw [split] at nodup
  refine ⟨below.height, below.along, ?_, ?_, ?_⟩
  all_goals rw [whole]
  · intro y edge
    rw [split]
    exact (below.edge y edge).imp_right (.above nodup)
  · rw [split]
    exact below.node.above nodup (List.mem_append_right _ List.mem_cons_self)
  · intro u mem
    rcases List.mem_append.1 mem with top | mem
    · have owned := layer.owned u top
      obtain ⟨z, on, which, held⟩ := owned.handed
      obtain rfl := which.resolve_right List.not_mem_nil
      exact { owned with
        path := first.trans owned.path
        handed := ⟨v.node, on, .inr List.mem_cons_self, held⟩ }
    · rcases List.mem_cons.1 mem with rfl | mem
      · refine ⟨first, ⟨v.node, on_v, .inr List.mem_cons_self, Set.Subset.rfl, Nat.le_refl _⟩, ?_, layer.node, ?_⟩
        · intro y edge
          refine (layer.edge y edge).resolve_left fun waiting => ?_
          rw [ended] at waiting
          exact List.not_mem_nil waiting
        · have := layer.node.1
          have := layer.height
          omega
      · have owned := below.owned u mem
        have on : u ∈ owned' ++ p.node :: base := List.mem_append_left _ mem
        obtain ⟨z, on', which, held⟩ := owned.handed
        rw [split]
        refine ⟨owned.path, ⟨z, List.mem_append_right _ on', which, held⟩,
          fun y edge => (owned.edge y edge).above nodup, owned.low.above nodup on, ?_⟩
        rw [rank_eq nodup on]
        exact owned.down

theorem Layered.gather (layered : Layered g own d c [y] (v :: visits) S) (nodup : S.Nodup)
    (few : S.length < bottom) (met : d y = bottom ∧ g.gathered own y ⊆ c y ∨ y ∈ S)
    (deep : d' v.node = min (d v.node) (d y)) (held : c' v.node = c v.node ∪ c y)
    (same : ∀ u, u ≠ v.node → d' u = d u ∧ c' u = c u) :
    Layered g own d' c' [] (v :: visits) S := by
  have grounded := layered.grounded nodup
  obtain ⟨owned, base, rfl, layer, below⟩ := layered.exists_layer
  refine .layer (layer.gather nodup few (met.imp_right fun on => ⟨on, grounded y on⟩) deep held same) ?_
  have node_lt := layer.node.lt_bottom few
  refine below.congr (fun u mem => same u ?_) fun z at_z => (same z ?_).1.trans at_z
  · rintro rfl
    rw [List.append_cons, List.nodup_append] at nodup
    exact nodup.2.2 _ (List.mem_append_right _ List.mem_cons_self) _ mem rfl
  · rintro rfl
    omega

/-- The visit of a node that reaches below its layer ends. The node waits to hand on what it has. -/
theorem Layered.merge (layered : Layered g own d c [] (v :: visits) S) (nodup : S.Nodup)
    (ended : v.rest = []) (reaches : d v.node ≠ v.height) : Layered g own d c [v.node] visits S := by
  obtain ⟨owned, base, rfl, layer, below⟩ := layered.exists_layer
  cases below with
  | none =>
    -- the lowest node on the stack cannot reach below itself
    obtain ⟨deep, z, on, height, -⟩ := layer.node
    have := rank_pos on
    rw [rank_top nodup] at deep
    have lowest := layer.height
    rw [List.length_nil] at deep lowest
    omega
  | layer under rest =>
    have merged := Layered.layer (layer.merge ended nodup reaches under) rest
    rwa [List.append_assoc, List.cons_append] at merged

/-! ## Components -/

section Component

variable (layer : Layer g own d c [] v owned base) (ended : v.rest = [])
  (nodup : (owned ++ v.node :: base).Nodup) (root : d v.node = v.height)

include layer

theorem Layer.path_of_mem : ∀ u ∈ owned ++ [v.node], g.Reaches v.node u := by
  intro u mem
  rcases List.mem_append.1 mem with above | node
  · exact (layer.owned u above).path
  · rw [List.mem_singleton.1 node]
    exact .refl

theorem Layer.handed_of_mem : ∀ u ∈ owned ++ [v.node], c u ⊆ c v.node ∧ d v.node ≤ d u := by
  intro u mem
  rcases List.mem_append.1 mem with above | node
  · obtain ⟨z, -, which, held⟩ := (layer.owned u above).handed
    obtain rfl := which.resolve_right List.not_mem_nil
    exact held
  · rw [List.mem_singleton.1 node]
    exact ⟨Set.Subset.rfl, Nat.le_refl _⟩

include nodup root

/-- A node that is not below what the layer reaches belongs to it. -/
theorem Layer.mem_of_le (on : y ∈ owned ++ v.node :: base)
    (high : d v.node ≤ rank (owned ++ v.node :: base) y) : y ∈ owned ++ [v.node] := by
  rw [List.append_cons] at on high nodup
  refine (List.mem_append.1 on).resolve_right fun under => ?_
  rw [rank_eq nodup under] at high
  have := rank_le base y
  have := layer.height
  omega

/-- Every node of a layer that reaches no lower reaches the visited node. -/
theorem Layer.reaches_node : ∀ u ∈ owned ++ [v.node], g.Reaches u v.node := by
  intro u mem
  -- the node that gives a node its depth lies lower in the same layer
  induction heights : rank (owned ++ v.node :: base) u using Nat.strong_induction_on generalizing u with
  | _ n ih =>
    rcases List.mem_append.1 mem with above | node
    · have owned' := layer.owned u above
      obtain ⟨-, z, on, height, path⟩ := owned'.low
      have down := owned'.down
      have inside : z ∈ owned ++ [v.node] :=
        layer.mem_of_le nodup root on (height ▸ (layer.handed_of_mem u mem).2)
      exact path.trans (ih _ (by omega) z inside rfl)
    · rw [List.mem_singleton.1 node]
      exact .refl

include ended

/-- No edge leads out of such a layer but to nodes that are done, whose members the visited node has. -/
theorem Layer.edge_within : ∀ u ∈ owned ++ [v.node], ∀ y ∈ g.successors u,
    d y = bottom ∧ g.gathered own y ⊆ c v.node ∨ y ∈ owned ++ [v.node] := by
  intro u mem y edge
  have settles : Settles g own d c (owned ++ v.node :: base) u y := by
    rcases List.mem_append.1 mem with above | node
    · exact (layer.owned u above).edge y edge
    · rw [List.mem_singleton.1 node] at edge ⊢
      refine (layer.edge y edge).resolve_left fun waiting => ?_
      rw [ended] at waiting
      exact List.not_mem_nil waiting
  obtain ⟨held, deep⟩ := layer.handed_of_mem u mem
  exact settles.imp (fun done => ⟨done.1, done.2.trans held⟩)
    fun on => layer.mem_of_le nodup root on.1 (deep.trans on.2)

/-- So the visited node has all members that there are to collect. -/
theorem Layer.gathered_subset (holds : ∀ u, own u ⊆ c u) : g.gathered own v.node ⊆ c v.node := by
  rintro i ⟨y, path, member⟩
  have along : ∀ u, g.Reaches u y → u ∈ owned ++ [v.node] → i ∈ c v.node := by
    intro u path
    induction path using Relation.ReflTransGen.head_induction_on with
    | refl => exact fun mem => (layer.handed_of_mem y mem).1 (holds y member)
    | head edge rest ih =>
      intro mem
      rcases layer.edge_within ended nodup root _ mem _ edge with done | inside
      · exact done.2 ⟨y, rest, member⟩
      · exact ih inside
  exact along v.node path (List.mem_append_right _ List.mem_cons_self)

end Component

end ParserGenerator.Digraph
