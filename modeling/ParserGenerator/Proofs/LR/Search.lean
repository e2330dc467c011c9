import ParserGenerator.Proofs.LR.Layers
import ParserGenerator.Proofs.LR.SetTable

/-!
# What every step of a search preserves

Nodes on the stack lie in the layers of the visits, nodes that are done have all that they reach, and nodes
that have not been met have their own sets. A step that meets a node begins a layer. A step that ends a visit
closes the layer or makes it part of the one below, and what the ended node has is handed on.
-/

namespace ParserGenerator.Digraph

variable {α : Type} [DecidableEq α] {g : Digraph α} {nodes : List α} {own : SetTable α}
  {w : Search α} {pending : List α} {v : Visit α} {visits : List (Visit α)} {x y : α} {n : Nat}

def Reached (g : Digraph α) (nodes : List α) (x : α) : Prop := ∃ root ∈ nodes, g.Reaches root x

theorem Reached.edge (reached : g.Reached nodes x) (edge : y ∈ g.successors x) : g.Reached nodes y := by
  obtain ⟨root, mem, path⟩ := reached
  exact ⟨root, mem, path.tail edge⟩

theorem Search.depthOf_insert (depth : OrderedMap α Nat) :
    (depth.insert x n).getD y 0 = if x = y then n else depth.getD y 0 := by
  rw [OrderedMap.getD, OrderedMap.get?_insert]
  split
  · rfl
  · rfl

/-- Where a node's depth is set that is not done, the same nodes are done as before. -/
theorem Search.done_insert (begun : w.depthOf x ≠ bottom) (open_still : n ≠ bottom) (z : α) :
    (w.depth.insert x n).getD z 0 = bottom ↔ w.depthOf z = bottom := by
  rw [depthOf_insert]
  split
  · rename_i same
    exact iff_of_false open_still (same ▸ begun)
  · rfl

theorem Search.depthOf_of_unmet (unmet : ¬ w.depth.contains x) : w.depthOf x = 0 := by
  rw [OrderedMap.contains, Option.not_isSome_iff_eq_none] at unmet
  rw [depthOf, OrderedMap.getD, unmet, Option.getD_none]

/-- A search on its way through the nodes that the given ones reach. -/
structure Underway (g : Digraph α) (nodes : List α) (own : SetTable α) (pending : List α)
    (w : Search α) : Prop where
  apart : w.table.Apart own.heap
  keys : w.table.place.keys = own.place.keys
  nodup : w.stack.Nodup
  layered : Layered g own.members w.depthOf w.table.members pending w.visits w.stack
  holds : ∀ x, own.members x ⊆ w.table.members x
  within : ∀ x, w.table.members x ⊆ g.gathered own.members x
  met : ∀ x, w.depth.contains x ↔ w.depthOf x = bottom ∨ x ∈ w.stack
  done : ∀ x, w.depthOf x = bottom → g.gathered own.members x ⊆ w.table.members x ∧
    ∀ y ∈ g.successors x, w.depthOf y = bottom
  unmet : ∀ x, ¬ w.depth.contains x → w.table.of x = own.of x
  reached : ∀ x, w.depth.contains x → g.Reached nodes x

theorem underway_begin (g : Digraph α) (nodes : List α) (own : SetTable α) :
    Underway g nodes own [] { table := own.fresh } := by
  obtain ⟨apart, keys, holds⟩ := own.apart_fresh
  have same : own.fresh.members = own.members := by
    funext x
    rw [SetTable.members, holds, SetTable.members]
  have new : ∀ x : α, ¬ ({ table := own.fresh } : Search α).depth.contains x := by simp [OrderedMap.contains]
  have begun : ∀ x : α, ({ table := own.fresh } : Search α).depthOf x ≠ bottom := by
    intro x
    rw [Search.depthOf_of_unmet (new x)]
    decide
  refine ⟨apart, keys, List.nodup_nil, .none [], ?_, ?_, ?_, ?_, fun x _ => holds x, ?_⟩
  · exact fun x => same ▸ Set.Subset.rfl
  · exact fun x => same ▸ own_subset_gathered
  · refine fun x => ⟨fun met => absurd met (new x), fun met => ?_⟩
    exact absurd (met.resolve_right List.not_mem_nil) (begun x)
  · exact fun x done => absurd done (begun x)
  · exact fun x met => absurd met (new x)

theorem Underway.on_stack (inv : Underway g nodes own pending w) (visiting : w.visits = v :: visits) :
    v.node ∈ w.stack := by
  have layered := inv.layered
  rw [visiting] at layered
  obtain ⟨owned, base, stack, -, -⟩ := layered.exists_layer
  rw [stack]
  exact List.mem_append_right _ List.mem_cons_self

/-- Between two visits the stack is empty, and any node may come next. -/
theorem Underway.between (inv : Underway g nodes own pending w) (idle : w.visits = [])
    (pending' : List α) : Underway g nodes own pending' w := by
  have layered := inv.layered
  rw [idle] at layered
  refine { inv with layered := ?_ }
  rw [idle, layered.stack_eq_nil]
  exact .none pending'

/-- The pending node and those whose turn is to come are at the ends of edges. -/
theorem Underway.along (inv : Underway g nodes own pending w) (visiting : w.visits = v :: visits) :
    ∀ y ∈ v.rest ++ pending, y ∈ g.successors v.node := by
  have layered := inv.layered
  rw [visiting] at layered
  obtain ⟨_, _, -, layer, -⟩ := layered.exists_layer
  exact layer.along

/-! ## Layers begun and left -/

/-- The next edge of the node that was met last is taken up. -/
theorem Underway.take {rest : List α} {height : Nat} (inv : Underway g nodes own [] w)
    (visiting : w.visits = ⟨x, y :: rest, height⟩ :: visits) :
    Underway g nodes own [y] { w with visits := ⟨x, rest, height⟩ :: visits } :=
  { inv with layered := (visiting ▸ inv.layered).take }

/-! ## What is handed on -/

section Bounds

variable (present : ∀ x, g.Reached nodes x → x ∈ own.place.keys)
  (few : ∀ S : List α, S.Nodup → (∀ x ∈ S, g.Reached nodes x) → S.length < bottom)

include present in
theorem Underway.known (inv : Underway g nodes own pending w) (met : w.depth.contains x) :
    x ∈ w.table.place.keys := by
  rw [inv.keys]
  exact present x (inv.reached x met)

include few

theorem Underway.length_lt (inv : Underway g nodes own pending w) : w.stack.length < bottom :=
  few _ inv.nodup fun x on => inv.reached x ((inv.met x).2 (.inr on))

/-- A node that is met begins a layer. -/
theorem Underway.enter (inv : Underway g nodes own [y] w) (new : ¬ w.depth.contains y)
    (reached : g.Reached nodes y) : Underway g nodes own [] (w.enter y (g.successors y)) := by
  have off : y ∉ w.stack := fun on => new ((inv.met y).2 (.inr on))
  have begun : w.depthOf y ≠ bottom := fun done => new ((inv.met y).2 (.inl done))
  have nodup : (y :: w.stack).Nodup := List.nodup_cons.2 ⟨off, inv.nodup⟩
  have few : w.stack.length + 1 < bottom := by
    refine few _ nodup fun x mem => ?_
    rcases List.mem_cons.1 mem with rfl | on
    · exact reached
    · exact inv.reached x ((inv.met x).2 (.inr on))
  have depths : ∀ z, (w.enter y (g.successors y)).depthOf z =
      if y = z then w.stack.length + 1 else w.depthOf z := fun z => Search.depthOf_insert w.depth
  have mets : ∀ z, (w.enter y (g.successors y)).depth.contains z ↔ y = z ∨ w.depth.contains z :=
    fun z => contains_insert
  have dones : ∀ z, (w.enter y (g.successors y)).depthOf z = bottom ↔ w.depthOf z = bottom :=
    Search.done_insert begun (Nat.ne_of_lt few)
  refine { inv with nodup, layered := ?layered, met := ?met, done := ?done, unmet := ?unmet, reached := ?reached }
  case layered =>
    refine inv.layered.enter off begun ((depths y).trans (if_pos rfl)) fun u other => ?_
    rw [depths, if_neg other.symm]
  case met =>
    intro z
    rw [mets, dones, inv.met z, Search.enter, List.mem_cons, or_left_comm, eq_comm (a := z)]
  case done =>
    intro z done
    obtain ⟨held, onward⟩ := inv.done z ((dones z).1 done)
    exact ⟨held, fun u edge => (dones u).2 (onward u edge)⟩
  case unmet =>
    exact fun z new => inv.unmet z fun met => new ((mets z).2 (.inr met))
  case reached =>
    intro z met
    rcases (mets z).1 met with rfl | met
    · exact reached
    · exact inv.reached z met

include present

/-- A pending node hands what it has to the node it was met from. -/
theorem Underway.gather (inv : Underway g nodes own [y] w) (visiting : w.visits = v :: visits)
    (met : w.depth.contains y) :
    ∃ w', w.gather v.node y = .ok w' ∧ Underway g nodes own [] w' := by
  have on := inv.on_stack visiting
  have edge := inv.along visiting y (List.mem_append_right _ List.mem_cons_self)
  have met_node := (inv.met v.node).2 (.inr on)
  obtain ⟨t, added, apart, place, held, others⟩ :=
    inv.apart.exists_addAll (inv.known present met_node) (inv.known present met)
  let w' : Search α :=
    { w.setDepth v.node (min (w.depthOf v.node) (w.depthOf y)) with table := t }
  have gathered : w.gather v.node y = .ok w' := by
    rw [Search.gather]
    dsimp only [Search.setDepth]
    rw [added]
    rfl
  have depths : ∀ z, w'.depthOf z =
      if v.node = z then min (w.depthOf v.node) (w.depthOf y) else w.depthOf z :=
    fun z => Search.depthOf_insert w.depth
  have mets : ∀ z, w'.depth.contains z ↔ v.node = z ∨ w.depth.contains z := fun z => contains_insert
  -- the depth falls from a height on the stack, so the node is not taken for one that is done
  have begun : w.depthOf v.node < bottom :=
    (inv.layered.grounded inv.nodup v.node on).lt_bottom (inv.length_lt few)
  have dones : ∀ z, w'.depthOf z = bottom ↔ w.depthOf z = bottom :=
    Search.done_insert (Nat.ne_of_lt begun) (Nat.ne_of_lt (Nat.lt_of_le_of_lt (Nat.min_le_left _ _) begun))
  have sets : ∀ z, z ≠ v.node → t.members z = w.table.members z := by
    intro z other
    rw [SetTable.members, others z other, SetTable.members]
  have grown : ∀ z, w.table.members z ⊆ t.members z := by
    intro z
    by_cases same : z = v.node
    · rw [same, held]
      exact Set.subset_union_left
    · rw [sets z same]
  refine ⟨w', gathered, {
    apart
    keys := (congrArg OrderedMap.keys place).trans inv.keys
    nodup := inv.nodup
    layered := ?layered
    holds := fun z => (inv.holds z).trans (grown z)
    within := ?within
    met := ?met
    done := ?done
    unmet := ?unmet
    reached := ?reached }⟩
  case layered =>
    have layered := inv.layered
    rw [visiting] at layered
    have target := ((inv.met y).1 met).imp_left fun done => And.intro done (inv.done y done).1
    have := layered.gather inv.nodup (inv.length_lt few) target ((depths v.node).trans (if_pos rfl)) held
      fun u other => ⟨(depths u).trans (if_neg other.symm), sets u other⟩
    rwa [← visiting] at this
  case within =>
    intro z
    by_cases same : z = v.node
    · rw [same, held]
      exact Set.union_subset (inv.within v.node)
        ((inv.within y).trans (Reaches.of_edge edge).gathered_subset)
    · rw [sets z same]
      exact inv.within z
  case met =>
    intro z
    rw [mets, dones, inv.met z]
    refine or_iff_right_of_imp ?_
    rintro rfl
    exact .inr on
  case done =>
    intro z done
    obtain ⟨held, onward⟩ := inv.done z ((dones z).1 done)
    exact ⟨held.trans (grown z), fun u edge => (dones u).2 (onward u edge)⟩
  case unmet =>
    intro z new
    rw [mets, not_or] at new
    exact (others z (Ne.symm new.1)).trans (inv.unmet z new.2)
  case reached =>
    intro z met
    rcases (mets z).1 met with rfl | met
    · exact inv.reached _ met_node
    · exact inv.reached z met

end Bounds

/-! ## Components closed -/

/-- Nodes have left the stack, all with the members that one of them has. -/
structure Closes (w : Search α) (x : α) (closed base : List α) (w' : Search α) : Prop where
  keys : w'.table.place.keys = w.table.place.keys
  visits : w'.visits = w.visits
  stack : w'.stack = base
  inside : ∀ z ∈ closed, w'.depthOf z = bottom ∧ w'.table.of z = w.table.of x
  outside : ∀ z, z ∉ closed → w'.depthOf z = w.depthOf z ∧ w'.table.of z = w.table.of z
  met : ∀ z, w'.depth.contains z ↔ z ∈ closed ∨ w.depth.contains z

theorem Closes.members_inside {w' : Search α} {closed base : List α} (closes : Closes w x closed base w')
    (mem : y ∈ closed) : w'.table.members y = w.table.members x := by
  rw [SetTable.members, (closes.inside y mem).2, SetTable.members]

theorem Closes.members_outside {w' : Search α} {closed base : List α} (closes : Closes w x closed base w')
    (off : y ∉ closed) : w'.table.members y = w.table.members y := by
  rw [SetTable.members, (closes.outside y off).2, SetTable.members]

theorem Closes.done {w' : Search α} {closed base : List α} (closes : Closes w x closed base w')
    (done : w.depthOf y = bottom) : w'.depthOf y = bottom := by
  by_cases mem : y ∈ closed
  · exact (closes.inside y mem).1
  · exact (closes.outside y mem).1.trans done

theorem exists_close {heap : Array (OrderedSet Int)} {owned : List α} (apart : w.table.Apart heap)
    (known : ∀ z ∈ owned ++ [x], z ∈ w.table.place.keys) (nodup : (owned ++ [x]).Nodup) (base : List α) :
    ∃ w', Search.close x (owned ++ x :: base) w = .ok w' ∧ w'.table.Apart heap ∧
      Closes w x (owned ++ [x]) base w' := by
  induction owned generalizing w with
  | nil =>
    refine ⟨{ w.setDepth x bottom with stack := base }, ?_, apart, rfl, rfl, rfl, ?_, ?_, ?_⟩
    · rw [List.nil_append, Search.close, if_pos rfl]
      rfl
    · intro z mem
      rw [List.mem_singleton.1 mem]
      exact ⟨(Search.depthOf_insert w.depth).trans (if_pos rfl), rfl⟩
    · intro z other
      exact ⟨(Search.depthOf_insert w.depth).trans (if_neg fun eq => other (List.mem_singleton.2 eq.symm)), rfl⟩
    · intro z
      rw [List.nil_append, List.mem_singleton, eq_comm (a := z)]
      exact contains_insert
  | cons y owned ih =>
    rw [List.cons_append, List.nodup_cons] at nodup
    have last : x ∈ owned ++ [x] := List.mem_append_right _ List.mem_cons_self
    have other : y ≠ x := fun eq => nodup.1 (eq ▸ last)
    obtain ⟨t, copied, apart, keys, sets⟩ := apart.exists_copy y (known x (List.mem_cons_of_mem _ last))
    have kept : t.place.keys = w.table.place.keys := by
      rw [keys, SetTable.keys_put, if_pos (known y List.mem_cons_self)]
    let u : Search α := { w.setDepth y bottom with stack := owned ++ x :: base, table := t }
    have depth : ∀ z, u.depthOf z = if y = z then bottom else w.depthOf z :=
      fun z => Search.depthOf_insert w.depth
    have met : ∀ z, u.depth.contains z ↔ y = z ∨ w.depth.contains z := fun z => contains_insert
    obtain ⟨w', closed, apart, closes⟩ := ih (w := u) apart
      (fun z mem => kept.symm ▸ known z (List.mem_cons_of_mem _ mem)) nodup.2
    have at_x : t.of x = w.table.of x := (sets x).trans (if_neg other)
    refine ⟨w', ?_, apart, closes.keys.trans kept, closes.visits, closes.stack, ?_, ?_, ?_⟩
    · rw [List.cons_append, Search.close, if_neg other]
      dsimp only [Search.setDepth]
      rw [copied]
      exact closed
    · intro z mem
      rcases List.mem_cons.1 mem with rfl | mem
      · obtain ⟨deep, held⟩ := closes.outside z nodup.1
        exact ⟨deep.trans ((depth z).trans (if_pos rfl)), held.trans ((sets z).trans (if_pos rfl))⟩
      · exact ⟨(closes.inside z mem).1, (closes.inside z mem).2.trans at_x⟩
    · intro z off
      rw [List.cons_append, List.mem_cons, not_or] at off
      obtain ⟨deep, held⟩ := closes.outside z off.2
      exact ⟨deep.trans ((depth z).trans (if_neg (Ne.symm off.1))),
        held.trans ((sets z).trans (if_neg (Ne.symm off.1)))⟩
    · intro z
      rw [closes.met, met, List.cons_append, List.mem_cons, or_left_comm, eq_comm (a := y), or_assoc]

/-- A node that reaches no lower than itself is done when its visit ends, and so is its whole layer. -/
theorem Underway.close (present : ∀ x, g.Reached nodes x → x ∈ own.place.keys)
    (inv : Underway g nodes own [] w) (visiting : w.visits = v :: visits) (ended : v.rest = [])
    (root : w.depthOf v.node = v.height) :
    ∃ u, Search.close v.node w.stack { w with visits } = .ok u ∧ Underway g nodes own [v.node] u ∧
      u.depth.contains v.node := by
  have layered := inv.layered
  have nodup := inv.nodup
  rw [visiting] at layered
  obtain ⟨owned, base, stack, layer, below⟩ := layered.exists_layer
  have mem_stack : ∀ z, z ∈ w.stack ↔ z ∈ owned ++ [v.node] ∨ z ∈ base := by
    intro z
    rw [stack, List.append_cons, List.mem_append]
  have met_inside : ∀ z ∈ owned ++ [v.node], w.depth.contains z :=
    fun z mem => (inv.met z).2 (.inr ((mem_stack z).2 (.inl mem)))
  rw [stack] at nodup
  have parts := nodup
  rw [List.append_cons, List.nodup_append] at parts
  have known : ∀ z ∈ owned ++ [v.node], z ∈ w.table.place.keys :=
    fun z mem => inv.known present (met_inside z mem)
  obtain ⟨u, closed, apart, closes⟩ := exists_close (w := { w with visits }) inv.apart known parts.1 base
  -- nothing is left to collect for the visited node, and the nodes above it reach the same as it does
  have full : w.table.members v.node = g.gathered own.members v.node :=
    (inv.within v.node).antisymm (layer.gathered_subset ended nodup root inv.holds)
  have inside : ∀ z ∈ owned ++ [v.node], u.table.members z = g.gathered own.members z := by
    intro z mem
    refine (closes.members_inside mem).trans (full.trans ?_)
    exact (layer.path_of_mem z mem).gathered_eq (layer.reaches_node nodup root z mem)
  have outside : ∀ z, z ∉ owned ++ [v.node] → u.table.members z = w.table.members z :=
    fun z off => closes.members_outside off
  have stays : ∀ z, w.depthOf z = bottom → u.depthOf z = bottom := fun z done => closes.done done
  refine ⟨u, stack ▸ closed, {
    apart
    keys := closes.keys.trans inv.keys
    nodup := closes.stack ▸ parts.2.1
    layered := ?layered
    holds := ?holds
    within := ?within
    met := ?met
    done := ?done
    unmet := ?unmet
    reached := ?reached }, (closes.met _).2 (.inl (List.mem_append_right _ List.mem_cons_self))⟩
  case layered =>
    rw [closes.visits, closes.stack]
    refine below.congr (fun z mem => ?_) stays
    have off : z ∉ owned ++ [v.node] := fun inside => parts.2.2 z inside z mem rfl
    exact ⟨(closes.outside z off).1, outside z off⟩
  case holds =>
    intro z
    by_cases mem : z ∈ owned ++ [v.node]
    · rw [inside z mem]
      exact own_subset_gathered
    · rw [outside z mem]
      exact inv.holds z
  case within =>
    intro z
    by_cases mem : z ∈ owned ++ [v.node]
    · rw [inside z mem]
    · rw [outside z mem]
      exact inv.within z
  case met =>
    intro z
    rw [closes.met, closes.stack]
    by_cases mem : z ∈ owned ++ [v.node]
    · exact iff_of_true (.inl mem) (.inl (closes.inside z mem).1)
    · rw [(closes.outside z mem).1, or_iff_right mem]
      exact (inv.met z).trans (or_congr_right ((mem_stack z).trans (or_iff_right mem)))
  case done =>
    intro z done
    by_cases mem : z ∈ owned ++ [v.node]
    · refine ⟨(inside z mem).ge, fun y edge => ?_⟩
      rcases layer.edge_within ended nodup root z mem y edge with done | mem
      · exact stays y done.1
      · exact (closes.inside y mem).1
    · rw [outside z mem]
      obtain ⟨held, onward⟩ := inv.done z ((closes.outside z mem).1.symm.trans done)
      exact ⟨held, fun y edge => stays y (onward y edge)⟩
  case unmet =>
    intro z new
    rw [closes.met, not_or] at new
    exact (closes.outside z new.1).2.trans (inv.unmet z new.2)
  case reached =>
    intro z met
    rcases (closes.met z).1 met with mem | met
    · exact inv.reached z (met_inside z mem)
    · exact inv.reached z met

/-- Any other node's layer becomes part of the layer below. -/
theorem Underway.merge (inv : Underway g nodes own [] w) (visiting : w.visits = v :: visits)
    (ended : v.rest = []) (reaches : w.depthOf v.node ≠ v.height) :
    Underway g nodes own [v.node] { w with visits } :=
  { inv with layered := (visiting ▸ inv.layered).merge inv.nodup ended reaches }

/-! ## Steps -/

section Steps

variable (present : ∀ x, g.Reached nodes x → x ∈ own.place.keys)
  (few : ∀ S : List α, S.Nodup → (∀ x ∈ S, g.Reached nodes x) → S.length < bottom)

include present few

theorem Underway.handOn (inv : Underway g nodes own [x] w) (met : w.depth.contains x) :
    ∃ w', w.handOn x = .ok w' ∧ Underway g nodes own [] w' := by
  rw [Search.handOn]
  split
  · rename_i idle
    exact ⟨w, rfl, inv.between idle []⟩
  · rename_i visiting
    exact inv.gather present few visiting met

theorem Underway.leave (inv : Underway g nodes own [] w) (visiting : w.visits = v :: visits)
    (ended : v.rest = []) : ∃ w', Search.leave { w with visits } v = .ok w' ∧ Underway g nodes own [] w' := by
  have settled : ∃ u, Search.settle { w with visits } v = .ok u ∧ Underway g nodes own [v.node] u ∧
      u.depth.contains v.node := by
    by_cases root : w.depthOf v.node = v.height
    · obtain ⟨u, closed, rest⟩ := inv.close present visiting ended root
      exact ⟨u, (if_pos root).trans closed, rest⟩
    · have met := (inv.met v.node).2 (.inr (inv.on_stack visiting))
      exact ⟨{ w with visits }, if_neg root, inv.merge visiting ended root, met⟩
  obtain ⟨u, settled, inv, met⟩ := settled
  obtain ⟨w', handed, inv⟩ := inv.handOn present few met
  refine ⟨w', ?_, inv⟩
  rw [Search.leave, settled]
  exact handed

/-- Every step of a search gets done. -/
theorem Underway.step (inv : Underway g nodes own [] w) (visiting : w.visits = v :: visits) :
    ∃ w', g.step w = .ok w' ∧ Underway g nodes own [] w' := by
  obtain ⟨x, rest, height⟩ := v
  rw [Digraph.step, visiting]
  cases rest with
  | nil => exact inv.leave present few visiting rfl
  | cons y rest =>
    have taken := inv.take visiting
    dsimp only
    split
    · rename_i met
      exact taken.gather present few rfl met
    · rename_i new
      have edge := inv.along visiting y (List.mem_append_left _ List.mem_cons_self)
      have met := (inv.met x).2 (.inr (inv.on_stack visiting))
      exact ⟨_, rfl, taken.enter few new ((inv.reached x met).edge edge)⟩

end Steps

theorem met_step {w' : Search α} (stepped : g.step w = .ok w') (met : w.depth.contains x) :
    w'.depth.contains x := by
  rw [Digraph.step] at stepped
  split at stepped
  · cases stepped
    exact met
  · exact (Search.keeps_leave stepped).2 x met
  · dsimp only at stepped
    split at stepped
    · exact (Search.keeps_gather stepped).2 x met
    · cases stepped
      exact contains_insert.2 (.inr met)

end ParserGenerator.Digraph
