import ParserGenerator.Collection.Worklist
import ParserGenerator.Collection.OrderedMap
import ParserGenerator.Collection.OrderedSet
import ParserGenerator.Collection.Bits

/-!
# Sets collected along the edges of a graph

Each node starts with a set of its own, and collects the sets of all nodes that it can reach. This is
the least family of sets that holds the own ones and grows along the edges.

A search follows the edges depth first. It keeps the nodes it has met on a stack until the component they
belong to is closed, and a node's depth is the lowest height on the stack that is known to be reached from
it. Instead of calling itself the search lists the visits it is in the middle of.

Where nodes are numbered, the same sets are found by taking all edges to and fro until nothing changes.
-/

namespace ParserGenerator

/-- The sets that nodes stand for. A set lies on a heap, at a place that several nodes may know. -/
structure SetTable (α : Type) where
  heap : Array (OrderedSet Int)
  place : OrderedMap α Nat

structure Digraph (α : Type) where
  edges : OrderedMap α (List α)

variable {α : Type} [DecidableEq α]

namespace SetTable

def of (t : SetTable α) (x : α) : OrderedSet Int :=
  ((t.place.get? x).map (t.heap.getD · ∅)).getD ∅

/-- The place of a node's set; a node without one is refused. -/
def find (t : SetTable α) (x : α) : Except α Nat :=
  match t.place.get? x with
  | some a => .ok a
  | none => .error x

/-- Makes a new set with the given members, and lets a node stand for it. -/
def put (t : SetTable α) (x : α) (s : OrderedSet Int) : SetTable α :=
  { heap := t.heap.push s, place := t.place.insert x t.heap.size }

/-- Lets the first node stand for a copy of the set of the second. -/
def copy (t : SetTable α) (x y : α) : Except α (SetTable α) := do
  let a ← t.find y
  return t.put x (t.heap.getD a ∅)

/-- Adds to the set of the first node what the set of the second holds. -/
def addAll (t : SetTable α) (x y : α) : Except α (SetTable α) := do
  let a ← t.find x
  let b ← t.find y
  if a = b then return t
  let given := t.heap.getD b ∅
  return { t with heap := t.heap.modify a (·.union given) }

/-- Copies of all sets of a table, each for one node alone, on the same heap. -/
def fresh (t : SetTable α) : SetTable α :=
  t.place.keys.foldl (fun s x => s.put x (t.of x)) { t with place := ∅ }

/-- A table with one set on the heap for each entry. -/
def ofSets (own : OrderedMap α (OrderedSet Int)) : SetTable α :=
  { heap := own.values.toArray, place := .ofList own.keys.zipIdx }

end SetTable

namespace Digraph

def successors (g : Digraph α) (x : α) : List α := g.edges.getD x []

def targets (g : Digraph α) : List α := g.edges.values.flatten

/-! ## The search -/

/-- A node whose edges are being followed: those that are left, and how high the stack was with the node
on top of it. -/
structure Visit (α : Type) where
  node : α
  rest : List α
  height : Nat

/-- A node has a depth once it has been met. The last node to be put on the stack comes first, and so does
the visit begun last. -/
structure Search (α : Type) where
  table : SetTable α
  depth : OrderedMap α Nat := ∅
  stack : List α := []
  visits : List (Visit α) := []

/-- The depth of a node that has left the stack. No node on the stack is as deep. -/
def bottom : Nat := 1 <<< 30

namespace Search

def depthOf (w : Search α) (x : α) : Nat := w.depth.getD x 0

def setDepth (w : Search α) (x : α) (d : Nat) : Search α := { w with depth := w.depth.insert x d }

/-- Meets a node: it comes onto the stack, and its edges are to be followed next. -/
def enter (w : Search α) (x : α) (successors : List α) : Search α :=
  let height := w.stack.length + 1
  { w.setDepth x height with
    stack := x :: w.stack
    visits := ⟨x, successors, height⟩ :: w.visits }

/-- Hands a node what a successor has: how low it reaches, and its members. -/
def gather (w : Search α) (x y : α) : Except α (Search α) := do
  let w := w.setDepth x (min (w.depthOf x) (w.depthOf y))
  return { w with table := ← w.table.addAll x y }

/-- Takes the nodes down to the given one off the stack; those above it get a set like its own. -/
def close (x : α) : List α → Search α → Except α (Search α)
  | [], w => .ok w
  | top :: stack, w => do
    let w := { w.setDepth top bottom with stack }
    if top = x then return w
    close x stack { w with table := ← w.table.copy top x }

/-- Closes the component of a node from which nothing below it on the stack is reached. -/
def settle (w : Search α) (v : Visit α) : Except α (Search α) :=
  if w.depthOf v.node = v.height then close v.node w.stack w else .ok w

/-- Hands what a node has to the one that it was met from. -/
def handOn (w : Search α) (x : α) : Except α (Search α) :=
  match w.visits with
  | [] => .ok w
  | parent :: _ => w.gather parent.node x

/-- Ends the visit of a node. -/
def leave (w : Search α) (v : Visit α) : Except α (Search α) := do
  let u ← w.settle v
  u.handOn v.node

end Search

/-- Follows one more edge of the node that was met last, or ends its visit. -/
def step (g : Digraph α) (w : Search α) : Except α (Search α) :=
  match w.visits with
  | [] => .ok w
  | ⟨x, [], height⟩ :: visits => { w with visits }.leave ⟨x, [], height⟩
  | ⟨x, y :: rest, height⟩ :: visits =>
    let w := { w with visits := ⟨x, rest, height⟩ :: visits }
    if w.depth.contains y then w.gather x y else .ok (w.enter y (g.successors y))

/-- Twice the number of edges whose source has not been met. -/
def unmet (depth : OrderedMap α Nat) : List (α × List α) → Nat
  | [] => 0
  | e :: es => (if depth.contains e.1 then 0 else 2 * e.2.length) + unmet depth es

/-- Twice the number of edges that are left to visits, and the number of visits. -/
def begun : List (Visit α) → Nat
  | [] => 0
  | v :: visits => 2 * v.rest.length + 1 + begun visits

/-- How many steps a search can still take at most. -/
def work (g : Digraph α) (w : Search α) : Nat := begun w.visits + unmet w.depth g.edges.toList

section Work

variable {g : Digraph α} {w w' : Search α} {x y : α}

theorem contains_insert {depth : OrderedMap α Nat} {d : Nat} :
    (depth.insert x d).contains y = true ↔ x = y ∨ depth.contains y = true := by
  rw [OrderedMap.contains, OrderedMap.get?_insert]
  split
  · rename_i same
    exact ⟨fun _ => .inl same, fun _ => rfl⟩
  · rename_i other
    exact ⟨.inr, fun met => met.resolve_left other⟩

theorem unmet_le {depth depth' : OrderedMap α Nat} (kept : ∀ x, depth.contains x → depth'.contains x)
    (edges : List (α × List α)) : unmet depth' edges ≤ unmet depth edges := by
  induction edges with
  | nil => exact Nat.le_refl _
  | cons e es ih =>
    rw [unmet, unmet]
    have := kept e.1
    split <;> split <;> first | omega | simp_all

/-- The edges of a node that is met are open no longer. -/
theorem unmet_insert {depth : OrderedMap α Nat} (new : ¬ depth.contains x) (d : Nat)
    (edges : List (α × List α)) :
    unmet (depth.insert x d) edges + 2 * ((OrderedMap.lookup x edges).getD []).length ≤
      unmet depth edges := by
  induction edges with
  | nil => exact Nat.le_refl _
  | cons e es ih =>
    by_cases same : e.1 = x
    · have rest : unmet (depth.insert x d) es ≤ unmet depth es :=
        unmet_le (fun _ met => contains_insert.2 (.inr met)) es
      rw [unmet, unmet, OrderedMap.lookup, if_pos same, same, if_pos (contains_insert.2 (.inl rfl)), if_neg new,
        Option.getD_some]
      omega
    · rw [OrderedMap.lookup, if_neg same]
      have met : (depth.insert x d).contains e.1 = depth.contains e.1 :=
        Bool.eq_iff_iff.2 (contains_insert.trans (or_iff_right fun eq => same eq.symm))
      rw [unmet, unmet, met]
      omega

/-- The second search is in the middle of the same visits and has met what the first has. -/
def Search.Keeps (w w' : Search α) : Prop :=
  w'.visits = w.visits ∧ ∀ x, w.depth.contains x → w'.depth.contains x

theorem Search.Keeps.work_le (kept : w.Keeps w') : g.work w' ≤ g.work w := by
  rw [work, work, kept.1]
  exact Nat.add_le_add_left (unmet_le kept.2 _) _

theorem Search.keeps_gather (done : w.gather x y = .ok w') : w.Keeps w' := by
  rw [gather] at done
  cases added : (w.setDepth x (min (w.depthOf x) (w.depthOf y))).table.addAll x y with
  | error e =>
    rw [added] at done
    cases done
  | ok t =>
    rw [added] at done
    cases done
    exact ⟨rfl, fun z met => contains_insert.2 (.inr met)⟩

theorem Search.keeps_close {stack : List α} (done : close x stack w = .ok w') : w.Keeps w' := by
  induction stack generalizing w with
  | nil =>
    cases done
    exact ⟨rfl, fun _ met => met⟩
  | cons top stack ih =>
    rw [close] at done
    split at done
    · cases done
      exact ⟨rfl, fun z met => contains_insert.2 (.inr met)⟩
    · cases copied : w.table.copy top x with
      | error e =>
        dsimp only [setDepth] at done
        rw [copied] at done
        cases done
      | ok t =>
        dsimp only [setDepth] at done
        rw [copied] at done
        obtain ⟨visits, kept⟩ := ih done
        exact ⟨visits, fun z met => kept z (contains_insert.2 (.inr met))⟩

theorem Search.keeps_settle {v : Visit α} (done : w.settle v = .ok w') : w.Keeps w' := by
  rw [settle] at done
  split at done
  · exact keeps_close done
  · cases done
    exact ⟨rfl, fun _ met => met⟩

theorem Search.keeps_handOn (done : w.handOn x = .ok w') : w.Keeps w' := by
  rw [handOn] at done
  split at done
  · cases done
    exact ⟨rfl, fun _ met => met⟩
  · exact keeps_gather done

theorem Search.keeps_leave {v : Visit α} (done : w.leave v = .ok w') : w.Keeps w' := by
  rw [leave] at done
  cases settled : w.settle v with
  | error e =>
    rw [settled] at done
    cases done
  | ok u =>
    rw [settled] at done
    have first := keeps_settle settled
    have last := keeps_handOn done
    exact ⟨last.1.trans first.1, fun z met => last.2 z (first.2 z met)⟩

theorem work_step {v : Visit α} {visits : List (Visit α)} (visiting : w.visits = v :: visits)
    (stepped : g.step w = .ok w') : g.work w' < g.work w := by
  obtain ⟨x, rest, height⟩ := v
  rw [step, visiting] at stepped
  cases rest with
  | nil =>
    have := (Search.keeps_leave stepped).work_le (g := g)
    simp only [work, visiting, begun] at this ⊢
    omega
  | cons y rest =>
    dsimp only at stepped
    split at stepped
    · have := (Search.keeps_gather stepped).work_le (g := g)
      simp only [work, visiting, begun, List.length_cons] at this ⊢
      omega
    · rename_i new
      cases stepped
      have : unmet (w.depth.insert y (w.stack.length + 1)) g.edges.toList +
          2 * (g.successors y).length ≤ unmet w.depth g.edges.toList := unmet_insert new _ _
      simp only [work, visiting, begun, Search.enter, Search.setDepth, List.length_cons]
      omega

end Work

/-- Takes steps until every visit has ended. -/
def run (g : Digraph α) (w : Search α) : Except α (Search α) :=
  match _ : w.visits with
  | [] => .ok w
  | _ :: _ =>
    match _ : g.step w with
    | .ok w' => run g w'
    | .error x => .error x
termination_by g.work w
decreasing_by exact work_step (by assumption) (by assumption)

/-- Searches from a node that has not been met. -/
def searchFrom (g : Digraph α) (w : Search α) (root : α) : Except α (Search α) :=
  if w.depth.contains root then .ok w else g.run (w.enter root (g.successors root))

/-- The collected sets of the given nodes and of all that they reach; the other nodes keep copies of their
own. Refused is an end of an edge on the way that has no set. -/
def collect (g : Digraph α) (nodes : List α) (own : SetTable α) : Except α (SetTable α) := do
  let w ← nodes.foldlM g.searchFrom { table := own.fresh }
  return w.table

def solve (g : Digraph α) (nodes : List α) (own : OrderedMap α (OrderedSet Int)) :
    Except α (OrderedMap α (OrderedSet Int)) := do
  let t ← g.collect nodes (.ofSets own)
  return own.mapValues fun x _ => t.of x

/-- Refuses an edge that can be reached from the given nodes and has an end without a set. -/
def check (g : Digraph α) (present : α → Bool) (nodes : List α) : Except α Unit := do
  let known := (nodes ++ g.targets).filter present
  let _ ← g.collect nodes (.ofSets (.ofList (known.map fun x => (x, ∅))))
  return ()

/-! ## Numbered nodes -/

/-- An edge hands its source what its target holds. -/
def absorb (sets : Array Nat) (e : Nat × Nat) : Array Nat :=
  let given := sets.getD e.2 0
  sets.modify e.1 (· ||| given)

/-- Takes the edges from the last to the first and back again, so that members travel far. -/
def round (edges : List (Nat × Nat)) (sets : Array Nat) : Array Nat :=
  edges.foldl absorb (edges.reverse.foldl absorb sets)

/-- How far sets over so many members are from being full. -/
def missing (members : Nat) (sets : Array Nat) : Nat :=
  sets.size * Nat.pow 2 members - sets.foldl (· + ·) 0

/-- The least sets that hold the own ones and grow along the edges. The sets are kept as numbers over the
list of all members. -/
def saturate (edges : List (Nat × Nat)) (own : Array (OrderedSet Int)) : Array (OrderedSet Int) :=
  let members := own.foldl OrderedSet.union ∅
  let pass (sets : Array Nat) : Array Nat × Bool :=
    let next := round edges sets
    (next, next ≠ sets)
  let sets := iterate (missing members.size) pass (own.map fun s => Bits.encode members s.toList)
  sets.map (Bits.decode members)

end Digraph

end ParserGenerator
