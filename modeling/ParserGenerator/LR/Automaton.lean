import ParserGenerator.Analysis.FirstFollow

/-!
# The LR(0) automaton

An item is a production with a dot before one of its symbols or at its end. A state is a set of items
that is closed under two rules: a dot before a nonterminal brings in its productions with the dot in
front, and a dot before an action symbol brings in the item one step further. States with the same
items are one state. They are numbered in the order in which they are found, state by state, and within
a state in the order in which the items name their next symbols.
-/

namespace ParserGenerator

structure Item where
  production : Int
  position : Nat
  deriving DecidableEq

structure State where
  /-- The symbol that leads into the state; none leads into the first one. -/
  accessing : Option Int
  items : List Item
  transitions : OrderedMap Int Nat := ∅

namespace Grammar

/-- The entry of the production list at an index; a negative one counts from the end. -/
def productionAt? (g : Grammar) (index : Int) : Option Production :=
  let i := if index < 0 then index + g.productions.size else index
  if i < 0 then none else g.productions[i.toNat]?

def rightOf (g : Grammar) (index : Int) : List Int :=
  ((g.productionAt? index).map Production.right).getD []

end Grammar

namespace Item

/-- The symbol behind the dot. -/
def next? (g : Grammar) (it : Item) : Option Int := (g.rightOf it.production)[it.position]?

def advance (it : Item) : Item := { it with position := it.position + 1 }

def isComplete (g : Grammar) (it : Item) : Bool := it.position = (g.rightOf it.production).length

/-- The items that one item brings into its state. -/
def consequences (g : Grammar) (it : Item) : List Item :=
  match (it.next? g).bind g.symbols.at? with
  | none => []
  | some s =>
    if s.kind = .nonterminal then s.productions.map fun p => ⟨p, 0⟩
    else if s.isAction then [it.advance]
    else []

/-- The first item of production 0, and that production completed. -/
def initial : Item := ⟨0, 0⟩
def accepting : Item := ⟨0, 1⟩

/-- Refuses an item whose production, or whose next symbol, is none of the grammar's. -/
def check (g : Grammar) (it : Item) : Except Error Unit := do
  if (g.productionAt? it.production).isNone then throw .outOfRange
  if let some id := it.next? g then
    let _ ← g.symbols.symbol id

/-- The item as a text, the dot shown in its place. -/
def format (g : Grammar) (it : Item) : Except Error String :=
  match g.productionAt? it.production with
  | none => .error .outOfRange
  | some p => do return s!"[{← g.format p (some it.position)}]"

end Item

namespace Grammar

/-- The length of the longest right-hand side. -/
def longestRight (g : Grammar) : Nat :=
  (g.productions.toList ++ g.byNumber.values).foldl (fun n p => max n p.right.length) 0

/-- A number of items that no state exceeds. -/
def itemBound (g : Grammar) : Nat := (g.productionCount + 1) * (g.longestRight + 1)

/-- The least closed set of items that holds the given ones, in the order in which they come in. -/
def closure (g : Grammar) (kernel : List Item) : List Item :=
  reach g.itemBound (·.consequences g) kernel

def distinct (xs : List Int) : List Int := (OrderedSet.ofList xs).toList

/-- The symbols on which a state with the given items has transitions, in the order of the items. -/
def nextSymbols (g : Grammar) (items : List Item) : List Int :=
  distinct ((items.filterMap (·.next? g)).filter fun id => (g.symbols.at? id).any (!·.isAction))

/-- The items that lead over a symbol, moved behind it. -/
def advanceOver (g : Grammar) (items : List Item) (id : Int) : List Item :=
  (items.filter fun it => it.next? g = some id).map Item.advance

def sameItems (a b : List Item) : Bool := a.length = b.length && a.all b.contains

/-- The number of the state with the given items: that of a state there is, or the next one. -/
def stateNumber (states : Array State) (items : List Item) : Nat :=
  (states.findIdx? fun s => sameItems s.items items).getD states.size

/-- Makes the transition of a state on a symbol, and the state it leads to if that is new. -/
def connect (g : Grammar) (source : Nat) (items : List Item) (states : Array State) (id : Int) :
    Array State :=
  let target := g.closure (g.advanceOver items id)
  let number := stateNumber states target
  let states := if number < states.size then states else states.push ⟨some id, target, ∅⟩
  states.modify source fun s => { s with transitions := s.transitions.insert id number }

/-- All states that can be reached from the closure of the first item. -/
def explore (g : Grammar) : Array State :=
  sweep (Nat.pow 2 g.itemBound)
    (fun i s states => (g.nextSymbols s.items).foldl (g.connect i s.items) states)
    #[⟨none, g.closure [.initial], ∅⟩] 0

/-- The states of the grammar, unless one of their items cannot be. -/
def states (g : Grammar) : Except Error (Array State) := do
  let states := g.explore
  states.toList.forM fun s => s.items.forM (Item.check g)
  return states

end Grammar

namespace State

/-- Whether the state follows the start symbol and nothing else. -/
def accepts (s : State) : Bool := s.items.contains .accepting

/-- The completed items in the order of their productions. -/
def completed (g : Grammar) (s : State) : List Item :=
  sortBy (fun a b => a.production ≤ b.production) (s.items.filter (·.isComplete g))

end State

/-- The state that a state leads to on a symbol. -/
def goto? (states : Array State) (state : Nat) (id : Int) : Option Nat :=
  (states[state]?).bind fun s => s.transitions.get? id

end ParserGenerator
