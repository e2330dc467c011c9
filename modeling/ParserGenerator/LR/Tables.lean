import ParserGenerator.Collection.OrderedMap
import ParserGenerator.Collection.Sorted
import ParserGenerator.Symbol.Precedence

/-!
# Parse tables

The action table tells by state and terminal what a parser does, the goto table by state and
nonterminal where it goes after a reduction. Beside them stand the reports on the cells for which there
was more than one candidate. Cells are listed in the order in which they were first filled.
-/

namespace ParserGenerator

/-- What a parser does in a cell. Tables from storage may hold kinds that no parser knows. -/
inductive ActionKind where
  | shift | reduce | accept | nonassoc
  | other (name : String)
  deriving DecidableEq

namespace ActionKind

def name : ActionKind → String
  | shift => "s"
  | reduce => "r"
  | accept => "acc"
  | nonassoc => "nonassoc"
  | other name => name

def ofName (s : String) : ActionKind :=
  if s = shift.name then shift
  else if s = reduce.name then reduce
  else if s = accept.name then accept
  else if s = nonassoc.name then nonassoc
  else other s

@[simp] theorem name_ofName (s : String) : (ofName s).name = s := by
  unfold ofName
  split
  · simp_all
  · split
    · simp_all
    · split
      · simp_all
      · split
        · simp_all
        · rfl

end ActionKind

/-- A cell of the action table: the state to shift to, or the production to reduce by. -/
structure Action where
  kind : ActionKind
  argument : Int
  deriving DecidableEq

/-- The report on one cell: what was in conflict, which way it was resolved and by what. The first
production is the one that is used or compared. -/
structure Conflict where
  kind : String
  state : Int
  terminal : Int
  productions : List Int
  resolution : String
  resolvedBy : String
  message : String
  deriving DecidableEq

/-- A cell in which a chain of operators that do not associate is refused. -/
structure Violation where
  state : Int
  terminal : Int
  production : Int
  deriving DecidableEq

/-- How lookahead sets are found: from FOLLOW, or state by state. -/
inductive Method where
  | slr | lalr
  deriving DecidableEq

namespace Method

def name : Method → String
  | slr => "slr"
  | lalr => "lalr"

def all : List Method := [slr, lalr]

def ofName? (s : String) : Option Method := all.find? (·.name = s)

end Method

structure Tables where
  action : OrderedMap (Int × Int) Action
  goto : OrderedMap (Int × Int) Int
  startState : Int
  stateCount : Int
  /-- The left-hand side of each production. -/
  leftIds : List Int
  /-- The number of symbols that a reduction by each production takes from the stack. -/
  rightLengths : List Int
  /-- The items of each state as texts. -/
  stateItems : List (List String)
  conflicts : List Conflict
  violations : List Violation
  method : String

namespace Tables

/-- The conflicts that no precedence settled. -/
def unresolved (t : Tables) : List Conflict := t.conflicts.filter (·.resolvedBy = "default")

/-- The cells of a state from both tables by symbol; the second component tells a goto. -/
def row (t : Tables) (state : Int) : List (Int × String × Int) :=
  let actions := (t.action.toList.filter (·.1.1 = state)).map fun (k, a) =>
    (k.2, a.kind.name, a.argument)
  let gotos := (t.goto.toList.filter (·.1.1 = state)).map fun (k, n) => (k.2, "g", n)
  let cells : OrderedMap Int (Int × String × Int) :=
    (actions ++ gotos).foldl (fun m c => m.insert c.1 c) ∅
  sortBy (fun a b => a.1 ≤ b.1) cells.values

/-- Whether two tables agree in everything but the order of their cells. -/
def agree (t u : Tables) : Bool :=
  t.action.sameEntries u.action && t.goto.sameEntries u.goto && t.startState = u.startState &&
    t.stateCount = u.stateCount && t.leftIds = u.leftIds && t.rightLengths = u.rightLengths &&
    t.stateItems = u.stateItems && t.conflicts = u.conflicts && t.violations = u.violations &&
    t.method = u.method

/-- One line on a conflict. -/
def conflictLine (nameOf : Int → Option String) (c : Conflict) : String :=
  let name := (nameOf c.terminal).getD s!"#{c.terminal}"
  let numbers := ", ".intercalate (c.productions.map toString)
  s!"state {c.state}, on {name}: {c.kind} ({numbers}) -> {c.resolution} [{c.resolvedBy}]"

/-- The conflicts, or the unresolved ones alone, a line for each. -/
def describeConflicts (t : Tables) (nameOf : Int → Option String) (unresolvedOnly : Bool) : String :=
  match if unresolvedOnly then t.unresolved else t.conflicts with
  | [] => "(no conflicts)"
  | cs => "\n".intercalate (cs.map (conflictLine nameOf))

end Tables

end ParserGenerator
