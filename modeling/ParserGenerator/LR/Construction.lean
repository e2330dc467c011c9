import ParserGenerator.LR.Lookahead
import ParserGenerator.LR.Tables

/-!
# Construction of parse tables

The transitions of a state give its shift and goto cells. Then its completed items are entered in the
order of their productions, on each terminal of their lookahead sets. A cell that is taken makes a
conflict: against a shift precedence decides, against another reduction the smaller number stays.
Every conflict is reported.
-/

namespace ParserGenerator

/-- Which way a conflict between a shift and a reduction goes. -/
inductive Decision where
  | shift | reduce | nonassoc
  deriving DecidableEq

def Decision.name : Decision → String
  | .shift => "shift"
  | .reduce => "reduce"
  | .nonassoc => "nonassoc"

namespace Conflict

def shiftReduce : String := "shift/reduce"
def reduceReduce : String := "reduce/reduce"
def byDefault : String := "default"
def byPrecedence : String := "precedence"
def byFollow : String := "follow"

end Conflict

namespace Grammar

/-- Compares the levels of the terminal and the production; on one level associativity decides. -/
def compareLevels (p : Precedence) (level : Int) : Decision :=
  if p.associativity = .nonassoc then .nonassoc
  else if p.level > level then .shift
  else if p.level < level then .reduce
  else if p.associativity = .right then .shift else .reduce

/-- Decides between shifting a terminal and reducing by a production in a state, and reports it. A
terminal that cannot follow the left-hand side, or has no precedence, is shifted. -/
def decide (g : Grammar) (terminal : Int) (p : Production) (state : Int) :
    Except Error (Decision × Conflict) := do
  let term ← g.symbols.symbol terminal
  let left ← g.symbols.symbol p.left
  let report (d : Decision) (cause message : String) : Decision × Conflict :=
    (d, ⟨Conflict.shiftReduce, state, terminal, [p.number], d.name, cause, message⟩)
  let place := s!"{term.name} in reduction {p.number} in state {state}"
  if terminal ∉ g.facts.followOf left.id then
    return report .shift Conflict.byFollow s!"spurious shift/reduce conflict on {place}"
  match term.precedence with
  | none => return report .shift Conflict.byDefault s!"shift/reduce conflict on {place}"
  | some precedence =>
    if precedence.associativity = .nonassoc then
      return report .nonassoc Conflict.byPrecedence s!"nonassoc {place}"
    let d := compareLevels precedence (← g.levelOf p)
    return report d Conflict.byPrecedence s!"shift/reduce conflict on {place} resolved as {d.name}"

end Grammar

/-- The action cells of one state and the reports on them, in the order in which they arise. -/
structure Row where
  cells : OrderedMap Int Action := ∅
  conflicts : List Conflict := []
  violations : List Violation := []

namespace Row

def put (r : Row) (terminal : Int) (a : Action) : Row := { r with cells := r.cells.insert terminal a }

def report (r : Row) (c : Conflict) : Row := { r with conflicts := r.conflicts ++ [c] }

/-- Enters that the input is accepted at its end, whatever the cell held. -/
def putAccept (g : Grammar) (state : Nat) (r : Row) : Except Error Row := do
  let accepted (r : Row) : Row := r.put endMarkerId ⟨.accept, 0⟩
  match r.cells.get? endMarkerId with
  | none => return accepted r
  | some a =>
    if a.kind = .accept then return accepted r
    else
      let name ← g.symbols.nameOf endMarkerId
      let message :=
        s!"accept conflicts with {a.kind.name} {a.argument} on {name} in state {state}"
      return accepted (r.report ⟨Conflict.reduceReduce, state, endMarkerId, [0, a.argument], "accept",
        Conflict.byDefault, message⟩)

/-- Enters a reduction on a terminal. A cell that refuses chains counts as taken by its production
and stays of its kind. -/
def putReduce (g : Grammar) (state : Nat) (it : Item) (p : Production) (r : Row) (terminal : Int) :
    Except Error Row := do
  match r.cells.get? terminal with
  | none => return r.put terminal ⟨.reduce, it.production⟩
  | some ⟨.shift, _⟩ =>
    let (d, c) ← g.decide terminal p state
    let r := r.report c
    match d with
    | .shift => return r
    | .reduce => return r.put terminal ⟨.reduce, it.production⟩
    | .nonassoc =>
      let r := r.put terminal ⟨.nonassoc, it.production⟩
      return { r with violations := r.violations ++ [⟨state, terminal, it.production⟩] }
  | some ⟨kind, taken⟩ =>
    let kept := min taken it.production
    let other := max taken it.production
    let name ← g.symbols.nameOf terminal
    let message := s!"reduce/reduce conflict on {name} in state {state} " ++
      s!"between reductions {kept} and {other}; using {kept}"
    let r := if kept = taken then r else r.put terminal ⟨kind, kept⟩
    return r.report ⟨Conflict.reduceReduce, state, terminal, [kept, other], Decision.reduce.name,
      Conflict.byDefault, message⟩

/-- Enters a completed item: production 0 accepts, any other reduces on its lookahead set. -/
def putCompleted (g : Grammar) (state : Nat) (lookaheads : Item → Except Error TerminalSet) (r : Row)
    (it : Item) : Except Error Row :=
  if it.production = 0 then putAccept g state r
  else
    match g.productionAt? it.production with
    | none => .error .outOfRange
    | some p => do
      let terminals := sortBy (fun a b => a ≤ b) (← lookaheads it).toList
      terminals.foldlM (putReduce g state it p) r

/-- The row of a state: its shifts, then its completed items. -/
def build (g : Grammar) (state : Nat) (s : State) (lookaheads : Item → Except Error TerminalSet) :
    Except Error Row :=
  let shifts := (s.transitions.toList.filter fun t => g.isInput t.1).foldl
    (fun (r : Row) t => r.put t.1 ⟨.shift, t.2⟩) {}
  (s.completed g).foldlM (putCompleted g state lookaheads) shifts

end Row

namespace Grammar

/-- The goto cells of a state. -/
def gotoCells (g : Grammar) (s : State) : OrderedMap Int Int :=
  (s.transitions.filterKeys (!g.isInput ·)).mapValues fun _ target => target

/-- On which terminals a completed item is reduced, by FOLLOW of its left-hand side. -/
def followLookaheads (g : Grammar) (it : Item) : Except Error TerminalSet := do
  match g.productionAt? it.production with
  | none => throw .outOfRange
  | some p => return g.facts.followOf (← g.symbols.symbol p.left).id

/-- Puts the rows of all states together. -/
def assemble (g : Grammar) (method : Method) (states : Array State) (la : Lookaheads) :
    Except Error Tables := do
  let numbered := states.toList.zipIdx
  let rows ← numbered.mapM fun (s, n) =>
    Row.build g n s fun it =>
      match method with
      | .slr => g.followLookaheads it
      | .lalr => .ok (la.at n it.production)
  let items ← states.toList.mapM fun s => s.items.mapM (Item.format g)
  let lengths ← g.productions.toList.mapM g.reduceLength
  return {
    action := OrderedMap.ofRows (rows.map Row.cells)
    goto := OrderedMap.ofRows (states.toList.map g.gotoCells)
    startState := 0
    stateCount := states.size
    leftIds := g.productions.toList.map Production.left
    rightLengths := lengths.map Int.ofNat
    stateItems := items
    conflicts := rows.flatMap Row.conflicts
    violations := rows.flatMap Row.violations
    method := method.name }

/-- Builds the tables of a closed grammar by the named method. -/
def buildTables (method : String) : Build Tables := do
  match Method.ofName? method with
  | none => throw (.value (.method method))
  | some m =>
    if !(← get).closed then throw (.definition .openForTables)
    let _ ← analyze
    let states ← query Grammar.states
    let la ← match m with
      | .slr => pure #[]
      | .lalr => computeLookaheads states
    query (·.assemble m states la)

/-- Builds tables and hands each conflict to a sink, in the order in which they arise. -/
def buildReporting {σ : Type} (sink : σ → Conflict → σ) (s : σ) (method : String) :
    Build (Tables × σ) := do
  let t ← buildTables method
  return (t, t.conflicts.foldl sink s)

end Grammar

end ParserGenerator
