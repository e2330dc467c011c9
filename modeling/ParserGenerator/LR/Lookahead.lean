import ParserGenerator.LR.Automaton
import ParserGenerator.LR.Digraph

/-!
# LALR(1) lookahead sets

The nodes are the transitions on nonterminals, numbered state by state. What can be read right behind such a transition is
collected over the transitions that may vanish; then each transition hands what can follow it to the
transitions at whose end it began. A completed production is reduced on what can follow the transitions
over its left-hand side from the states where it began. Action symbols make no transitions.

Whether a symbol vanishes may not be settled when it is asked. The sets are then computed once more from
the settled answers.
-/

namespace ParserGenerator

/-- A state and a nonterminal on which it has a transition. -/
abbrev Transition := Nat × Int

/-- Transitions in a fixed order, with a row for each state that tells which number belongs to which
nonterminal. -/
structure TransitionIndex where
  all : Array Transition := #[]
  rows : Array (OrderedMap Int Nat) := #[]

namespace TransitionIndex

/-- Enters the transitions of the next state. -/
def addState (x : TransitionIndex) (ids : List Int) : TransitionIndex where
  all := x.all ++ (ids.map fun id => (x.rows.size, id)).toArray
  rows := x.rows.push (OrderedMap.ofList (ids.zipIdx x.all.size))

def number? (x : TransitionIndex) (t : Transition) : Option Nat :=
  x.rows[t.1]?.bind (·.get? t.2)

end TransitionIndex

namespace Grammar

def isInput (g : Grammar) (id : Int) : Bool := (g.symbols.at? id).any Symbol.isInput

/-- The transitions on nonterminals, state by state. -/
def nonterminalTransitions (g : Grammar) (states : Array State) : TransitionIndex :=
  states.foldl (fun x s => x.addState (s.transitions.keys.filter g.isNonterminal)) {}

/-- The symbols on which the state behind a transition has transitions itself. -/
def afterTransition (states : Array State) (t : Transition) : List Int :=
  (((goto? states t.1 t.2).bind (states[·]?)).map (·.transitions.keys)).getD []

/-- The terminals that can be read right behind a transition. -/
def directReads (g : Grammar) (states : Array State) (t : Transition) : TerminalSet :=
  let own := OrderedSet.ofList ((afterTransition states t).filter g.isInput)
  if ((goto? states t.1 t.2).bind (states[·]?)).any State.accepts then own.insert endMarkerId else own

/-- Why lookahead sets cannot be told. -/
inductive Obstacle where
  | error (e : Error)
  /-- It is not settled whether a symbol vanishes. -/
  | unsettled (id : Int)
  deriving DecidableEq

/-- The error in an obstacle. Once all symbols are settled, a question that stays open is about none. -/
def Obstacle.cause : Obstacle → Error
  | error e => e
  | unsettled id => .missing (.id id)

/-- A computation that stops at the first obstacle. -/
abbrev Survey := Except Obstacle

namespace Survey

/-- The answer to a look-up. -/
def find {α : Type} : Except Error α → Survey α
  | .ok a => .ok a
  | .error e => .error (.error e)

end Survey

/-- Whether a symbol vanishes, as far as that is settled. -/
def vanishes (g : Grammar) (id : Int) : Survey Bool := do
  let _ ← Survey.find (g.symbols.symbol id)
  match g.facts.nullable.get? id with
  | some b => return b
  | none => throw (.unsettled id)

/-- Whether all symbols of a sequence vanish. The first that does not ends the questions. -/
def allVanish (g : Grammar) : List Int → Survey Bool
  | [] => return true
  | id :: ids => do
    if ← g.vanishes id then g.allVanish ids else return false

/-- The symbols of a sequence that vanish. -/
def vanishing (g : Grammar) : List Int → Survey (List Int)
  | [] => return []
  | id :: ids => do
    let own ← g.vanishes id
    let rest ← g.vanishing ids
    return if own then id :: rest else rest

/-- The transitions behind a transition that may vanish. -/
def readsThrough (g : Grammar) (states : Array State) (t : Transition) : Survey (List Transition) :=
  match goto? states t.1 t.2 with
  | none => return []
  | some r => do
    let ids ← g.vanishing ((afterTransition states t).filter (!g.isInput ·))
    return ids.map (r, ·)

/-- Numbers the transitions behind each transition that may vanish. A first one without a number, in the
order in which a walk along them meets it, is refused. -/
def relateReads (g : Grammar) (states : Array State) (x : TransitionIndex) :
    Survey (List (Nat × Nat)) := do
  let targets ← x.all.toList.mapM (g.readsThrough states)
  let edges := targets.zipIdx.flatMap fun (ts, n) => ts.map fun t => (n, x.number? t)
  match edges.mapM fun (n, target) => target.map (n, ·) with
  | some edges => return edges
  | none =>
    let relation : Digraph Transition := ⟨OrderedMap.ofList (x.all.toList.zip targets)⟩
    match relation.check (fun t => (x.number? t).isSome) x.all.toList with
    | .ok () => return []
    | .error t => throw (.error (.missing (.transition t.1 t.2)))

/-- What a walk along a right-hand side shows: the transitions at whose end the production's own
transition is found, and the state where the walk ends. -/
structure Walk where
  includes : List Transition
  last : Nat

/-- Walks along a right-hand side from a state. -/
def walk (g : Grammar) (states : Array State) (state : Nat) : List Int → Survey Walk
  | [] => return ⟨[], state⟩
  | id :: ids => do
    let s ← Survey.find (g.symbols.symbol id)
    if s.isAction then g.walk states state ids
    else
      let ends ← if s.kind = .nonterminal then g.allVanish ids else pure false
      match goto? states state id with
      | none => throw (.error (.missing (.id id)))
      | some next =>
        let rest ← g.walk states next ids
        return if ends then ⟨(state, id) :: rest.includes, rest.last⟩ else rest

/-- The relations that the right-hand sides give rise to. Transitions stand there by their numbers. -/
structure Relations where
  /-- From a transition to one at whose end it is found. -/
  includes : List (Nat × Nat) := []
  /-- For each state the productions that end there, with the transitions over their left-hand side. -/
  lookback : Array (OrderedMap Int (List Nat))

/-- Adds what a production shows that can begin where the transition with a number does. -/
def relateProduction (g : Grammar) (states : Array State) (x : TransitionIndex) (state number : Nat)
    (r : Relations) (production : Int) : Survey Relations := do
  let p ← Survey.find (g.production production)
  let w ← g.walk states state p.right
  return {
    includes := (w.includes.filterMap x.number?).foldl (fun edges n => (n, number) :: edges) r.includes
    lookback := r.lookback.modify w.last fun row =>
      row.insert production (number :: row.getD production []) }

def relate (g : Grammar) (states : Array State) (x : TransitionIndex) : Survey Relations :=
  x.all.toList.zipIdx.foldlM (fun r (t, number) => do
    let s ← Survey.find (g.symbols.symbol t.2)
    s.productions.foldlM (g.relateProduction states x t.1 number) r)
    { lookback := Array.replicate states.size ∅ }

/-- For each state the lookahead sets of the productions that end there. -/
abbrev Lookaheads := Array (OrderedMap Int TerminalSet)

/-- The lookahead set of a production in a state. -/
def Lookaheads.at (la : Lookaheads) (state : Nat) (production : Int) : TerminalSet :=
  (la.getD state ∅).getD production ∅

def lookaheads (g : Grammar) (states : Array State) : Survey Lookaheads := do
  let x := g.nonterminalTransitions states
  let reads ← g.relateReads states x
  let read := Digraph.saturate reads (x.all.map (g.directReads states))
  let r ← g.relate states x
  let follow := Digraph.saturate r.includes read
  return r.lookback.map fun row =>
    row.mapValues fun _ sources => sources.foldl (fun s n => s.union (follow.getD n ∅)) ∅

/-- The lookahead sets, after settling which symbols vanish if the answer is needed. -/
def computeLookaheads (states : Array State) : Build Lookaheads := do
  let g ← get
  match g.lookaheads states with
  | .ok la => return la
  | .error (.error e) => throw e
  | .error (.unsettled id) =>
    let _ ← isNullable id
    query fun g => (g.lookaheads states).mapError Obstacle.cause

end Grammar

end ParserGenerator
