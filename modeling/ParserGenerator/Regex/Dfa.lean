import ParserGenerator.Collection.Worklist
import ParserGenerator.Regex.Nfa

/-!
# Deterministic matching on demand

A state of the deterministic automaton is a set of nodes, in ascending order, that is closed under arcs
on nothing. States and transitions are found while texts are read, and kept. A match is the longest one;
of the rules that match that far the smallest number wins.
-/

namespace ParserGenerator

structure DfaState where
  nodes : List Nat
  accept : Option Acceptance
  /-- The transitions worked out so far; some characters lead nowhere. -/
  moves : List (Char × Option Nat) := []

/-- The states found so far; the first one is the initial state. -/
structure Dfa where
  nfa : Nfa
  states : Array DfaState

namespace Nfa

/-- The nodes that are reached from the given ones on nothing. -/
def closure (n : Nfa) (seeds : List Nat) : List Nat :=
  let next (i : Nat) : List Nat := ((n.nodes[i]?).map Node.epsilons).getD []
  (reach n.nodes.size next seeds).mergeSort (fun a b => a ≤ b)

def earlier (a b : Acceptance) : Acceptance := if a.1 ≤ b.1 then a else b

/-- The smallest acceptance among the given nodes. -/
def acceptance (n : Nfa) (nodes : List Nat) : Option Acceptance :=
  (nodes.filterMap fun i => (n.nodes[i]?).bind Node.accept).foldl
    (fun best a => some (match best with | none => a | some b => earlier b a)) none

/-- The nodes that one node leads to on a character. -/
def targets (n : Nfa) (c : Char) (i : Nat) : List Nat :=
  match n.nodes[i]? with
  | none => []
  | some x =>
    (x.arcs.filter (·.1 = c)).map Prod.snd ++ (x.classes.filter (·.1.test n.property c)).map Prod.snd

end Nfa

namespace Dfa

def stateOf (n : Nfa) (nodes : List Nat) : DfaState := ⟨nodes, n.acceptance nodes, []⟩

def ofNfa (n : Nfa) : Dfa := ⟨n, #[stateOf n (n.closure [n.start])]⟩

def size (d : Dfa) : Nat := d.states.size

/-- The number of the state with the given nodes, which is added if it is new. -/
def intern (d : Dfa) (nodes : List Nat) : Nat × Dfa :=
  match d.states.findIdx? (·.nodes = nodes) with
  | some i => (i, d)
  | none => (d.states.size, { d with states := d.states.push (stateOf d.nfa nodes) })

/-- The transition of a state on a character, worked out unless it is known. -/
def step (d : Dfa) (state : Nat) (c : Char) : Option Nat × Dfa :=
  match d.states[state]? with
  | none => (none, d)
  | some s =>
    match s.moves.find? (·.1 = c) with
    | some m => (m.2, d)
    | none =>
      let targets := s.nodes.flatMap (d.nfa.targets c)
      let (next, d) :=
        if targets.isEmpty then (none, d)
        else
          let (i, d) := d.intern (d.nfa.closure targets)
          (some i, d)
      (next, { d with
        states := d.states.modify state fun s => { s with moves := (c, next) :: s.moves } })

def acceptOf (d : Dfa) (state : Nat) : Option Acceptance := (d.states[state]?).bind DfaState.accept

/-- Reads on from a state after `count` characters; `best` is the longest match so far. -/
def run (d : Dfa) (state count : Nat) (best : Option (Nat × Acceptance)) :
    List Char → Option (Nat × Acceptance) × Dfa
  | [] => (best, d)
  | c :: cs =>
    match d.step state c with
    | (none, d) => (best, d)
    | (some next, d) =>
      let best := match d.acceptOf next with
        | some a => some (count + 1, a)
        | none => best
      run d next (count + 1) best cs

/-- The length of the longest match at the front of a text, and what it accepts for. -/
def longest (d : Dfa) (text : List Char) : Option (Nat × Acceptance) × Dfa :=
  d.run 0 0 ((d.acceptOf 0).map fun a => (0, a)) text

/-- The characters from a position up to the end that is given, or that of the text; none where the
position is not before it. -/
def window? (text : List Char) (position : Int) (stop : Option Int) : Option (List Char) :=
  let limit := match stop with
    | none => (text.length : Int)
    | some m => min m text.length
  if position < 0 ∨ limit < position then none
  else some ((text.drop position.toNat).take (limit - position).toNat)

/-- The longest match at a position of a text that ends no later than `stop`. -/
def scan (d : Dfa) (text : List Char) (position : Int) (stop : Option Int) :
    Option (Nat × Acceptance) × Dfa :=
  match window? text position stop with
  | none => (none, d)
  | some cs => d.longest cs

/-- The length of that match. -/
def matchLength (d : Dfa) (text : List Char) (position : Int) (stop : Option Int) : Option Nat × Dfa :=
  let (hit, d) := d.scan text position stop
  (hit.map Prod.fst, d)

end Dfa

/-- The length of the longest match of an expression at a position. A literal is compared directly. -/
def Regex.matchLengthBy (property : PropertyTest) (r : Regex) (text : List Char) (position : Int)
    (stop : Option Int) : Option Nat :=
  match r with
  | .literal l =>
    (Dfa.window? text position stop).bind fun cs =>
      if l.toList.isPrefixOf cs then some l.length else none
  | r => ((Dfa.ofNfa (Nfa.ofRegexBy property r)).matchLength text position stop).1

def Regex.matchLength : Regex → List Char → Int → Option Int → Option Nat := matchLengthBy .unicode

end ParserGenerator
