import ParserGenerator.Regex.Basic

/-!
# Nondeterministic automata

An automaton is a row of nodes with arcs on single characters, on classes of characters and on nothing.
A regular expression becomes paths between two given nodes; further nodes are numbered as they come.
Of the rules of a lexer each has its own last node, which carries the number and name of the rule.
-/

namespace ParserGenerator

/-- The rule that a node accepts for: its number, smaller ones first, and its name. -/
abbrev Acceptance := Nat × String

structure Node where
  arcs : List (Char × Nat) := []
  classes : List (CharClass × Nat) := []
  epsilons : List Nat := []
  accept : Option Acceptance := none

structure Nfa where
  nodes : Array Node := #[]
  start : Nat := 0
  /-- By which the classes on the arcs are tested. -/
  property : PropertyTest := .unicode

namespace Nfa

def addNode (n : Nfa) : Nfa := { n with nodes := n.nodes.push {} }

def change (n : Nfa) (i : Nat) (f : Node → Node) : Nfa := { n with nodes := n.nodes.modify i f }

def addArc (n : Nfa) (i : Nat) (c : Char) (target : Nat) : Nfa :=
  n.change i fun x => { x with arcs := x.arcs ++ [(c, target)] }

def addClass (n : Nfa) (i : Nat) (c : CharClass) (target : Nat) : Nfa :=
  n.change i fun x => { x with classes := x.classes ++ [(c, target)] }

def addEpsilon (n : Nfa) (i target : Nat) : Nfa :=
  n.change i fun x => { x with epsilons := x.epsilons ++ [target] }

def setAccept (n : Nfa) (i : Nat) (a : Acceptance) : Nfa :=
  n.change i fun x => { x with accept := some a }

/-- A chain of arcs for the characters of a literal. -/
def addChain (finish : Nat) : List Char → Nat → Nfa → Nfa
  | [], i, n => n.addEpsilon i finish
  | c :: cs, i, n =>
    let next := n.nodes.size
    addChain finish cs next (n.addNode.addArc i c next)

/-- Two fresh nodes, the first reached from `start` and the second leading to `finish`, with paths made
between them. -/
def between (start finish : Nat) (paths : Nat → Nat → Nfa → Nfa) (n : Nfa) : Nfa :=
  let first := n.nodes.size
  let last := first + 1
  ((paths first last (n.addNode.addNode.addEpsilon start first)).addEpsilon last finish)

mutual

/-- Adds paths from `start` to `finish` for an expression. -/
def addRegex : Regex → Nat → Nat → Nfa → Nfa
  | .empty, start, finish, n => n.addEpsilon start finish
  | .literal text, start, finish, n => addChain finish text.toList start n
  | .oneOf c, start, finish, n => n.addClass start c finish
  | .concat parts, start, finish, n => addConcat parts start finish n
  | .alt options, start, finish, n => addAlt options start finish n
  | .star r, start, finish, n =>
    let first := n.nodes.size
    ((between start finish (addRegex r) n).addEpsilon (first + 1) first).addEpsilon start finish
  | .plus r, start, finish, n =>
    let first := n.nodes.size
    (between start finish (addRegex r) n).addEpsilon (first + 1) first
  | .opt r, start, finish, n => (between start finish (addRegex r) n).addEpsilon start finish

/-- One part after the other, with a fresh node between each two. -/
def addConcat : List Regex → Nat → Nat → Nfa → Nfa
  | [], start, finish, n => n.addEpsilon start finish
  | [r], start, finish, n => addRegex r start finish n
  | r :: rs, start, finish, n =>
    let middle := n.nodes.size
    addConcat rs middle finish (addRegex r start middle n.addNode)

def addAlt : List Regex → Nat → Nat → Nfa → Nfa
  | [], _, _, n => n
  | r :: rs, start, finish, n => addAlt rs start finish (between start finish (addRegex r) n)

end

/-- The automaton of one expression, between its first two nodes. -/
def ofRegexBy (property : PropertyTest) (r : Regex) : Nfa :=
  (addRegex r 0 1 (Nfa.addNode (Nfa.addNode { property }))).setAccept 1 (0, "")

def ofRegex : Regex → Nfa := ofRegexBy .unicode

/-- Adds a rule with a number that is reached from the start. -/
def addRule (n : Nfa) (number : Nat) (name : String) (r : Regex) : Nfa :=
  let first := n.nodes.size
  (addRegex r first (first + 1) (n.addNode.addNode.addEpsilon n.start first)).setAccept (first + 1)
    (number, name)

/-- One automaton for the rules of a lexer, of which the earlier ones come first. -/
def ofRulesBy (property : PropertyTest) (rules : List (String × Regex)) : Nfa :=
  rules.zipIdx.foldl (fun n (rule, number) => n.addRule number rule.1 rule.2)
    (Nfa.addNode { property })

def ofRules : List (String × Regex) → Nfa := ofRulesBy .unicode

end Nfa

end ParserGenerator
