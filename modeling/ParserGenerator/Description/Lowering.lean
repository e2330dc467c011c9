import ParserGenerator.Description.Basic
import ParserGenerator.Grammar.Close

/-!
# From descriptions to grammars

Groups and repeated atoms become nonterminals of their own: a group has the productions of its
alternatives, a repeated atom one empty production and one that goes on. A block of action code inside
an alternative becomes a symbol in its place; at the end of one it belongs to the production.
-/

namespace ParserGenerator

/-- A grammar that is being made, and how many helper nonterminals of each sort it has. -/
structure Lowering where
  grammar : Grammar := .fresh
  groups : Nat := 0
  repetitions : Nat := 0
  options : Nat := 0

abbrev Lower := EStateM Error Lowering

/-- The name of the start symbol: the one that was chosen, unless it is empty, and else that of the first
rule. -/
def Description.startName (d : Description) : Option String :=
  d.start.filter (· ≠ "") <|> d.rules.head?.map Rule.name

namespace Lowering

open Grammar (RightSymbol)

def build {α : Type} (b : Build α) : Lower α := fun l =>
  match b l.grammar with
  | .ok a g => .ok a { l with grammar := g }
  | .error e g => .error e { l with grammar := g }

def groupName (n : Nat) : String := s!"__grp{n}"
def repetitionName (n : Nat) : String := s!"__rep{n}"
def optionName (n : Nat) : String := s!"__opt{n}"

def newGroup : Lower String := do
  modify fun l => { l with groups := l.groups + 1 }
  return groupName (← get).groups

def newRepetition : Lower String := do
  modify fun l => { l with repetitions := l.repetitions + 1 }
  return repetitionName (← get).repetitions

def newOption : Lower String := do
  modify fun l => { l with options := l.options + 1 }
  return optionName (← get).options

def addPlain (left : String) (right : List RightSymbol) : Lower Unit := do
  let _ ← build (Grammar.addProduction left right none none)

/-- A helper for any number of the given symbols in a row. -/
def repeated (base : RightSymbol) : Lower RightSymbol := do
  let name ← newRepetition
  addPlain name []
  addPlain name [base, .name name]
  return .name name

/-- The symbols that stand for a symbol with a suffix. -/
def suffixed (base : RightSymbol) : Suffix → Lower (List RightSymbol)
  | .once => return [base]
  | .opt => do
    let name ← newOption
    addPlain name []
    addPlain name [base]
    return [.name name]
  | .star => return [← repeated base]
  | .plus => return [base, ← repeated base]

mutual

/-- The symbols that an atom stands for. -/
def lowerAtom : Atom → Lower (List RightSymbol)
  | .name ident suffix _ => suffixed (.name ident) suffix
  | .literal text suffix _ => do
    let _ ← build (Grammar.declareTerminal text)
    suffixed (.name text) suffix
  | .group as suffix _ => do
    let name ← newGroup
    let _ ← build (Grammar.declareNonterminal name "")
    lowerAlternatives name as
    suffixed (.name name) suffix
  | .action code _ => do return [.interned (← build (Grammar.newAction code false))]

/-- The atoms before a trailing action, whose code is the second component. -/
def lowerItems : List Atom → Lower (List RightSymbol × Option String)
  | [] => return ([], none)
  | [.action code _] => return ([], some code)
  | a :: as => do
    let symbols ← lowerAtom a
    let (rest, action) ← lowerItems as
    return (symbols ++ rest, action)

/-- Adds the production of an alternative. -/
def lowerAlternative (left : String) : Alternative → Lower Unit
  | .mk items label => do
    let (right, action) ← lowerItems items
    let _ ← build (Grammar.addProduction left right action label)

def lowerAlternatives (left : String) : List Alternative → Lower Unit
  | [] => return
  | a :: as => do
    lowerAlternative left a
    lowerAlternatives left as

end

/-- Adds the productions of a rule. Rules of one name add to each other. -/
def lowerRule (r : Rule) : Lower Unit := do
  let _ ← build (Grammar.declareNonterminal r.name "")
  lowerAlternatives r.name r.alternatives

/-- Makes the grammar: keywords and tokens, declared symbols, precedence, then the rules. -/
def lower (d : Description) : Lower Unit := do
  d.keywords.forM fun k => do let _ ← build (Grammar.declareTerminal k.text)
  d.tokens.forM fun t => do let _ ← build (Grammar.declareTerminal t.name)
  d.symbols.forM fun s => do let _ ← build (Grammar.declareNonterminal s.name s.initialiser)
  d.precedences.forM fun p => do let _ ← build (Grammar.declarePrecedence p.associativity p.labels)
  d.rules.forM lowerRule
  build (Grammar.close d.startName)

end Lowering

/-- The closed grammar of a description. -/
def Description.toGrammar (d : Description) : Except Error Grammar :=
  match Lowering.lower d {} with
  | .ok _ l => .ok l.grammar
  | .error e _ => .error e

end ParserGenerator
