/-!
# Kinds of grammar symbols

Terminals and nonterminals make up the language. Action symbols mark where a block of action code
stands in a right-hand side and derive nothing but the empty string. The end marker closes every input.
-/

namespace ParserGenerator

inductive SymbolKind where
  | unknown | terminal | nonterminal | node | innerAction | trailingAction | endMarker
  deriving DecidableEq

namespace SymbolKind

/-- The number that stands for the kind in stored tables. -/
def tag : SymbolKind → Int
  | unknown => 0
  | terminal => 1
  | nonterminal => 2
  | node => 3
  | innerAction => 4
  | trailingAction => 5
  | endMarker => 6

def ofTag? (n : Int) : Option SymbolKind :=
  [unknown, terminal, nonterminal, node, innerAction, trailingAction, endMarker].find? (·.tag = n)

@[simp] theorem ofTag?_tag (k : SymbolKind) : ofTag? k.tag = some k := by
  cases k <;> rfl

def name : SymbolKind → String
  | unknown => "unknown"
  | terminal => "terminal"
  | nonterminal => "nonterminal"
  | node => "nodesymbol"
  | innerAction => "oldaction"
  | trailingAction => "simpleaction"
  | endMarker => "eofsymbol"

/-- Whether the symbol can be the next one of an input. -/
def isInput : SymbolKind → Bool
  | terminal | endMarker => true
  | _ => false

def isAction : SymbolKind → Bool
  | innerAction | trailingAction => true
  | _ => false

end SymbolKind

end ParserGenerator
