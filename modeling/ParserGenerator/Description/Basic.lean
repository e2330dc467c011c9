/-!
# Descriptions of grammars

A description is a grammar as it is written: declarations of tokens, symbols and precedence, and rules
with alternatives, groups, repetition and blocks of action code. All parts know their place in the text.
-/

namespace ParserGenerator

/-- A stretch of a text, from the offset `start` up to `stop`, and the place where it begins. -/
structure Span where
  start : Nat
  stop : Nat
  line : Nat
  column : Nat
  deriving DecidableEq

/-- How often an atom may stand. -/
inductive Suffix where
  | once | opt | star | plus
  deriving DecidableEq

mutual

/-- A part of an alternative. A block of action code is never repeated. -/
inductive Atom where
  | name (ident : String) (suffix : Suffix) (span : Span)
  | literal (text : String) (suffix : Suffix) (span : Span)
  | group (alternatives : List Alternative) (suffix : Suffix) (span : Span)
  | action (code : String) (span : Span)

/-- One alternative: atoms in a row, and the label whose precedence it takes. -/
inductive Alternative where
  | mk (items : List Atom) (label : Option String)

end

namespace Alternative

def items : Alternative → List Atom
  | mk items _ => items

def label : Alternative → Option String
  | mk _ label => label

end Alternative

/-- A token that a lexer is to find by a pattern. Without a pattern the tokens come from elsewhere. -/
structure TokenDecl where
  name : String
  pattern : Option String
  span : Span

structure IgnoreDecl where
  pattern : String
  span : Span

/-- A named pattern, for use inside other patterns. -/
structure DefineDecl where
  name : String
  pattern : String
  span : Span

structure KeywordDecl where
  text : String
  span : Span

/-- A nonterminal with code that sets up its value. -/
structure SymbolDecl where
  name : String
  initialiser : String
  span : Span

/-- A line of operators. -/
structure PrecedenceDecl where
  associativity : String
  labels : List String
  span : Span

structure Rule where
  name : String
  alternatives : List Alternative
  span : Span

structure Description where
  start : Option String := none
  tokens : List TokenDecl := []
  ignored : List IgnoreDecl := []
  definitions : List DefineDecl := []
  keywords : List KeywordDecl := []
  symbols : List SymbolDecl := []
  precedences : List PrecedenceDecl := []
  rules : List Rule := []

end ParserGenerator
