import ParserGenerator.Collection.OrderedSet
import ParserGenerator.Description.Basic

/-!
# The literals of a description

Keywords come first, then the literals of the rules in order. In a choice the literals of its own
alternatives come before those of the groups inside it.
-/

namespace ParserGenerator

mutual

/-- The literal that an atom is by itself. -/
def Atom.ownLiterals : Atom → List String
  | .literal text _ _ => [text]
  | _ => []

/-- The literals of the groups that an atom is made of. -/
def Atom.innerLiterals : Atom → List String
  | .group as _ _ => Alternative.ownLiteralsOfAll as ++ Alternative.innerLiteralsOfAll as
  | _ => []

def Atom.ownLiteralsOfAll : List Atom → List String
  | [] => []
  | a :: as => a.ownLiterals ++ Atom.ownLiteralsOfAll as

def Atom.innerLiteralsOfAll : List Atom → List String
  | [] => []
  | a :: as => a.innerLiterals ++ Atom.innerLiteralsOfAll as

def Alternative.ownLiterals : Alternative → List String
  | .mk items _ => Atom.ownLiteralsOfAll items

def Alternative.innerLiterals : Alternative → List String
  | .mk items _ => Atom.innerLiteralsOfAll items

def Alternative.ownLiteralsOfAll : List Alternative → List String
  | [] => []
  | a :: as => a.ownLiterals ++ Alternative.ownLiteralsOfAll as

def Alternative.innerLiteralsOfAll : List Alternative → List String
  | [] => []
  | a :: as => a.innerLiterals ++ Alternative.innerLiteralsOfAll as

end

/-- The literals of a rule, those of its own alternatives first. -/
def Rule.literals (r : Rule) : List String :=
  Alternative.ownLiteralsOfAll r.alternatives ++ Alternative.innerLiteralsOfAll r.alternatives

/-- All literals of a description, each once. -/
def Description.literals (d : Description) : List String :=
  (OrderedSet.ofList (d.keywords.map KeywordDecl.text ++ d.rules.flatMap Rule.literals)).toList

end ParserGenerator
