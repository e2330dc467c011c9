/-!
# Precedence

Operators are declared line by line. All labels of one line share their associativity and a level;
each line binds tighter than the lines before it.
-/

namespace ParserGenerator

inductive Associativity where
  | left | right | nonassoc
  deriving DecidableEq

namespace Associativity

def name : Associativity → String
  | left => "left"
  | right => "right"
  | nonassoc => "nonassoc"

def all : List Associativity := [left, right, nonassoc]

def ofName? (s : String) : Option Associativity := all.find? (·.name = s)

@[simp] theorem ofName?_name (a : Associativity) : ofName? a.name = some a := by
  cases a <;> rfl

end Associativity

structure Precedence where
  associativity : Associativity
  level : Int
  deriving DecidableEq

end ParserGenerator
