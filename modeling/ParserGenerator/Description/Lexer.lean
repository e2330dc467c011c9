import ParserGenerator.Description.Literals
import ParserGenerator.Lexer.Basic

/-!
# The lexer of a description

Each literal is a rule of its own, before the rules for the declared tokens, so that keywords win over
patterns that match as far. Tokens without a pattern have no rule.
-/

namespace ParserGenerator.Description

/-- Reads a pattern; a fault in it is reported as one of its declaration. -/
def compilePattern (definitions : OrderedMap String String) (pattern declaration : String) :
    Except Error Regex :=
  match Regex.parse definitions pattern with
  | .error (.source e) => .error (.source (.inDeclaration declaration e))
  | r => r

def patternDefinitions (d : Description) : OrderedMap String String :=
  OrderedMap.ofList (d.definitions.map fun x => (x.name, x.pattern))

/-- The rule of a declared token, if it has a pattern. -/
def tokenRule? (definitions : OrderedMap String String) (t : TokenDecl) :
    Except Error (Option (String × Regex)) :=
  match t.pattern with
  | none => .ok none
  | some p => do return some (t.name, ← compilePattern definitions p s!"%token {t.name}")

/-- The lexer for the literals and declared tokens. -/
def lexer (d : Description) : Except Error Lexer := do
  let definitions := d.patternDefinitions
  let literalRules := d.literals.map fun s => (s, Regex.literal s)
  let tokenRules ← d.tokens.filterMapM (tokenRule? definitions)
  let ignored ← d.ignored.mapM fun x => compilePattern definitions x.pattern "%ignore"
  return Lexer.ofRules (literalRules ++ tokenRules) ignored

end ParserGenerator.Description
