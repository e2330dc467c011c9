import ParserGenerator.LR.Tables
import ParserGenerator.Storage.Format

/-!
# Records of a stream

The formats of what grammars and tables are made of: symbols, labels, productions, cells, reports.
-/

namespace ParserGenerator.Storage

open Format

/-- A symbol as it is stored. Neither its kind nor its precedence has been checked. -/
structure SymbolRecord where
  name : String
  id : Int
  tag : Int
  initialiser : String
  actionText : Option String
  precedence : Option (String × Int)
  deriving DecidableEq

namespace SymbolRecord

def ofSymbol (s : Symbol) : SymbolRecord where
  name := s.name
  id := s.id
  tag := s.kind.tag
  initialiser := s.initialiser
  actionText := s.actionText
  precedence := s.precedence.map fun p => (p.associativity.name, p.level)

end SymbolRecord

/-- The associativity and level of an operator. -/
def precedence : Format (String × Int) where
  write p := text.write p.1 ++ integer.write p.2
  read := do
    let associativity ← text.read
    let level ← integer.read
    return (associativity, level)

/-- A precedence that may be absent. A number before it is zero if it is. -/
def optionalPrecedence : Format (Option (String × Int)) where
  write
    | some p => integer.write 1 ++ precedence.write p
    | none => integer.write 0
  read := do
    let present ← integer.read
    if present = 0 then return none
    return some (← precedence.read)

def symbolRecord : Format SymbolRecord where
  write s := text.write s.name ++ integer.write s.id ++ integer.write s.tag ++
    text.write s.initialiser ++ optionalText.write s.actionText ++
    optionalPrecedence.write s.precedence
  read := do
    let name ← text.read
    let id ← integer.read
    let tag ← integer.read
    let initialiser ← text.read
    let actionText ← optionalText.read
    let precedence ← optionalPrecedence.read
    return ⟨name, id, tag, initialiser, actionText, precedence⟩

/-- A label with its precedence. -/
def labelRecord : Format (String × String × Int) where
  write l := text.write l.1 ++ precedence.write l.2
  read := do
    let label ← text.read
    let p ← precedence.read
    return (label, p)

def production : Format Production where
  write p := integer.write p.number ++ integer.write p.left ++ (many integer).write p.right ++
    optionalText.write p.action ++ optionalText.write p.label
  read := do
    let number ← integer.read
    let left ← integer.read
    let right ← (many integer).read
    let action ← optionalText.read
    let label ← optionalText.read
    return ⟨number, left, right, action, label⟩

/-- A cell of the action table. -/
def actionCell : Format ((Int × Int) × Action) where
  write c := integer.write c.1.1 ++ integer.write c.1.2 ++ text.write c.2.kind.name ++
    integer.write c.2.argument
  read := do
    let state ← integer.read
    let terminal ← integer.read
    let kind ← text.read
    let argument ← integer.read
    return ((state, terminal), ⟨.ofName kind, argument⟩)

/-- A cell of the goto table. -/
def gotoCell : Format ((Int × Int) × Int) where
  write c := integer.write c.1.1 ++ integer.write c.1.2 ++ integer.write c.2
  read := do
    let state ← integer.read
    let left ← integer.read
    let target ← integer.read
    return ((state, left), target)

def conflict : Format Conflict where
  write c := text.write c.kind ++ integer.write c.state ++ integer.write c.terminal ++
    (many integer).write c.productions ++ text.write c.resolution ++ text.write c.resolvedBy ++
    text.write c.message
  read := do
    let kind ← text.read
    let state ← integer.read
    let terminal ← integer.read
    let productions ← (many integer).read
    let resolution ← text.read
    let resolvedBy ← text.read
    let message ← text.read
    return ⟨kind, state, terminal, productions, resolution, resolvedBy, message⟩

def violation : Format Violation where
  write v := integer.write v.state ++ integer.write v.terminal ++ integer.write v.production
  read := do
    let state ← integer.read
    let terminal ← integer.read
    let production ← integer.read
    return ⟨state, terminal, production⟩

end ParserGenerator.Storage
