import ParserGenerator.Error
import ParserGenerator.Symbol.Precedence

/-!
# Symbol tables

A table gives each name one symbol and one identifier. Identifiers are handed out in order; the end
marker always has the same one. A table that is restored from storage takes identifiers as they come,
also negative ones, which count slots from the end of the table as it is at that time.
-/

namespace ParserGenerator

structure Symbol where
  name : String
  id : Int
  kind : SymbolKind
  precedence : Option Precedence := none
  /-- Code that sets up the value of a nonterminal. -/
  initialiser : String := ""
  /-- The numbers of the productions of a nonterminal, in the order of declaration. -/
  productions : List Int := []
  /-- The code of an action symbol. -/
  actionText : Option String := none
  deriving DecidableEq

namespace Symbol

def isInput (s : Symbol) : Bool := s.kind.isInput
def isAction (s : Symbol) : Bool := s.kind.isAction

/-- The symbol as a debugging text. -/
def describe (s : Symbol) : String := s!"Symbol({quoted s.name}, id={s.id}, kind={s.kind.name})"

end Symbol

/-- The name and identifier of the end marker. -/
def endMarkerName : String := "EOF"
def endMarkerId : Int := 2

structure SymbolTable where
  slots : Array (Option Symbol)
  frozen : Bool
  deriving DecidableEq

namespace SymbolTable

/-- A table that holds the end marker alone; the slots before it stay vacant. -/
def fresh : SymbolTable :=
  ⟨#[none, none, some { name := endMarkerName, id := endMarkerId, kind := .endMarker }], false⟩

/-- All symbols in the order of their slots. -/
def symbols (t : SymbolTable) : List Symbol := t.slots.toList.filterMap id

def size (t : SymbolTable) : Nat := t.symbols.length

/-- The greatest identifier that is taken or skipped. -/
def lastId (t : SymbolTable) : Int := (t.slots.size : Int) - 1

/-- The symbol in the slot of a non-negative identifier. -/
def at? (t : SymbolTable) (id : Int) : Option Symbol :=
  if id < 0 then none else (t.slots[id.toNat]?).join

/-- The slot that an identifier means: a negative one counts from the end. -/
def slotOf? (t : SymbolTable) (id : Int) : Option Nat :=
  let i := if id < 0 then id + t.slots.size else id
  if 0 ≤ i ∧ i < t.slots.size then some i.toNat else none

/-- The symbol that was registered under a name. -/
def find? (t : SymbolTable) (name : String) : Option Symbol := t.symbols.find? (·.name = name)

def contains (t : SymbolTable) (name : String) : Bool := (t.find? name).isSome

/-- The symbol that now is in the slot of a symbol's identifier: another one, or none, where a negative
identifier was overtaken by the growth of the table. -/
def current? (t : SymbolTable) (s : Symbol) : Option Symbol :=
  (t.slotOf? s.id).bind fun i => (t.slots[i]?).join

/-- The symbol in the slot of a name's identifier. -/
def get? (t : SymbolTable) (name : String) : Option Symbol := (t.find? name).bind t.current?

/-- The table with the symbol of that name replaced. -/
def update (t : SymbolTable) (s : Symbol) : SymbolTable :=
  { t with slots := t.slots.map fun slot => slot.map fun x => if x.name = s.name then s else x }

/-- The table with a symbol in a slot, after as many vacant slots as it takes. -/
def install (t : SymbolTable) (slot : Nat) (s : Symbol) : SymbolTable :=
  let grown := t.slots ++ Array.replicate (slot + 1 - t.slots.size) none
  { t with slots := grown.setIfInBounds slot (some s) }

def freeze (t : SymbolTable) : SymbolTable := { t with frozen := true }

/-- The symbol of a name, registered under the next identifier if it is new. A kind settles the kind
of a symbol whose kind is not known yet. -/
def resolve (t : SymbolTable) (name : String) (kind : SymbolKind) :
    Except Error (Symbol × SymbolTable) :=
  match t.find? name with
  | some registered =>
    match t.current? registered with
    | none => .error .vacantSlot
    | some s =>
      if s.kind = .unknown ∧ kind ≠ .unknown then
        let s := { s with kind := kind }
        .ok (s, t.update s)
      else .ok (s, t)
  | none =>
    if t.frozen then .error (.definition (.frozenTable name))
    else
      let s : Symbol := { name := name, id := t.slots.size, kind := kind }
      .ok (s, t.install t.slots.size s)

/-- Registers a symbol from storage under the identifier it had. A name that is there keeps its
identifier and takes the kind. -/
def restore (t : SymbolTable) (name : String) (id : Int) (kind : SymbolKind) :
    Except Error (Symbol × SymbolTable) :=
  match t.find? name with
  | some registered =>
    match t.current? registered with
    | none => .error .vacantSlot
    | some s =>
      if s.id ≠ id then .error (.definition (.restoredElsewhere name id s.id))
      else
        let s := { s with kind := kind }
        .ok (s, t.update s)
  | none =>
    let s : Symbol := { name := name, id := id, kind := kind }
    if id < t.slots.size then
      match t.slotOf? id with
      | none => .error .outOfRange
      | some slot =>
        match (t.slots[slot]?).join with
        | some holder => .error (.definition (.idTaken id name holder.name))
        | none => .ok (s, t.install slot s)
    else .ok (s, t.install id.toNat s)

/-- The identifier of a name. -/
def idOf (t : SymbolTable) (name : String) : Except Error Int :=
  match t.find? name with
  | some s => .ok s.id
  | none => .error (.missing (.name name))

/-- The symbol of an identifier. -/
def symbol (t : SymbolTable) (id : Int) : Except Error Symbol :=
  match t.at? id with
  | some s => .ok s
  | none => .error (.missing (.id id))

/-- The name of an identifier. -/
def nameOf (t : SymbolTable) (id : Int) : Except Error String := (t.symbol id).map Symbol.name

def terminals (t : SymbolTable) : List Symbol := t.symbols.filter Symbol.isInput
def nonterminals (t : SymbolTable) : List Symbol := t.symbols.filter (·.kind = .nonterminal)

/-- A list of quoted names in brackets. -/
def nameList (ss : List Symbol) : String :=
  "[" ++ ", ".intercalate (ss.map fun s => quoted s.name) ++ "]"

/-- The table as a debugging text. -/
def describe (t : SymbolTable) : String :=
  s!"SymbolTable(terms={nameList t.terminals}, nonterms={nameList t.nonterminals})"

end SymbolTable

end ParserGenerator
