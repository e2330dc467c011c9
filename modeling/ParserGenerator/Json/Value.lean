import ParserGenerator.Number.Binary64

/-!
# JSON values

Whole numbers are kept exactly, other numbers as binary ones. The fields of an object stand in the
order in which their names first came; a repeated name keeps its place and takes the last value.
-/

namespace ParserGenerator.Json

inductive Value where
  | null
  | bool (b : Bool)
  | int (n : Int)
  | float (x : Binary64)
  | string (s : String)
  | array (items : List Value)
  | object (fields : List (String × Value))
  deriving BEq

instance : Inhabited Value := ⟨.null⟩

/-- The kind of a value, as messages name it. -/
inductive Kind where
  | null | bool | int | float | string | array | object
  deriving DecidableEq

def Kind.name : Kind → String
  | .null => "NoneType"
  | .bool => "bool"
  | .int => "int"
  | .float => "float"
  | .string => "str"
  | .array => "list"
  | .object => "dict"

namespace Value

def kind : Value → Kind
  | .null => .null
  | .bool _ => .bool
  | .int _ => .int
  | .float _ => .float
  | .string _ => .string
  | .array _ => .array
  | .object _ => .object

/-- The fields with one more: a name that is there keeps its place. -/
def setField (name : String) (v : Value) : List (String × Value) → List (String × Value)
  | [] => [(name, v)]
  | f :: fs => if f.1 = name then (name, v) :: fs else f :: setField name v fs

def field? (name : String) : List (String × Value) → Option Value
  | [] => none
  | f :: fs => if f.1 = name then some f.2 else field? name fs

/-- The value of a field, `null` where the value has no such field. -/
def get (v : Value) (name : String) : Value :=
  match v with
  | .object fields => (field? name fields).getD .null
  | _ => .null

/-- Whether a value counts as absent where a text is optional: nothing, zero and all empty values. -/
def isBlank : Value → Bool
  | .null => true
  | .bool b => !b
  | .int n => n = 0
  | .float x => x.isZero
  | .string s => s.isEmpty
  | .array items => items.isEmpty
  | .object fields => fields.isEmpty

end Value

end ParserGenerator.Json
