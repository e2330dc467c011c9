import ParserGenerator.Json.Value
import ParserGenerator.Number.Shortest
import ParserGenerator.Text.Quoted

/-!
# Printing of JSON values

`render` writes JSON text on one line, a blank after each comma and colon, all characters as they are
but quotes, backslashes and controls. `shown` writes a value as messages show it.
-/

namespace ParserGenerator.Json

/-- How one character stands inside a JSON string. -/
def escape (c : Char) : List Char :=
  if c = '"' then ['\\', '"']
  else if c = '\\' then ['\\', '\\']
  else if c = '\n' then ['\\', 'n']
  else if c = '\r' then ['\\', 'r']
  else if c = '\t' then ['\\', 't']
  else if c = '\x0c' then ['\\', 'f']
  else if c = '\x08' then ['\\', 'b']
  else if c.toNat < 0x20 then '\\' :: 'u' :: Hex.padded 4 c.toNat
  else [c]

def renderString (s : String) : List Char := '"' :: s.toList.flatMap escape ++ ['"']

/-- The texts with a comma and a blank between them. -/
def commaSeparated : List (List Char) → List Char
  | [] => []
  | [t] => t
  | t :: ts => t ++ ',' :: ' ' :: commaSeparated ts

namespace Value

mutual

def chars : Value → List Char
  | .null => "null".toList
  | .bool b => if b then "true".toList else "false".toList
  | .int n => (toString n).toList
  | .float x => (x.text ("Infinity", "NaN")).toList
  | .string s => renderString s
  | .array items => '[' :: commaSeparated (charsOfAll items) ++ [']']
  | .object fields => '\x7b' :: commaSeparated (charsOfFields fields) ++ ['\x7d']

def charsOfAll : List Value → List (List Char)
  | [] => []
  | v :: vs => v.chars :: charsOfAll vs

def charsOfFields : List (String × Value) → List (List Char)
  | [] => []
  | (name, v) :: fs => (renderString name ++ ':' :: ' ' :: v.chars) :: charsOfFields fs

end

/-- The JSON text of a value. -/
def render (v : Value) : String := String.ofList v.chars

mutual

/-- The text of a value inside a container: strings stand in quotes. -/
def nestedText : Value → String
  | .null => "None"
  | .bool b => if b then "True" else "False"
  | .int n => toString n
  | .float x => x.text ("inf", "nan")
  | .string s => quoted s
  | .array items => "[" ++ ", ".intercalate (nestedTexts items) ++ "]"
  | .object fields => "\x7b" ++ ", ".intercalate (fieldTexts fields) ++ "\x7d"

def nestedTexts : List Value → List String
  | [] => []
  | v :: vs => v.nestedText :: nestedTexts vs

def fieldTexts : List (String × Value) → List String
  | [] => []
  | (name, v) :: fs => (quoted name ++ ": " ++ v.nestedText) :: fieldTexts fs

end

/-- The text of a value by itself: a string stands without quotes. -/
def shown : Value → String
  | .string s => s
  | v => v.nestedText

end Value

end ParserGenerator.Json
