import ParserGenerator.Json.Printer
import ParserGenerator.Json.Reader
import ParserGenerator.Storage.Stream

/-!
# Table files

A table file is a JSON object that names its format and version and holds a stream of tables beside
the fingerprint of the grammar they were built from.
-/

namespace ParserGenerator.TableFile

open Json (Value)

/-- The name of the format. -/
def format : String := "lalrtools-tables"

/-- The fields of a table file. -/
def fields (fingerprint : String) (stream : List Value) : List (String × Value) :=
  [("format", .string format), ("version", .string Storage.version),
    ("fingerprint", .string fingerprint), ("stream", .array stream)]

/-- The text of a table file. -/
def write (g : Grammar) (t : Tables) (fingerprint : String) : String :=
  (Value.object (fields fingerprint (Storage.encode g t))).render

/-- What a table file holds, before its stream is decoded. -/
structure Contents where
  fingerprint : String
  stream : List Value

/-- The JSON value of a text. -/
def parse (text : String) : Except Error Value :=
  match Json.parse text with
  | .ok v => .ok v
  | .error (.malformed fault offset) =>
    .error (.stream (.notJson (Json.Failure.message text (.malformed fault offset))))
  | .error (.tooManyDigits count) => .error (.value (.digitCount (.tooManyDigits count)))

/-- Whether a value is the text. -/
def isText (s : String) : Value → Bool
  | .string t => t = s
  | _ => false

/-- The text of an optional field. -/
def optionalText (v : Value) : String := if v.isBlank then "" else v.shown

/-- Opens a table file: its format, then its version, then its stream is looked at. -/
def contents (text : String) : Except Error Contents := do
  let file ← parse text
  if !isText format (file.get "format") then throw (.stream (.notTables format))
  let found := file.get "version"
  if !isText Storage.version found then
    throw (.stream (.version Storage.version found.shown))
  match file.get "stream" with
  | .array stream => return ⟨optionalText (file.get "fingerprint"), stream⟩
  | _ => throw (.stream .noStream)

/-- The fingerprint that a table file holds; its stream is not decoded. -/
def readFingerprint (text : String) : Except Error String := do
  return (← contents text).fingerprint

/-- The grammar, the tables and the fingerprint of a table file. -/
def read (text : String) : Except Error (Grammar × Tables × String) := do
  let file ← contents text
  let (g, t) ← Storage.decode file.stream
  return (g, t, file.fingerprint)

end ParserGenerator.TableFile
