import ParserGenerator.Error
import ParserGenerator.Text.GeneralCategory

/-!
# Properties of characters

A property is named by a general category or a group of categories, and holds of their characters; behind
a circumflex it holds of all others. The name of the property that categories belong to may stand before
the name of the category, and alone it denotes the characters that have a category assigned. Case, blanks,
hyphens and low lines do not count.
-/

namespace ParserGenerator

/-- A set of code points. -/
abbrev CodeSet := Nat → Bool

namespace Property

def isNameCharacter (c : Char) : Bool := c.isAlphanum || c ∈ [' ', '&', '_', '-', '.']

def isValueCharacter (c : Char) : Bool := isNameCharacter c || c = '/'

/-- The characters that do not count where names are compared. -/
def fillers : List Char := ['_', '-', ' ']

/-- A name as it is compared with others. -/
def normalName (cs : List Char) : String :=
  String.ofList ((cs.filter (· ∉ fillers)).map Char.toUpper)

/-- The name of a set of characters, and the property that it belongs to, if that is given. -/
structure Name where
  owner : String
  value : String

/-- The name at the beginning of a text, and the rest of the text. What follows a colon or an equals sign
is the name proper, unless it is blank. -/
def Name.split (cs : List Char) : Name × List Char :=
  let word := cs.takeWhile isNameCharacter
  let rest := cs.drop word.length
  let plain := (⟨"", normalName word⟩, rest)
  match rest with
  | [] => plain
  | mark :: behind =>
    let value := behind.takeWhile isValueCharacter
    if mark ∈ [':', '='] ∧ value.any (· ≠ ' ') then
      (⟨normalName word, normalName value⟩, behind.drop value.length)
    else plain

/-- The names of the property that categories belong to. -/
def ownerNames : List String := ["GC", "GENERALCATEGORY"]

/-- The code points of the categories with a name. -/
def ofCategory (name : String) : CodeSet := fun n =>
  (GeneralCategory.ofCodePoint n).names.contains name

def isCategoryName (name : String) : Bool := GeneralCategory.all.any (·.names.contains name)

def ofName (n : Name) : Except PropertyFault CodeSet :=
  if n.owner ≠ "" ∧ n.owner ∉ ownerNames then .error .unknownProperty
  else if isCategoryName n.value then .ok (ofCategory n.value)
  else if n.owner ≠ "" then .error .unknownValue
  else if n.value ∈ ownerNames then .ok (ofCategory "ASSIGNED")
  else .error .unknownProperty

end Property

end ParserGenerator
