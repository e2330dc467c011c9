import ParserGenerator.Regex.Pattern.Reader
import ParserGenerator.Text.CodeRanges

/-!
# Regular expressions

A regular expression is built from the empty text, literals and classes of characters by concatenation,
choice and repetition. A class is a set of code points, perhaps inverted, or a property. Which characters
have a property is told by a test.
-/

namespace ParserGenerator

/-- Whether a character has the property that a text stands for. -/
abbrev PropertyTest := String → Char → Bool

/-- The properties of the Unicode standard. -/
def PropertyTest.unicode : PropertyTest := fun text c =>
  match Pattern.ofProperty text with
  | .ok (p, groups) => p.accepts groups c
  | .error _ => false

inductive CharClass where
  | ranges (spans : CodeRanges) (inverted : Bool)
  /-- A property, by the text that stands for it. -/
  | category (text : String)
  deriving DecidableEq

namespace CharClass

def test (property : PropertyTest) (c : Char) : CharClass → Bool
  | ranges spans inverted => spans.contains c.toNat != inverted
  | category text => property text c

/-- The code points of a span as it is shown: its bounds with a hyphen between them. -/
def spanCodes (s : CodeRange) : List Nat :=
  if s.1 = s.2 then [s.1.toNat] else [s.1.toNat, '-'.toNat, s.2.toNat]

/-- Refuses a class that lists what is no character; the spans of an inverted one are not listed. -/
def checkListed : CharClass → Except Error Unit
  | ranges spans false => spans.forM CodeRange.checkListed
  | _ => .ok ()

/-- Refuses a class that shows what is no character. -/
def checkShown : CharClass → Except Error Unit
  | ranges spans _ => spans.forM CodeRange.checkShown
  | _ => .ok ()

/-- The class as a debugging text. -/
def describe : CharClass → String
  | ranges spans inverted =>
    let mark := if inverted then "^" else ""
    s!"CharRange({mark}{Quoted.ofCodes (spans.flatMap spanCodes)})"
  | category text => s!"Category({quoted text})"

end CharClass

inductive Regex where
  | empty
  | literal (text : String)
  | oneOf (c : CharClass)
  | concat (parts : List Regex)
  | alt (options : List Regex)
  | star (r : Regex)
  | plus (r : Regex)
  | opt (r : Regex)

namespace Regex

instance : Inhabited Regex := ⟨.empty⟩

mutual

/-- The expression as a debugging text. -/
def describe : Regex → String
  | empty => "Empty()"
  | literal text => s!"Literal({quoted text})"
  | oneOf c => c.describe
  | concat parts => "Concat([" ++ ", ".intercalate (describeAll parts) ++ "])"
  | alt options => "Alt([" ++ ", ".intercalate (describeAll options) ++ "])"
  | star r => "Star(" ++ r.describe ++ ")"
  | plus r => "Plus(" ++ r.describe ++ ")"
  | opt r => "Opt(" ++ r.describe ++ ")"

def describeAll : List Regex → List String
  | [] => []
  | r :: rs => r.describe :: describeAll rs

end

mutual

/-- The classes in the order in which they stand. -/
def classes : Regex → List CharClass
  | empty => []
  | literal _ => []
  | oneOf c => [c]
  | concat parts => classesOfAll parts
  | alt options => classesOfAll options
  | star r => r.classes
  | plus r => r.classes
  | opt r => r.classes

def classesOfAll : List Regex → List CharClass
  | [] => []
  | r :: rs => r.classes ++ classesOfAll rs

end

/-- Refuses an expression with spans of what is no character: first among those that it lists, then
among those that it shows. -/
def checkSpans (r : Regex) : Except Error Unit := do
  r.classes.forM CharClass.checkListed
  r.classes.forM CharClass.checkShown

mutual

/-- The characters that occur in literals and in classes that are not inverted. -/
def usedCodes : Regex → CodeRanges
  | empty => []
  | literal text => text.toList.map fun c => ((c.toNat : Int), (c.toNat : Int))
  | oneOf (.ranges spans false) => spans
  | oneOf _ => []
  | concat parts => usedCodesOfAll parts
  | alt options => usedCodesOfAll options
  | star r => r.usedCodes
  | plus r => r.usedCodes
  | opt r => r.usedCodes

def usedCodesOfAll : List Regex → CodeRanges
  | [] => []
  | r :: rs => r.usedCodes ++ usedCodesOfAll rs

end

end Regex

end ParserGenerator
