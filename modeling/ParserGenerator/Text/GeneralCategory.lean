import ParserGenerator.Text.GeneralCategory.Recent
import ParserGenerator.Text.GeneralCategory.Table

/-!
# General categories of characters

Each code point has one of thirty general categories, and the categories fall into seven groups.
A name such as `Lu` denotes one category, a name such as `L` or `L&` a whole group.
-/

namespace ParserGenerator

inductive GeneralCategory where
  | uppercaseLetter | lowercaseLetter | titlecaseLetter | modifierLetter | otherLetter
  | nonspacingMark | spacingMark | enclosingMark
  | decimalNumber | letterNumber | otherNumber
  | connectorPunctuation | dashPunctuation | openPunctuation | closePunctuation
  | initialPunctuation | finalPunctuation | otherPunctuation
  | mathSymbol | currencySymbol | modifierSymbol | otherSymbol
  | spaceSeparator | lineSeparator | paragraphSeparator
  | control | format | surrogate | privateUse | unassigned
  deriving DecidableEq

namespace GeneralCategory

def all : List GeneralCategory :=
  [uppercaseLetter, lowercaseLetter, titlecaseLetter, modifierLetter, otherLetter,
    nonspacingMark, spacingMark, enclosingMark, decimalNumber, letterNumber, otherNumber,
    connectorPunctuation, dashPunctuation, openPunctuation, closePunctuation,
    initialPunctuation, finalPunctuation, otherPunctuation,
    mathSymbol, currencySymbol, modifierSymbol, otherSymbol,
    spaceSeparator, lineSeparator, paragraphSeparator,
    control, format, surrogate, privateUse, unassigned]

/-- The two-letter code; its first letter is the code of the group. -/
def code : GeneralCategory → Char × Char
  | uppercaseLetter => ('L', 'u') | lowercaseLetter => ('L', 'l') | titlecaseLetter => ('L', 't')
  | modifierLetter => ('L', 'm') | otherLetter => ('L', 'o')
  | nonspacingMark => ('M', 'n') | spacingMark => ('M', 'c') | enclosingMark => ('M', 'e')
  | decimalNumber => ('N', 'd') | letterNumber => ('N', 'l') | otherNumber => ('N', 'o')
  | connectorPunctuation => ('P', 'c') | dashPunctuation => ('P', 'd')
  | openPunctuation => ('P', 's') | closePunctuation => ('P', 'e')
  | initialPunctuation => ('P', 'i') | finalPunctuation => ('P', 'f')
  | otherPunctuation => ('P', 'o')
  | mathSymbol => ('S', 'm') | currencySymbol => ('S', 'c') | modifierSymbol => ('S', 'k')
  | otherSymbol => ('S', 'o')
  | spaceSeparator => ('Z', 's') | lineSeparator => ('Z', 'l') | paragraphSeparator => ('Z', 'p')
  | control => ('C', 'c') | format => ('C', 'f') | surrogate => ('C', 's')
  | privateUse => ('C', 'o') | unassigned => ('C', 'n')

def group (k : GeneralCategory) : Char := k.code.1

/-- The long name of the category and further ones, in capitals and without low lines. -/
def longNames : GeneralCategory → List String
  | uppercaseLetter => ["UPPERCASELETTER"] | lowercaseLetter => ["LOWERCASELETTER"]
  | titlecaseLetter => ["TITLECASELETTER"] | modifierLetter => ["MODIFIERLETTER"]
  | otherLetter => ["OTHERLETTER"]
  | nonspacingMark => ["NONSPACINGMARK"] | spacingMark => ["SPACINGMARK"]
  | enclosingMark => ["ENCLOSINGMARK"]
  | decimalNumber => ["DECIMALNUMBER", "DIGIT"] | letterNumber => ["LETTERNUMBER"]
  | otherNumber => ["OTHERNUMBER"]
  | connectorPunctuation => ["CONNECTORPUNCTUATION"] | dashPunctuation => ["DASHPUNCTUATION"]
  | openPunctuation => ["OPENPUNCTUATION"] | closePunctuation => ["CLOSEPUNCTUATION"]
  | initialPunctuation => ["INITIALPUNCTUATION"] | finalPunctuation => ["FINALPUNCTUATION"]
  | otherPunctuation => ["OTHERPUNCTUATION"]
  | mathSymbol => ["MATHSYMBOL"] | currencySymbol => ["CURRENCYSYMBOL"]
  | modifierSymbol => ["MODIFIERSYMBOL"] | otherSymbol => ["OTHERSYMBOL"]
  | spaceSeparator => ["SPACESEPARATOR"] | lineSeparator => ["LINESEPARATOR"]
  | paragraphSeparator => ["PARAGRAPHSEPARATOR"]
  | control => ["CONTROL", "CNTRL"] | format => ["FORMAT"] | surrogate => ["SURROGATE"]
  | privateUse => ["PRIVATEUSE"] | unassigned => ["UNASSIGNED"]

/-- The further names of the groups that the category belongs to. -/
def groupNames (k : GeneralCategory) : List String :=
  match k.group with
  | 'L' =>
    if k ∈ [uppercaseLetter, lowercaseLetter, titlecaseLetter] then
      ["LETTER", "LC", "CASEDLETTER"]
    else ["LETTER"]
  | 'M' => ["MARK", "COMBININGMARK"]
  | 'N' => ["NUMBER"]
  | 'P' => ["PUNCTUATION", "PUNCT"]
  | 'S' => ["SYMBOL"]
  | 'Z' => ["SEPARATOR"]
  | _ => ["OTHER"]

/-- The names of the category and of its groups, in capitals and without low lines. -/
def names (k : GeneralCategory) : List String :=
  [String.ofList [k.group, k.code.2.toUpper], String.ofList [k.group], String.ofList [k.group, '&']] ++
    (k.longNames ++ k.groupNames ++ if k = unassigned then [] else ["ASSIGNED"])

def hexValue (c : Char) : Nat :=
  if c.isDigit then c.toNat - '0'.toNat else c.toNat - 'a'.toNat + 10

/-- Adds a run, written as its code and length, after the runs that end at the given bound. -/
def appendRun (bound : Nat) : List Char → Option (Nat × GeneralCategory)
  | a :: b :: digits =>
    let length := digits.foldl (fun n c => 16 * n + hexValue c) 0
    (all.find? fun k => k.code = (a, b)).map fun k => (bound + length, k)
  | _ => none

/-- The runs of the table, each with the code point that follows it. -/
def runs : List (Nat × GeneralCategory) :=
  ((table.toList.splitBy fun a b => a.isWhitespace = b.isWhitespace).foldl
    (fun (bound, acc) run => match appendRun bound run with
      | some r => (r.1, r :: acc)
      | none => (bound, acc))
    (0, [])).2.reverse

def ofCodePoint (n : Nat) : GeneralCategory :=
  ((runs.find? fun r => n < r.1).map Prod.snd).getD unassigned

end GeneralCategory

/-- Whether quoted text shows a code point as it is: neither a control, format, surrogate,
private, unassigned or recent one, nor a separator other than the blank. -/
def isPrintable (n : Nat) : Bool :=
  if n < 127 then 32 ≤ n
  else
    let k := GeneralCategory.ofCodePoint n
    k.group ≠ 'C' && k.group ≠ 'Z' && !GeneralCategory.isRecent n

end ParserGenerator
