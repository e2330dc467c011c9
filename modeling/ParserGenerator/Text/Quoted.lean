import ParserGenerator.Text.GeneralCategory
import ParserGenerator.Text.Hex

/-!
# Quoted text

A text shown inside a message stands in quotes: single ones, unless it holds a single and no double
quote. A backslash, the quote in use and the common controls are escaped by a letter; any other
character that is not printable is escaped by its code point in two, four or eight hexadecimal digits.
-/

namespace ParserGenerator.Quoted

def singleQuote : Nat := 0x27
def doubleQuote : Nat := 0x22

/-- The quote that encloses the given code points. -/
def quoteFor (codes : List Nat) : Nat :=
  if codes.contains singleQuote && !codes.contains doubleQuote then doubleQuote else singleQuote

/-- How one code point is written between quotes. -/
def escape (quote code : Nat) : List Char :=
  if code = quote ∨ code = 0x5c then ['\\', Char.ofNat code]
  else if code = 0x0a then ['\\', 'n']
  else if code = 0x0d then ['\\', 'r']
  else if code = 0x09 then ['\\', 't']
  else if isPrintable code then [Char.ofNat code]
  else if code < 0x100 then '\\' :: 'x' :: Hex.padded 2 code
  else if code < 0x10000 then '\\' :: 'u' :: Hex.padded 4 code
  else '\\' :: 'U' :: Hex.padded 8 code

/-- The quoted form of a row of code points, of which some may be no characters. -/
def ofCodes (codes : List Nat) : String :=
  let quote := quoteFor codes
  String.ofList (Char.ofNat quote :: codes.flatMap (escape quote) ++ [Char.ofNat quote])

end ParserGenerator.Quoted

namespace ParserGenerator

/-- The quoted form of a text. -/
def quoted (text : String) : String := Quoted.ofCodes (text.toList.map Char.toNat)

end ParserGenerator
