import ParserGenerator.Json.Reader
import ParserGenerator.Json.Value
import ParserGenerator.Symbol.Kind
import ParserGenerator.Text.Position
import ParserGenerator.Text.Quoted

/-!
# What can go wrong

Every failure is a cause with its data; `message` gives its wording. The causes fall into families:
faults of a grammar's definition, of written text, of stored tables, and look-ups of what is not there.
-/

namespace ParserGenerator

/-- A place in a text with the line that holds it, a caret under the place. -/
structure Place where
  position : Position
  snippet : String
  deriving DecidableEq

namespace Place

/-- The place of an offset in a text, where the position of the offset is known. -/
def within (text : List Char) (position : Position) (offset : Nat) : Place :=
  ⟨position, Caret.snippet text offset⟩

/-- The usual end of a message: the position, and the snippet on its own lines. -/
def ending (p : Place) : String := s!" at {p.position.text}\n{p.snippet}"

end Place

/-- Faults in the definition of a grammar or its symbols. -/
inductive DefinitionError where
  | frozenTable (name : String)
  | restoredElsewhere (name : String) (id present : Int)
  | idTaken (id : Int) (name holder : String)
  | kindClash (name : String) (declared used : SymbolKind)
  | labelTwice (label : String)
  | grammarClosed
  | noLeftSide
  | leftSideKind (name : String) (kind : SymbolKind)
  | foreignSymbol (left name : String)
  | namelessSymbol (left : String)
  | endMarkerInside (left : String)
  | numberTwice (number : Int) (first second : String)
  | noProductions
  | withoutProduction (name : String)
  | startKind (name : String)
  | numberGap (missing : List Int)
  | openForAnalysis
  | openForTables
  | unexpectedKind (kind : SymbolKind) (name : String)
  deriving DecidableEq

namespace DefinitionError

def message : DefinitionError → String
  | frozenTable name => s!"symbol table is frozen; cannot register {quoted name}"
  | restoredElsewhere name id present =>
    s!"symbol {quoted name} restored with id {id}, already has id {present}"
  | idTaken id name holder => s!"symbol id {id} collision: {quoted name} vs {quoted holder}"
  | kindClash name declared used =>
    s!"{quoted name} declared as {declared.name} but already used as {used.name}"
  | labelTwice label => s!"redeclaration of precedence for {quoted label}"
  | grammarClosed => "grammar is closed; cannot add productions"
  | noLeftSide => "malformed production: empty left-hand side"
  | leftSideKind name kind => s!"malformed production: {quoted name} ({kind.name}) on left-hand side"
  | foreignSymbol left name =>
    s!"malformed right-hand side of {quoted left}: foreign symbol {quoted name}"
  | namelessSymbol left => s!"malformed right-hand side of {quoted left}: empty name"
  | endMarkerInside left =>
    s!"malformed right-hand side of {quoted left}: EOF may not appear in a production"
  | numberTwice number first second =>
    s!"duplicate production number {number}: {first} vs {second}"
  | noProductions => "grammar has no productions"
  | withoutProduction name => s!"nonterminal {quoted name} has no productions"
  | startKind name => s!"start symbol {quoted name} is not a nonterminal"
  | numberGap missing =>
    let list := ", ".intercalate (missing.map toString)
    s!"production numbers are not contiguous (missing [{list}])"
  | openForAnalysis => "grammar must be closed before analysis"
  | openForTables => "grammar must be closed before building tables"
  | unexpectedKind kind name => s!"unexpected symbol type {kind.name} for {quoted name}"

end DefinitionError

/-- Faults of a regular expression, each found at an offset of its source. -/
inductive RegexFault where
  | unexpected (c : Char)
  | missingParenthesis
  | nothingToRepeat (c : Char)
  | unbalanced (c : Char)
  | unterminatedQuote
  | danglingBackslash
  | missingBrace
  | emptyReference
  | recursiveDefinition (name : String)
  | missingBracket
  | badRange (low high : Char)
  deriving DecidableEq

def RegexFault.message : RegexFault → String
  | unexpected c => s!"unexpected {quoted c.toString}"
  | missingParenthesis => "missing ')'"
  | nothingToRepeat c => s!"nothing to repeat before {quoted c.toString}"
  | unbalanced c => s!"unbalanced {quoted c.toString}"
  | unterminatedQuote => "unterminated quoted literal"
  | danglingBackslash => "dangling '\\'"
  | missingBrace => "missing '\x7d'"
  | emptyReference => "empty \x7b\x7d reference"
  | recursiveDefinition name => "recursive definition \x7b" ++ name ++ "\x7d"
  | missingBracket => "missing ']'"
  | badRange low high => s!"bad range {low}-{high}"

/-- Faults of the notation for a property of characters, and of the pattern that it makes up. -/
inductive PropertyFault where
  | unknownProperty
  | unknownValue
  | missing (c : Char)
  | expectedBrace
  | unbalancedParenthesis
  | nothingToRepeat
  | multipleRepeat
  | countTooLarge
  | countsReversed
  | nothingToTolerate
  | badLimit
  | repeatedCost
  | secondCostLimit
  | expectedSet
  | unterminatedSet
  | badRange
  | badEscape (c : Char)
  | escapeAtEnd
  | incompleteEscape (written : String)
  | badHexEscape (written : String)
  | undefinedCharacter
  | undefinedList
  | missingGroupName
  | groupNameCharacter
  | unclosedGroup
  | invalidGroup
  | unknownGroup
  | ambiguousGroup
  | relativeGroup
  | expectedLookaround
  | unknownExtension
  | unknownVerb
  | noOptionsOff
  | wholeOptionOff
  | optionOnAndOff
  | optionOff
  deriving DecidableEq

def PropertyFault.message : PropertyFault → String
  | unknownProperty => "unknown property"
  | unknownValue => "unknown property value"
  | missing c => s!"missing {c}"
  | expectedBrace => "expected \x7d"
  | unbalancedParenthesis => "unbalanced parenthesis"
  | nothingToRepeat => "nothing to repeat"
  | multipleRepeat => "multiple repeat"
  | countTooLarge => "repeat count too big"
  | countsReversed => "min repeat greater than max repeat"
  | nothingToTolerate => "nothing for fuzzy constraint"
  | badLimit => "bad fuzzy cost limit"
  | repeatedCost => "repeated fuzzy cost"
  | secondCostLimit => "more than one cost equation"
  | expectedSet => "expected character set"
  | unterminatedSet => "unterminated character set"
  | badRange => "bad character range"
  | badEscape c => s!"bad escape \\{c}"
  | escapeAtEnd => "bad escape (end of pattern)"
  | incompleteEscape written => s!"incomplete escape \\{written}"
  | badHexEscape written => s!"bad hex escape \\{written}"
  | undefinedCharacter => "undefined character name"
  | undefinedList => "undefined named list"
  | missingGroupName => "missing group name"
  | groupNameCharacter => "bad character in group name"
  | unclosedGroup => "cannot refer to an open group"
  | invalidGroup => "invalid group reference"
  | unknownGroup => "unknown group"
  | ambiguousGroup => "ambiguous group reference"
  | relativeGroup => "invalid relative group number"
  | expectedLookaround => "expected lookaround conditional"
  | unknownExtension => "unknown extension"
  | unknownVerb => "unknown verb"
  | noOptionsOff => "bad inline flags: no flags after '-'"
  | wholeOptionOff => "bad inline flags: cannot turn off global flag"
  | optionOnAndOff => "bad inline flags: flag turned on and off"
  | optionOff => "bad inline flags: cannot turn flags off"

/-- How a property is written whose text stands in braces. -/
def propertyNotation (text : String) : String := "\\p\x7b" ++ text ++ "\x7d"

/-- The wording of an offset in a notation; one of several lines gives line and column as well. -/
def offsetText (notated : String) (offset : Nat) : String :=
  let position := Position.start.afterAll (notated.toList.take offset)
  let lines :=
    if notated.contains '\n' then s!" (line {position.line}, column {position.column})" else ""
  s!"at position {offset}{lines}"

/-- Faults of written text: grammars, regular expressions, and inputs that a grammar refuses. -/
inductive SourceError where
  | unexpectedCharacter (c : Char) (place : Place)
  | unterminatedAction (place : Place)
  | expected (wanted got : String) (place : Place)
  | missingSemicolon (after found : String) (position : Position) (sample snippet : String)
  | directiveName (got : String) (place : Place)
  | unknownDirective (name : String) (place : Place)
  | directiveInRule (name : String) (place : Place)
  | noLabels (directive : String) (place : Place)
  | keywordMismatch (left right snippet : String)
  | malformedLiteral
  | illFormedRegex (source : String) (offset : Nat) (fault : RegexFault)
  | unknownCategory (text : String) (offset : Nat) (fault : PropertyFault)
  | inDeclaration (declaration : String) (e : SourceError)
  | unmatchedInput (c : Char) (place : Place)
  | unknownToken (kind : String) (line column : Int) (ending : String)
  | refusedAtEnd (choices : List String) (ending : String)
  | refused (kind : String) (line column : Int) (choices : List String) (ending : String)
  | chained (operator : String) (place : Option (Int × Int)) (ending : String)
  deriving DecidableEq

namespace SourceError

def braced (names : List String) : String := "\x7b" ++ ", ".intercalate names ++ "\x7d"

def message : SourceError → String
  | unexpectedCharacter c place => s!"Unexpected char {quoted c.toString}{place.ending}"
  | unterminatedAction place =>
    "Unterminated action block (missing '\x7d') starting" ++ place.ending
  | expected wanted got place => s!"Expected {wanted}, got {got}{place.ending}"
  | missingSemicolon after found position sample snippet =>
    s!"Missing ';' after {after} (semicolon is mandatory).\n- Found: {found} at {position.text}\n" ++
      s!"- Example: {sample}\n\n{snippet}"
  | directiveName got place => s!"Expected directive name after '%', got {got}{place.ending}"
  | unknownDirective name place => s!"Unknown directive %{name}{place.ending}"
  | directiveInRule name place =>
    s!"Unknown %directive %{name} inside a rule; did you mean '%prec'?{place.ending}"
  | noLabels directive place => s!"%{directive} requires at least one label{place.ending}"
  | keywordMismatch left right snippet =>
    s!"Keyword mapping must be identical on both sides: \"{left}\" : \"{right}\"\n{snippet}"
  | malformedLiteral => "malformed string literal"
  | illFormedRegex source offset fault =>
    s!"ill-formed regular expression {quoted source} at offset {offset}: {fault.message}"
  | unknownCategory text offset fault =>
    "unknown unicode category \x7b" ++ text ++
      s!"\x7d: {fault.message} {offsetText (propertyNotation text) offset}"
  | inDeclaration declaration e => s!"{declaration}: {e.message}"
  | unmatchedInput c place =>
    s!"Lexing error: unexpected character {quoted c.toString}{place.ending}"
  | unknownToken kind line column ending =>
    s!"Unknown token kind {quoted kind} at {line}:{column}{ending}"
  | refusedAtEnd choices ending =>
    s!"Parse error at EOF: expected one of {braced choices}{ending}"
  | refused kind line column choices ending =>
    s!"Parse error at {line}:{column}: unexpected {quoted kind}, " ++
      s!"expected one of {braced choices}{ending}"
  | chained operator place ending =>
    let shown := match place with
      | some (line, column) => s!"{line}:{column}"
      | none => "EOF"
    s!"non-associative operator {quoted operator} used in a chain at {shown}{ending}"

end SourceError

/-- What a look-up was asked for and did not find. -/
inductive Key where
  | name (s : String)
  | id (n : Int)
  | transition (state symbol : Int)
  deriving DecidableEq

def Key.text : Key → String
  | name s => quoted s
  | id n => toString n
  | transition state symbol => s!"({state}, {symbol})"

/-- Values that a parameter cannot take. -/
inductive ValueError where
  | kindTag (n : Int)
  | associativity (name : String)
  | method (name : String)
  | nulInLiteral
  | codePoint
  | digitCount (failure : Json.Failure)
  | emptyNumber
  | nulInPath
  /-- No method at all, shown as an empty list. -/
  | noMethod
  deriving DecidableEq

def ValueError.message : ValueError → String
  | kindTag n => s!"{n} is not a valid SymKind"
  | associativity name => s!"unknown associativity {quoted name}"
  | method name => s!"unknown parser method {quoted name} (expected one of ('slr', 'lalr'))"
  | nulInLiteral => "source code string cannot contain null bytes"
  | codePoint => "chr() arg not in range(0x110000)"
  | digitCount failure => failure.message ""
  | emptyNumber => "invalid literal for int() with base 10: ''"
  | nulInPath => "embedded null byte"
  | noMethod => "unknown parser method [] (expected one of ('slr', 'lalr'))"

/-- Tables that do not fit together, found while an input is parsed with them. -/
inductive TableError where
  | stackUnderflow (production state : Int)
  | noGoto (state : Int) (left : String)
  | unknownAction (kind : String)
  deriving DecidableEq

def TableError.message : TableError → String
  | stackUnderflow production state =>
    s!"stack underflow reducing production {production} in state {state}"
  | noGoto state left => s!"GOTO missing for state={state}, lhs={left}"
  | unknownAction kind => s!"Unknown ACTION kind: {kind}"

/-- Faults of a stream of stored tables or of the file that holds it. -/
inductive StreamError where
  | truncated (position : Nat)
  | wrongKind (position : Nat) (wanted got : Json.Kind)
  | negativeCount (n : Int)
  | unknownKindTag (tag : Int) (name : String)
  | version (wanted found : String)
  | trailing (count : Nat)
  | notJson (description : String)
  | notTables (format : String)
  | noStream
  deriving DecidableEq

def StreamError.message : StreamError → String
  | truncated position => s!"truncated table stream at item {position}"
  | wrongKind position wanted got =>
    s!"malformed table stream at item {position}: expected {wanted.name}, got {got.name}"
  | negativeCount n => s!"negative count {n} in table stream"
  | unknownKindTag tag name => s!"unknown symbol kind tag {tag} for {quoted name}"
  | version wanted found => s!"expected table format version {wanted}, found {found}"
  | trailing count => s!"trailing data in table stream ({count} items)"
  | notJson description => s!"table file is not valid JSON: {description}"
  | notTables format => s!"not a {format} file"
  | noStream => "table file has no stream"

inductive Error where
  | definition (e : DefinitionError)
  /-- A name that no declaration settles, and where it is used. -/
  | unknownSymbol (name : String) (place : Option String)
  | source (e : SourceError)
  | stream (e : StreamError)
  /-- A stream that has the right form and tables that cannot be. -/
  | malformedStream (cause : Error)
  | table (e : TableError)
  | missing (key : Key)
  | value (e : ValueError)
  /-- A number too large for the character that it is to denote. -/
  | overflow
  /-- An index outside a list. -/
  | outOfRange
  /-- An identifier whose slot holds no symbol any more. -/
  | vacantSlot
  deriving DecidableEq

namespace Error

def message : Error → String
  | definition e => e.message
  | unknownSymbol name none => s!"Unknown symbol {quoted name}"
  | unknownSymbol name (some place) => s!"Unknown symbol {quoted name} (referenced in {place})"
  | source e => e.message
  | stream e => e.message
  | malformedStream cause => s!"malformed table stream: {cause.message}"
  | table e => e.message
  | missing key => key.text
  | value e => e.message
  | overflow => "number too large for a character"
  | outOfRange => "list index out of range"
  | vacantSlot => "no symbol in this slot"

end Error

end ParserGenerator
