import ParserGenerator.Description.Reader

/-!
# How a grammar is written

A description is written as a row of words with a blank between each two of them: the declarations of each kind
in turn, then the rules. Literals and labels are written in quotes, with escapes for the characters that cannot
stand there by themselves. A block of action code at the end of an alternative is written behind its label.

Which descriptions can be written so is told beside it. A choice without any alternative cannot: even an empty
text between two bars is one alternative.
-/

namespace ParserGenerator

namespace Description

/-- A token of a written grammar without its place. -/
structure Word where
  kind : TokenKind
  lexeme : List Char
  deriving DecidableEq

def Token.word (t : Token) : Word := ⟨t.kind, t.lexeme⟩

/-- How a character stands in a quoted literal. -/
def escaped : Char → List Char
  | '"' => ['\\', '"']
  | '\\' => ['\\', '\\']
  | '\n' => ['\\', 'n']
  | '\r' => ['\\', 'r']
  | '\x00' => ['\\', 'x', '0', '0']
  | c => [c]

namespace Word

/-- The characters of a word, a block of action code with its braces. -/
def spelling (w : Word) : List Char :=
  if w.kind = .action then '\x7b' :: (w.lexeme ++ ['\x7d']) else w.lexeme

def percent : Word := ⟨.percent, ['%']⟩
def colon : Word := ⟨.colon, [':']⟩
def semicolon : Word := ⟨.semicolon, [';']⟩
def bar : Word := ⟨.bar, ['|']⟩
def openGroup : Word := ⟨.openGroup, ['(']⟩
def closeGroup : Word := ⟨.closeGroup, [')']⟩

def ident (name : String) : Word := ⟨.ident, name.toList⟩
def literal (text : String) : Word := ⟨.literal, '"' :: (text.toList.flatMap escaped ++ ['"'])⟩
def pattern (p : String) : Word := ⟨.pattern, '/' :: (p.toList ++ ['/'])⟩
def action (code : String) : Word := ⟨.action, code.toList⟩

/-- A text is at its end. -/
def finish : Word := ⟨.finish, []⟩

end Word

end Description

open Description (Word)

def Suffix.words : Suffix → List Word
  | .once => []
  | .opt => [⟨.question, ['?']⟩]
  | .star => [⟨.star, ['*']⟩]
  | .plus => [⟨.plus, ['+']⟩]

/-- The words for the label of an alternative. -/
def labelWords : Option String → List Word
  | none => []
  | some label => [.percent, .ident "prec", .literal label]

mutual

def Atom.words : Atom → List Word
  | .name ident suffix _ => .ident ident :: suffix.words
  | .literal text suffix _ => .literal text :: suffix.words
  | .group as suffix _ => .openGroup :: (Alternative.wordsOfAll as ++ .closeGroup :: suffix.words)
  | .action code _ => [.action code]

/-- The words of some atoms and of a label: the label stands before a block of action code at the end. -/
def Atom.wordsOfAll : List Atom → Option String → List Word
  | [], label => labelWords label
  | [.action code _], label => labelWords label ++ [.action code]
  | a :: as, label => a.words ++ Atom.wordsOfAll as label

def Alternative.words : Alternative → List Word
  | .mk items label => Atom.wordsOfAll items label

/-- The words of some alternatives with bars between them. -/
def Alternative.wordsOfAll : List Alternative → List Word
  | [] => []
  | [a] => a.words
  | a :: b :: as => a.words ++ .bar :: Alternative.wordsOfAll (b :: as)

end

def Rule.words (r : Rule) : List Word :=
  .ident r.name :: .colon :: (Alternative.wordsOfAll r.alternatives ++ [.semicolon])

/-- A declaration of any kind. -/
inductive Declaration where
  | token (t : TokenDecl)
  | ignored (x : IgnoreDecl)
  | definition (x : DefineDecl)
  | keyword (k : KeywordDecl)
  | symbol (s : SymbolDecl)
  | precedence (p : PrecedenceDecl)
  | start (name : String)

namespace Declaration

/-- The words of a declaration, each with a semicolon at its end. -/
def words : Declaration → List Word
  | token t => .percent :: .ident "token" :: .ident t.name :: ((t.pattern.map .pattern).toList ++ [.semicolon])
  | ignored x => [.percent, .ident "ignore", .pattern x.pattern, .semicolon]
  | definition x => [.percent, .ident "define", .ident x.name, .pattern x.pattern, .semicolon]
  | keyword k => [.literal k.text, .colon, .literal k.text, .semicolon]
  | symbol s => .percent :: .ident "symbol" :: .ident s.name ::
      ((if s.initialiser = "" then [] else [.action s.initialiser]) ++ [.semicolon])
  | precedence p => .percent :: .ident p.associativity :: (p.labels.map .literal ++ [.semicolon])
  | start name => [.percent, .ident "start", .ident name, .semicolon]

end Declaration

namespace Description

/-- The description with one more declaration. -/
def declare (d : Description) : Declaration → Description
  | .token t => { d with tokens := d.tokens ++ [t] }
  | .ignored x => { d with ignored := d.ignored ++ [x] }
  | .definition x => { d with definitions := d.definitions ++ [x] }
  | .keyword k => { d with keywords := d.keywords ++ [k] }
  | .symbol s => { d with symbols := d.symbols ++ [s] }
  | .precedence p => { d with precedences := d.precedences ++ [p] }
  | .start name => { d with start := some name }

/-- All declarations in the order in which they are written. -/
def declarations (d : Description) : List Declaration :=
  d.tokens.map .token ++ d.ignored.map .ignored ++ d.definitions.map .definition ++
    d.keywords.map .keyword ++ d.symbols.map .symbol ++ d.precedences.map .precedence ++
    (d.start.map .start).toList

/-- The words of a whole description. -/
def wording (d : Description) : List Word :=
  d.declarations.flatMap Declaration.words ++ d.rules.flatMap Rule.words

/-- The words with a blank between each two of them. -/
def spaced (ws : List Word) : List Char := [' '].intercalate (ws.map Word.spelling)

/-- The description as a written grammar. -/
def render (d : Description) : String := String.ofList (spaced d.wording)

end Description

/-! ## What can be written -/

namespace Description

def isIdent : List Char → Bool
  | [] => false
  | c :: cs => isIdentStart c && cs.all isIdentPart

/-- Backslashes take the next character along; else there is no slash and no line feed. -/
def isPatternBody : List Char → Bool
  | [] => true
  | ['\\'] => false
  | '\\' :: _ :: cs => isPatternBody cs
  | c :: cs => c ≠ '/' && c ≠ '\n' && isPatternBody cs

/-- A pattern is not empty, and it does not begin like a comment. -/
def isPattern (cs : List Char) : Bool := cs ≠ [] && cs.head? ≠ some '*' && isPatternBody cs

/-- The closing brace behind the code is the one that closes the block. -/
def isBalanced (code : List Char) : Bool := blockBody? {} (code ++ ['\x7d']) = some code

end Description

open Description (isIdent isPattern isBalanced)

mutual

def Atom.isWritable : Atom → Bool
  | .name ident _ _ => isIdent ident.toList
  | .literal .. => true
  | .group as _ _ => !as.isEmpty && Alternative.areWritable as
  | .action code _ => isBalanced code.toList

def Atom.areWritable : List Atom → Bool
  | [] => true
  | a :: as => a.isWritable && Atom.areWritable as

def Alternative.isWritable : Alternative → Bool
  | .mk items _ => Atom.areWritable items

def Alternative.areWritable : List Alternative → Bool
  | [] => true
  | a :: as => a.isWritable && Alternative.areWritable as

end

def Rule.isWritable (r : Rule) : Bool :=
  isIdent r.name.toList && !r.alternatives.isEmpty && Alternative.areWritable r.alternatives

def Declaration.isWritable : Declaration → Bool
  | token t => isIdent t.name.toList && t.pattern.all fun p => isPattern p.toList
  | ignored x => isPattern x.pattern.toList
  | definition x => isIdent x.name.toList && isPattern x.pattern.toList
  | keyword _ => true
  | symbol s => isIdent s.name.toList && isBalanced s.initialiser.toList &&
      trimBlanks s.initialiser.toList = s.initialiser.toList
  | precedence p => (p.associativity ∈ ["left", "right", "nonassoc"]) && !p.labels.isEmpty
  | start name => isIdent name.toList

/-- The start is given, and each of the declarations and rules can be written. -/
def Description.isWritable (d : Description) : Bool :=
  d.start.isSome && d.declarations.all Declaration.isWritable && d.rules.all Rule.isWritable

/-! ## Places do not count -/

def Span.nowhere : Span := ⟨0, 0, 0, 0⟩

mutual

def Atom.unplaced : Atom → Atom
  | .name ident suffix _ => .name ident suffix .nowhere
  | .literal text suffix _ => .literal text suffix .nowhere
  | .group as suffix _ => .group (Alternative.allUnplaced as) suffix .nowhere
  | .action code _ => .action code .nowhere

def Atom.allUnplaced : List Atom → List Atom
  | [] => []
  | a :: as => a.unplaced :: Atom.allUnplaced as

def Alternative.unplaced : Alternative → Alternative
  | .mk items label => .mk (Atom.allUnplaced items) label

def Alternative.allUnplaced : List Alternative → List Alternative
  | [] => []
  | a :: as => a.unplaced :: Alternative.allUnplaced as

end

theorem Atom.allUnplaced_eq (as : List Atom) : Atom.allUnplaced as = as.map Atom.unplaced := by
  induction as with
  | nil => rfl
  | cons a as ih => rw [Atom.allUnplaced, ih, List.map_cons]

theorem Alternative.allUnplaced_eq (as : List Alternative) :
    Alternative.allUnplaced as = as.map Alternative.unplaced := by
  induction as with
  | nil => rfl
  | cons a as ih => rw [Alternative.allUnplaced, ih, List.map_cons]

def Rule.unplaced (r : Rule) : Rule := ⟨r.name, Alternative.allUnplaced r.alternatives, .nowhere⟩

def Declaration.unplaced : Declaration → Declaration
  | token t => token { t with span := .nowhere }
  | ignored x => ignored { x with span := .nowhere }
  | definition x => definition { x with span := .nowhere }
  | keyword k => keyword { k with span := .nowhere }
  | symbol s => symbol { s with span := .nowhere }
  | precedence p => precedence { p with span := .nowhere }
  | start name => start name

/-- The description without any places. -/
def Description.unplaced (d : Description) : Description where
  start := d.start
  tokens := d.tokens.map fun t => { t with span := .nowhere }
  ignored := d.ignored.map fun x => { x with span := .nowhere }
  definitions := d.definitions.map fun x => { x with span := .nowhere }
  keywords := d.keywords.map fun k => { k with span := .nowhere }
  symbols := d.symbols.map fun s => { s with span := .nowhere }
  precedences := d.precedences.map fun p => { p with span := .nowhere }
  rules := d.rules.map Rule.unplaced

end ParserGenerator
