import ParserGenerator.Lexer.Token
import ParserGenerator.Regex.Dfa
import ParserGenerator.Regex.Reader

/-!
# Lexers

A lexer cuts a text into tokens. Before each token it skips what the ignored expressions match, the
first one that matches something going first, again and again. Then the longest match of the rules
makes the token; of several rules that match that far the earliest wins. One token can be looked at
ahead.
-/

namespace ParserGenerator

structure Lexer where
  rules : Dfa
  ignored : List Dfa
  /-- The characters that the rules name. -/
  used : CodeRanges
  text : List Char := []
  rest : List Char := []
  offset : Nat := 0
  position : Position := .start
  /-- The token that was looked at and not yet taken. -/
  pending : Option Token := none

/-- An operation on a lexer. One that fails leaves the lexer where it stopped. -/
abbrev Lexing := EStateM Error Lexer

namespace Lexer

def ofRulesBy (property : PropertyTest) (rules : List (String × Regex)) (ignored : List Regex) :
    Lexer where
  rules := Dfa.ofNfa (Nfa.ofRulesBy property rules)
  ignored := ignored.map fun r => Dfa.ofNfa (Nfa.ofRegexBy property r)
  used := CodeRanges.normalize (rules.flatMap fun r => r.2.usedCodes)

def ofRules : List (String × Regex) → List Regex → Lexer := ofRulesBy .unicode

/-- The lexer at the start of a text. -/
def reset (l : Lexer) (text : List Char) : Lexer :=
  { l with text := text, rest := text, offset := 0, position := .start, pending := none }

/-- The lexer behind the next `n` characters. -/
def consume (l : Lexer) (n : Nat) : Lexer :=
  { l with
    rest := l.rest.drop n
    offset := l.offset + n
    position := l.position.past (l.rest.take n) }

/-- The length of the first non-empty match of the ignored expressions, tried in order; zero where none
of them matches anything. -/
def ignoredLength (text : List Char) : List Dfa → Nat × List Dfa
  | [] => (0, [])
  | d :: ds =>
    match d.longest text with
    | (some (n + 1, _), d) => (n + 1, d :: ds)
    | (_, d) =>
      let (n, ds) := ignoredLength text ds
      (n, d :: ds)

/-- Skips what is ignored. -/
def skipIgnored (l : Lexer) : Lexer :=
  if l.rest = [] then l
  else
    let (n, ignored) := ignoredLength l.rest l.ignored
    let next := { l with ignored := ignored }
    if 0 < n then skipIgnored (next.consume n) else next
termination_by l.rest.length
decreasing_by
  have : l.rest.length ≠ 0 := fun h => by simp_all
  simp only [consume, List.length_drop]
  omega

/-- The next token of the text, or none at its end. -/
def scanToken : Lexing (Option Token) := do
  modify skipIgnored
  let l ← get
  match l.rest with
  | [] => return none
  | c :: _ =>
    let (hit, rules) := l.rules.longest l.rest
    let l := { l with rules := rules }
    set l
    match hit with
    | some (n + 1, a) =>
      set (l.consume (n + 1))
      return some ⟨a.2, String.ofList (l.rest.take (n + 1)), l.position.line, l.position.column, l.offset⟩
    | _ => throw (.source (.unmatchedInput c (Place.within l.text l.position l.offset)))

/-- The next token, left to be taken. -/
def peek : Lexing (Option Token) := do
  match (← get).pending with
  | some t => return some t
  | none =>
    let t ← scanToken
    modify fun l => { l with pending := t }
    return t

/-- Takes the next token. -/
def next : Lexing (Option Token) := do
  let t ← peek
  modify fun l => { l with pending := none }
  return t

/-- Takes up to `bound` tokens, the latest first before those given. -/
def take : Nat → List Token → Lexing (List Token)
  | 0, before => return before.reverse
  | bound + 1, before => do
    match ← next with
    | none => return before.reverse
    | some t => take bound (t :: before)

/-- Takes all tokens that are left: each but one that was looked at takes a character. -/
def remaining : Lexing (List Token) := do take ((← get).rest.length + 1) []

/-- All tokens of a text. -/
def tokens (text : List Char) : Lexing (List Token) := do
  modify (·.reset text)
  remaining

end Lexer

end ParserGenerator
