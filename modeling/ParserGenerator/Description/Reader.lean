import ParserGenerator.Description.Literal
import ParserGenerator.Description.Token
import ParserGenerator.Text.Blank

/-!
# Reading of written grammars

Declarations come first, then rules; each of them ends with a semicolon. A fault is reported at the
token that cannot stand where it does, a missing semicolon behind the token before it. Every step takes a
token, so the number of tokens bounds the nesting and the repetition.
-/

namespace ParserGenerator.Description

/-- The place in a row of tokens: the token before, the current one and those behind it. -/
structure Cursor where
  text : List Char
  previous : Option Token
  current : Token
  rest : List Token

abbrev Reading := EStateM Error Cursor

namespace Reading

def current : Reading Token := return (← get).current

def kind : Reading TokenKind := return (← get).current.kind

/-- Takes the current token; the last one stays. -/
def advance : Reading Token := do
  let c ← get
  match c.rest with
  | [] => return c.current
  | t :: ts =>
    set { c with previous := some c.current, current := t, rest := ts }
    return c.current

def placeOf (t : Token) : Reading Place := return Place.within (← get).text t.position t.start

def fail {α : Type} (t : Token) (fault : Place → SourceError) : Reading α := do
  throw (.source (fault (← placeOf t)))

def failExpected {α : Type} (wanted : String) (t : Token) : Reading α :=
  fail t (.expected wanted t.kind.name)

def expect (k : TokenKind) : Reading Token := do
  let t ← current
  if t.kind = k then advance else failExpected k.name t

def accept? (k : TokenKind) : Reading (Option Token) := do
  if (← kind) = k then some <$> advance else return none

/-- The text that a literal token denotes. -/
def literalOf (t : Token) : Reading String :=
  match literalText t.lexeme with
  | .ok s => return s
  | .error e => throw e

def identOf (t : Token) : String := String.ofList t.lexeme

/-- The semicolon at the end of a declaration or rule. -/
def semicolon (after sample : String) : Reading Unit := do
  if (← accept? .semicolon).isSome then return
  let c ← get
  let anchor := (c.previous.map Token.stop).getD c.current.start
  throw (.source (.missingSemicolon after c.current.kind.name c.current.position sample
    (Caret.snippet c.text anchor)))

/-- A label: an identifier or a literal. -/
def label : Reading String := do
  let t ← current
  match t.kind with
  | .ident => return identOf (← advance)
  | .literal => literalOf (← advance)
  | _ => failExpected "IDENT or STRING" t

def labels : Nat → List String → Reading (List String)
  | 0, before => return before.reverse
  | bound + 1, before => do
    match ← kind with
    | .ident | .literal => labels bound ((← label) :: before)
    | _ => return before.reverse

/-- A pattern without its slashes. -/
def pattern : Reading (Token × String) := do
  let t ← expect .pattern
  return (t, String.ofList (t.lexeme.drop 1).dropLast)

def suffix : Reading Suffix := do
  match ← kind with
  | .question => do let _ ← advance; return .opt
  | .star => do let _ ← advance; return .star
  | .plus => do let _ ← advance; return .plus
  | _ => return .once

mutual

/-- Alternatives up to the token that ends them; those before come last first. -/
def alternatives : Nat → List Alternative → Reading (List Alternative)
  | 0, before => return before.reverse
  | bound + 1, before => do
    let a ← alternative bound []
    if (← accept? .bar).isSome then alternatives bound (a :: before)
    else return (a :: before).reverse

/-- The atoms of an alternative and its label. Behind the label only a block of action code may
stand. -/
def alternative : Nat → List Atom → Reading Alternative
  | 0, before => return .mk before.reverse none
  | bound + 1, before => do
    match ← kind with
    | .ident | .literal | .openGroup | .action => alternative bound ((← atom bound) :: before)
    | .percent =>
      let _ ← advance
      let t ← expect .ident
      if identOf t ≠ "prec" then fail t (.directiveInRule (identOf t))
      let l ← label
      if (← kind) = .action then
        let a ← atom bound
        return .mk (a :: before).reverse (some l)
      else return .mk before.reverse (some l)
    | _ => return .mk before.reverse none

def atom : Nat → Reading Atom
  | 0 => do failExpected "IDENT" (← current)
  | bound + 1 => do
    let t ← advance
    match t.kind with
    | .action => return .action (String.ofList t.lexeme) t.span
    | .literal =>
      let s ← literalOf t
      return .literal s (← suffix) t.span
    | .openGroup =>
      let inside ← alternatives bound []
      let _ ← expect .closeGroup
      return .group inside (← suffix) t.span
    | _ => return .name (identOf t) (← suffix) t.span

end

/-- A bound for the steps of reading alternatives: a group takes three of them for a token. -/
def bound : Reading Nat := return 3 * ((← get).rest.length + 2)

def tokenDecl (d : Description) : Reading Description := do
  let t ← expect .ident
  let p ← if (← kind) = .pattern then (some ·.2) <$> pattern else pure none
  semicolon "%token declaration" "%token NAME /regex/;"
  return { d with tokens := d.tokens ++ [⟨identOf t, p, t.span⟩] }

def ignoreDecl (d : Description) : Reading Description := do
  let (t, p) ← pattern
  semicolon "%ignore declaration" "%ignore /\\s+/;"
  return { d with ignored := d.ignored ++ [⟨p, t.span⟩] }

def defineDecl (d : Description) : Reading Description := do
  let t ← expect .ident
  let p := (← pattern).2
  semicolon "%define declaration" "%define Digit /[0-9]/;"
  return { d with definitions := d.definitions ++ [⟨identOf t, p, t.span⟩] }

def symbolDecl (d : Description) : Reading Description := do
  let t ← expect .ident
  let code := (← accept? .action).map fun t => String.ofList (trimBlanks t.lexeme)
  semicolon "%symbol declaration" "%symbol Expr \x7b 0 \x7d;"
  return { d with symbols := d.symbols ++ [⟨identOf t, code.getD "", t.span⟩] }

def startDecl (d : Description) : Reading Description := do
  let t ← expect .ident
  semicolon "%start declaration" "%start StartSymbol;"
  return { d with start := some (identOf t) }

def precedenceDecl (name : String) (place : Token) (d : Description) : Reading Description := do
  let ls ← labels (← bound) []
  if ls.isEmpty then fail (← current) (.noLabels name)
  semicolon s!"%{name} declaration" s!"%{name} + - * / ;"
  return { d with precedences := d.precedences ++ [⟨name, ls, place.span⟩] }

/-- A declaration, read from behind its percent sign. -/
def directive (d : Description) : Reading Description := do
  let t ← current
  if t.kind ≠ .ident then fail t (.directiveName t.kind.name)
  let _ ← advance
  match identOf t with
  | "token" => tokenDecl d
  | "ignore" => ignoreDecl d
  | "define" => defineDecl d
  | "symbol" => symbolDecl d
  | "start" => startDecl d
  | "left" => precedenceDecl "left" t d
  | "right" => precedenceDecl "right" t d
  | "nonassoc" => precedenceDecl "nonassoc" t d
  | other => fail t (.unknownDirective other)

/-- A keyword: the same literal on both sides of a colon. -/
def keyword (d : Description) : Reading Description := do
  let left ← expect .literal
  let _ ← expect .colon
  let right ← expect .literal
  let a ← literalOf left
  let b ← literalOf right
  if a ≠ b then
    let p ← placeOf left
    throw (.source (.keywordMismatch a b p.snippet))
  semicolon "keyword literal mapping (e.g. \"+\" : \"+\")" "\"+\" : \"+\";"
  return { d with keywords := d.keywords ++ [⟨a, left.span⟩] }

def declarations : Nat → Description → Reading Description
  | 0, d => return d
  | bound + 1, d => do
    match ← kind with
    | .percent => do let _ ← advance; declarations bound (← directive d)
    | .literal => do declarations bound (← keyword d)
    | _ => return d

def rule (d : Description) : Reading Description := do
  let t ← expect .ident
  let _ ← expect .colon
  let as ← alternatives (← bound) []
  let name := identOf t
  semicolon s!"rule '{name}'" s!"{name} : ... ;"
  return { d with rules := d.rules ++ [⟨name, as, t.span⟩] }

def rules : Nat → Description → Reading Description
  | 0, d => return d
  | bound + 1, d => do
    if (← kind) = .finish then return d else rules bound (← rule d)

/-- A whole description. Without a declared start the first rule is the start. -/
def description : Reading Description := do
  let d ← declarations (← bound) {}
  let d ← rules (← bound) d
  return { d with start := d.start <|> d.rules.head?.map Rule.name }

end Reading

/-- Reads a written grammar. -/
def parse (source : String) : Except Error Description := do
  match ← scan source with
  | [] => return {}
  | t :: ts =>
    match Reading.description ⟨source.toList, none, t, ts⟩ with
    | .ok d _ => return d
    | .error e _ => throw e

end ParserGenerator.Description
