import ParserGenerator.Collection.OrderedMap
import ParserGenerator.Regex.Token

/-!
# Reading of regular expressions

The tokens are put together from left to right. What is inside a group that is still open stands on a
stack of levels; each level holds the finished options of a choice and the parts of the current one.
A reference stands for the whole expression that its name defines, else for a property of characters.
-/

namespace ParserGenerator.Regex

/-- A token with the offsets where it begins and ends. -/
structure Located where
  token : Token
  start : Nat
  stop : Nat

/-- The tokens of a text, and why they end early if they do. -/
def scan (offset : Nat) (cs : List Char) : List Located × Option Stop :=
  match cs with
  | [] => ([], none)
  | c :: r =>
    match h : token offset c r with
    | .error s => ([], some s)
    | .ok (t, rest) =>
      let stop := offset + 1 + (r.length - rest.length)
      let tail := scan stop rest
      (⟨t, offset, stop⟩ :: tail.1, tail.2)
termination_by cs.length
decreasing_by
  have := length_of_token h
  simp only [List.length_cons]
  omega

/-- Options and parts read so far, the latest first. -/
structure Level where
  options : List Regex := []
  parts : List Regex := []

namespace Level

/-- The current option: the parts in a row. -/
def option (l : Level) : Regex :=
  match l.parts with
  | [] => .empty
  | [r] => r
  | rs => .concat rs.reverse

/-- The whole choice. -/
def choice (l : Level) : Regex :=
  match l.options with
  | [] => l.option
  | rs => .alt (l.option :: rs).reverse

def add (l : Level) (r : Regex) : Level := { l with parts := r :: l.parts }

def nextOption (l : Level) : Level := ⟨l.option :: l.options, []⟩

end Level

/-- The level that is being read, and the levels around it, the innermost first. -/
structure Levels where
  inner : Level := {}
  outer : List Level := []

/-- What a reference means: it may fail at the place behind it. -/
abbrev Meaning := String → (RegexFault → Error) → Except Error Regex

/-- Takes in one token. -/
def Levels.take (fault : Nat → RegexFault → Error) (meaning : Meaning) (ls : Levels) (l : Located) :
    Except Error Levels :=
  match l.token with
  | .openGroup => .ok ⟨{}, ls.inner :: ls.outer⟩
  | .closeGroup =>
    match ls.outer with
    | [] => .error (fault l.start (.unexpected ')'))
    | o :: os => .ok ⟨o.add ls.inner.choice, os⟩
  | .bar => .ok ⟨ls.inner.nextOption, ls.outer⟩
  | .repeated op =>
    match ls.inner.parts with
    | [] => .error (fault l.start (.nothingToRepeat op.char))
    | r :: rs => .ok ⟨{ ls.inner with parts := op.apply r :: rs }, ls.outer⟩
  | .atom r => .ok ⟨ls.inner.add r, ls.outer⟩
  | .reference name => do return ⟨ls.inner.add (← meaning name (fault l.stop)), ls.outer⟩

/-- Reads an expression in which references have the given meaning. -/
def parseWith (meaning : Meaning) (source : String) : Except Error Regex := do
  let cs := source.toList
  let fault (offset : Nat) (f : RegexFault) : Error := .source (.illFormedRegex source offset f)
  let found := scan 0 cs
  let ls ← found.1.foldlM (Levels.take fault meaning) {}
  match found.2, ls.outer with
  | some (.fault offset f), _ => throw (fault offset f)
  | some (.failure e), _ => throw e
  | none, _ :: _ => throw (fault cs.length .missingParenthesis)
  | none, [] => return ls.inner.choice

/-- The property that a text in braces stands for. -/
def property (text : String) : Except Error Regex :=
  match Pattern.ofProperty text with
  | .ok _ => .ok (.oneOf (.category text))
  | .error (.fault offset f) => .error (.source (.unknownCategory text offset f))
  | .error (.value e) => .error (.value e)

/-- Reads an expression while the given names are being expanded. No name is expanded inside itself,
so the number of definitions bounds the depth. -/
def parseWithin (definitions : OrderedMap String String) :
    Nat → List String → String → Except Error Regex
  | 0, _, source => .error (.source (.illFormedRegex source 0 (.recursiveDefinition "")))
  | depth + 1, expanding, source =>
    parseWith
      (fun name fault =>
        match definitions.get? name with
        | none => property name
        | some body =>
          if name ∈ expanding then .error (fault (.recursiveDefinition name))
          else parseWithin definitions depth (name :: expanding) body)
      source

/-- Reads an expression under named definitions. -/
def parse (definitions : OrderedMap String String) (source : String) : Except Error Regex :=
  parseWithin definitions (definitions.size + 1) [] source

end ParserGenerator.Regex
