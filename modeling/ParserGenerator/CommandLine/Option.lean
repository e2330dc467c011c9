import ParserGenerator.Text.GeneralCategory

/-!
# Options

A word of a command line is an option if it begins with a hyphen and a name can be made out of it: a
whole name, a name with a value behind an equals sign, the beginning of one long name, or a short name
with its value or with further short names right behind it. A number and a text with a blank are no
options. After a lone pair of hyphens all words are arguments. As the value of an option the pair is
dropped, and the option counts as given all the same.
-/

namespace ParserGenerator.CommandLine

/-- Why a command line is not carried out. -/
inductive Rejection where
  /-- Help was asked for. -/
  | help
  | misuse
  deriving DecidableEq

/-- What an option was given: a value, or nothing where its value was dropped. -/
inductive Given (α : Type) where
  | nothing
  | value (a : α)
  deriving DecidableEq

/-- Makes a value of a text, if that can be done. -/
def Given.map? {α : Type} (f : String → Option α) : Given String → Option (Given α)
  | nothing => some nothing
  | value s => (f s).map value

/-- What an option does to the settings. -/
inductive Effect (σ : Type) where
  | help
  | switch (set : σ → σ)
  /-- Takes a value, unless it is none of those allowed. -/
  | value (set? : Given String → σ → Option σ)

/-- An option: its names and what it does. -/
structure Flag (σ : Type) where
  names : List String
  effect : Effect σ

/-- The mark behind which all words are arguments. -/
def endOfOptions : String := "--"

/-- A word of a command line. -/
inductive Word where
  | separator
  | argument (text : String)
  /-- An option by its name, and what is attached to it. -/
  | option (name : String) (attached : Option String)
  | unknownOption
  deriving DecidableEq

namespace Word

def isDecimalDigit (c : Char) : Bool :=
  GeneralCategory.ofCodePoint c.toNat = .decimalNumber && !GeneralCategory.isRecent c.toNat

/-- Whether a text is a negative number, whole or with digits behind a point. -/
def isNegativeNumber (s : String) : Bool :=
  match s.toList with
  | '-' :: cs =>
    let cs := if cs.getLast? = some '\n' then cs.dropLast else cs
    match cs.dropWhile isDecimalDigit with
    | [] => !cs.isEmpty
    | '.' :: fraction => !fraction.isEmpty && fraction.all isDecimalDigit
    | _ => false
  | _ => false

/-- The parts of a text before and behind its first equals sign. -/
def splitValue (cs : List Char) : List Char × Option (List Char) :=
  match cs.dropWhile (· ≠ '=') with
  | [] => (cs, none)
  | _ :: value => (cs.takeWhile (· ≠ '='), some value)

/-- The names that an abbreviated word may stand for, with what is attached to them. -/
def candidates (names : List String) (cs : List Char) : List (String × Option String) :=
  match cs with
  | '-' :: '-' :: _ =>
    let (front, value) := splitValue cs
    (names.filter fun n => front.isPrefixOf n.toList).map fun n => (n, value.map String.ofList)
  | '-' :: c :: rest =>
    names.filterMap fun n =>
      if n = String.ofList ['-', c] then some (n, some (String.ofList rest))
      else if cs.isPrefixOf n.toList then some (n, none)
      else none
  | _ => []

/-- Makes out what a word is; it must not abbreviate two names at once. -/
def classify (names : List String) (s : String) : Except Rejection Word :=
  let cs := s.toList
  match cs with
  | '-' :: _ :: _ =>
    if s ∈ names then .ok (.option s none)
    else
      let (front, value) := splitValue cs
      if value.isSome ∧ String.ofList front ∈ names then
        .ok (.option (String.ofList front) (value.map String.ofList))
      else
        match candidates names cs with
        | [(n, attached)] => .ok (.option n attached)
        | _ :: _ :: _ => .error .misuse
        | [] => .ok (if isNegativeNumber s ∨ ' ' ∈ cs then .argument s else .unknownOption)
  | _ => .ok (.argument s)

/-- Makes out all words. -/
def classifyAll (names : List String) : List String → Except Rejection (List Word)
  | [] => .ok []
  | s :: ss =>
    if s = endOfOptions then .ok (.separator :: ss.map .argument)
    else do
      let w ← classify names s
      return w :: (← classifyAll names ss)

end Word

/-- A form of command line: its options, and where its one argument goes. -/
structure Form (σ : Type) where
  options : List (Flag σ)
  place : String → σ → σ

namespace Form

variable {σ : Type}

def names (f : Form σ) : List String := f.options.flatMap Flag.names

def option? (options : List (Flag σ)) (name : String) : Option (Flag σ) :=
  options.find? (·.names.contains name)

/-- What the options of one word do in turn, and the option that still lacks its value. -/
structure Uses (σ : Type) where
  steps : List (σ → Except Rejection σ) := []
  waiting : Option (Given String → σ → Option σ) := none

/-- Gives a value to an option. -/
def assign (set? : Given String → σ → Option σ) (value : String) (s : σ) : Except Rejection σ :=
  match set? (if value = endOfOptions then .nothing else .value value) s with
  | some s => .ok s
  | none => .error .misuse

/-- An option with nothing attached. -/
def alone (o : Flag σ) : Uses σ :=
  match o.effect with
  | .help => { steps := [fun _ => .error .help] }
  | .switch set => { steps := [fun s => .ok (set s)] }
  | .value set? => { waiting := some set? }

/-- An option with a text attached: its value, or further short names. -/
def cluster (options : List (Flag σ)) (o : Flag σ) (short : Bool) :
    List Char → Except Rejection (Uses σ)
  | [] => .ok (alone o)
  | c :: cs =>
    match o.effect with
    | .value set? => .ok { steps := [assign set? (String.ofList (c :: cs))] }
    | _ =>
      match if short then option? options (String.ofList ['-', c]) else none with
      | none => .error .misuse
      | some next => do
        let uses ← cluster options next true cs
        return { uses with steps := (alone o).steps ++ uses.steps }

/-- What an option word does. An empty text behind an equals sign is a value as well. -/
def uses (options : List (Flag σ)) (name : String) (attached : Option String) :
    Except Rejection (Uses σ) :=
  match option? options name with
  | none => .error .misuse
  | some o =>
    match attached with
    | none => .ok (alone o)
    | some "" =>
      match o.effect with
      | .value set? => .ok { steps := [assign set? ""] }
      | _ => .error .misuse
    | some s => cluster options o (name.length = 2) s.toList

/-- How far a command line is read. -/
structure Progress (σ : Type) where
  settings : σ
  /-- Whether the argument has been placed, and whether it was the word before. -/
  placed : Bool := false
  justPlaced : Bool := false
  /-- Whether there was a word with no place. -/
  surplus : Bool := false

/-- Reads the words in turn. -/
def read (f : Form σ) : List Word → Progress σ → Except Rejection (Progress σ)
  | [], p => .ok p
  | .separator :: ws, p => f.read ws { p with surplus := p.surplus || (p.placed && !p.justPlaced) }
  | .argument s :: ws, p =>
    if p.placed then f.read ws { p with justPlaced := false, surplus := true }
    else f.read ws { p with settings := f.place s p.settings, placed := true, justPlaced := true }
  | .unknownOption :: ws, p => f.read ws { p with justPlaced := false, surplus := true }
  | .option name attached :: ws, p => do
    let u ← uses f.options name attached
    match u.waiting, ws with
    | none, ws =>
      let settings ← u.steps.foldlM (fun s step => step s) p.settings
      f.read ws { p with settings := settings, justPlaced := false }
    | some set?, .argument value :: ws =>
      let settings ← u.steps.foldlM (fun s step => step s) p.settings
      f.read ws { p with settings := ← assign set? value settings, justPlaced := false }
    | some _, _ => throw .misuse

/-- The settings that a command line makes; no word may be left over. -/
def settings (f : Form σ) (initial : σ) (args : List String) : Except Rejection σ := do
  let words ← Word.classifyAll f.names args
  let p ← f.read words { settings := initial }
  if p.surplus then throw .misuse
  return p.settings

end Form

end ParserGenerator.CommandLine
