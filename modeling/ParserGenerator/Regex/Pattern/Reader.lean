import ParserGenerator.Regex.Pattern.Tolerance

/-!
# Reading of patterns

Choices hold sequences, sequences hold items, and behind an item may stand a number of repetitions or a
tolerance. A property is the pattern that its notation makes up: mostly a single set, or else a letter and
what stands in braces behind it.
-/

namespace ParserGenerator.Pattern

/-- The items of a sequence: the latest, unless it cannot be repeated, and those before it, the latest
first. -/
structure Items where
  before : List Pattern := []
  last : Option Pattern := none

namespace Items

def add (s : Items) (p : Pattern) : Items := ⟨s.last.toList ++ s.before, some p⟩

/-- The items with the latest replaced by one that cannot be repeated. -/
def close (s : Items) (p : Pattern) : Items := ⟨p :: s.before, none⟩

def toPattern (s : Items) : Pattern :=
  match s.last.toList ++ s.before with
  | [] => .empty
  | p :: ps => ps.foldl (fun after p => .sequence p after) p

end Items

namespace Reading

/-! ## Repetitions -/

/-- A number of repetitions that is refused. -/
def countLimit : Nat := Nat.pow 2 32 - 1

/-- Reads the numbers of repetitions behind their opening brace, if the text has their form. -/
def counts? : Reading (Option Bounds) := do
  let place ← get
  let low ← digits
  let bounds ← if ← accept "," then
      let high ← digits
      let least ← if low.isEmpty then pure 0 else number low
      let greatest ← if high.isEmpty then pure none else some <$> number high
      pure (some ⟨least, greatest⟩)
    else if low.isEmpty then pure none
    else
      let n ← number low
      pure (some ⟨n, some n⟩)
  match bounds with
  | some b =>
    if ← accept "\x7d" then
      if countLimit ≤ b.low ∨ b.high.any (countLimit ≤ ·) then faultAt place.offset .countTooLarge
      if b.high.any (· < b.low) then faultAt place.offset .countsReversed
      return some b
    else
      back place
      return none
  | none =>
    back place
    return none

/-- The numbers of repetitions that a character stands for, those in braces read behind it. -/
def quantifier? : Char → Reading (Option Bounds)
  | '?' => return some ⟨0, some 1⟩
  | '*' => return some ⟨0, none⟩
  | '+' => return some ⟨1, none⟩
  | '\x7b' => counts?
  | _ => return none

/-- Repeats the latest item. -/
def repeatLast (b : Bounds) (start : Nat) (s : Items) : Reading Items := do
  match s.last with
  | none => faultAt start (if s.before.isEmpty then .nothingToRepeat else .multipleRepeat)
  | some p =>
    let r ← if ← accept "?" then pure .lazy
      else if ← accept "+" then pure .possessive
      else pure Repetition.greedy
    let once := b.low = 1 && b.high = some 1
    return s.close (if p.isEmpty || once then p else .repeated b r p)

/-- Gives the latest item a tolerance; of a group it is what stands inside. -/
def tolerateLast (t : Tolerance) (start : Nat) (s : Items) : Reading Items :=
  match s.last with
  | none => faultAt start .nothingToTolerate
  | some (.group n p) => return s.close (.group n (.tolerant t p))
  | some p => return s.close (.tolerant t p)

/-! ## Options -/

/-- The letters of the options that always count for the whole pattern. -/
def wholeOptions : List Char := "aLuVbepr01".toList

def optionLetters : List Char := "abefiLmprsuwx".toList

/-- Reads the letters of options; those of versions are two letters long and told by the second. -/
def optionSet : Nat → Reading (List Char)
  | 0 => return []
  | bound + 1 => do
    match (← get).rest with
    | 'V' :: v :: _ =>
      if v ∈ ['0', '1'] then
        skip 2
        return v :: (← optionSet bound)
      else return []
    | c :: _ =>
      if c ∈ optionLetters then
        skip 1
        return c :: (← optionSet bound)
      else return []
    | [] => return []

/-- Reads options for what follows, or for what stands behind a colon in the same parentheses. Options that
stand alone count for the whole pattern and cannot be turned off. -/
def optionGroup (choice : Reading Pattern) : Reading (Option Pattern) := do
  let on ← optionSet (← extent)
  let negative ← accept "-"
  let off ← if negative then optionSet (← extent) else pure []
  if negative ∧ off.isEmpty then fault .noOptionsOff
  if off.any wholeOptions.contains then fault .wholeOptionOff
  if on.any off.contains then fault .optionOnAndOff
  let options := (← get).options
  let required := (on.filter wholeOptions.contains).filter (!options.everywhere.contains ·)
  if !required.isEmpty then throw (.again (required ++ options.everywhere))
  if ← accept ":" then
    let here := (on ++ options.here).filter (!off.contains ·)
    some <$> locally do
      modify fun c => { c with options := { options with here := here } }
      let p ← choice
      expect ')'
      return p
  else if ← accept ")" then
    if !off.isEmpty then fault .optionOff
    let new := on.filter (!options.everywhere.contains ·)
    if !new.isEmpty then throw (.again (new ++ options.everywhere))
    return none
  else fault .unknownExtension

/-! ## Parentheses -/

/-- Reads a pattern up to a closing parenthesis. -/
def closed (choice : Reading Pattern) : Reading Pattern := do
  let p ← locally choice
  expect ')'
  return p

/-- Reads a group behind its opening, and the closing parenthesis. -/
def captured (name : Option String) (choice : Reading Pattern) : Reading Pattern :=
  inGroup name (closed choice)

/-- Reads a group with a name in angle brackets, of which the first is read. -/
def named (choice : Reading Pattern) : Reading Pattern := do
  match ← groupName false with
  | .inl _ => fault .groupNameCharacter
  | .inr name =>
    let (n, groups) := (← get).groups.next (some name)
    modify fun c => { c with groups := groups.enter n }
    expect '>'
    let p ← closed choice
    modify fun c => { c with groups := c.groups.leave }
    return .group n p

/-- Reads a call of a group by its name. -/
def namedCall (start : Nat) : Reading Pattern := do
  let target ← groupName false
  expect ')'
  return .call ⟨target, start⟩

/-- Reads a comment up to a parenthesis that is not escaped. -/
def comment : Nat → Reading Unit
  | 0 => expect ')'
  | bound + 1 => do
    match (← get).rest.head? with
    | none | some ')' => expect ')'
    | some c =>
      skip (if c = '\\' then 2 else 1)
      comment bound

/-- Reads the two branches of a condition. -/
def branches (sequence : Reading Pattern) : Reading (Pattern × Pattern) := do
  let yes ← sequence
  let no ← if ← accept "|" then sequence else pure .empty
  expect ')'
  return (yes, no)

/-- Reads a condition and its branches. -/
def condition (choice sequence : Reading Pattern) : Reading Pattern := do
  let place ← get
  if ← accept "?" then
    let behind ← accept "<"
    let positive ← accept "="
    if !positive ∧ !(← accept "!") then faultAt place.offset .expectedLookaround
    let p ← closed choice
    let (yes, no) ← branches sequence
    return .ifLook behind positive p yes no
  else locally do
    let target ← groupName true
    expect ')'
    let (yes, no) ← branches sequence
    return if yes.isEmpty && no.isEmpty then .empty
      else .ifGroup ⟨target, place.offset⟩ yes no

/-- Reads further sequences between bars, in each of which groups are numbered from the same number on. -/
def moreNumbered (sequence : Reading Pattern) (count : Nat) : Nat → Nat → Pattern → Reading Pattern
  | 0, _, p => return p
  | bound + 1, greatest, p => do
    let greatest := max greatest (← get).groups.count
    let setCount (n : Nat) : Reading Unit := modify fun c => { c with groups := { c.groups with count := n } }
    if ← accept "|" then
      setCount count
      let q ← sequence
      moreNumbered sequence count bound greatest (.choice p q)
    else
      setCount greatest
      expect ')'
      return p

/-- Reads a call of a group counted from where it stands. -/
def relativeCall (forward : Bool) (start : Nat) : Reading Pattern := do
  let n ← number (← digits)
  let count := (← get).groups.count
  let target : Int := if forward then count + n else count - n + 1
  if target ≤ 0 then fault .relativeGroup
  expect ')'
  return .call ⟨.inl target.toNat, start⟩

/-- Reads what stands in parentheses behind a question mark and the letter P. -/
def extension (choice : Reading Pattern) : Reading Pattern := do
  let start ← offset
  match ← next with
  | some '<' => named choice
  | some '=' =>
    let target ← groupName true
    expect ')'
    if (← get).groups.isUnclosed target then faultAt start .unclosedGroup
    return .same ⟨target, start⟩
  | some '>' | some '&' => namedCall start
  | _ => faultAt start .unknownExtension

/-- Reads what stands in parentheses behind a question mark. Options and comments are no items. -/
def special (choice sequence : Reading Pattern) : Reading (Option Pattern) := do
  let place ← get
  let start := place.offset
  let look (behind positive : Bool) : Reading (Option Pattern) :=
    return some (.look behind positive (← closed choice))
  match ← nextHere with
  | some '<' =>
    if ← accept "=" then look true true
    else if ← accept "!" then look true false
    else some <$> named choice
  | some '=' => look false true
  | some '!' => look false false
  | some 'P' => some <$> extension choice
  | some '#' =>
    comment (← extent)
    return none
  | some '(' => some <$> condition choice sequence
  | some '>' => return some (.atomic (← closed choice))
  | some '|' =>
    let count := (← get).groups.count
    let p ← sequence
    some <$> moreNumbered sequence count ((← extent) + 1) count p
  | some '&' => some <$> namedCall start
  | some 'R' =>
    expect ')'
    return some (.call ⟨.inl 0, start⟩)
  | some c =>
    if c.isDigit then
      let n ← number (c :: (← digits))
      expect ')'
      return some (.call ⟨.inl n, start⟩)
    else if (c = '+' ∨ c = '-') ∧ (← peek).any Char.isDigit then
      some <$> relativeCall (c = '+') start
    else
      back place
      optionGroup choice
  | none =>
    back place
    optionGroup choice

/-- The word of an instruction behind an asterisk, if a letter follows. -/
def instruction? : Reading (Option Pattern) := do
  let start ← offset
  let word ← takeWhile fun c => c ≠ ')' && c ≠ '>'
  if !word.head?.any (fun c => (GeneralCategory.ofCodePoint c.toNat).group = 'L') then return none
  let p ← match String.ofList word with
    | "F" | "FAIL" => pure .fail
    | "PRUNE" | "SKIP" => pure .empty
    | _ => faultAt start .unknownVerb
  expect ')'
  return some p

/-- Reads what stands behind an opening parenthesis. -/
def parenthesis (choice sequence : Reading Pattern) : Reading (Option Pattern) := do
  let place ← get
  match ← nextHere with
  | some '?' => return ← special choice sequence
  | some '*' => if let some p ← instruction? then return some p
  | _ => pure ()
  back place
  some <$> captured none choice

/-! ## Sequences and choices -/

/-- Reads the items of a sequence up to a bar, a closing parenthesis or the end. -/
def items (choice sequence : Reading Pattern) : Nat → Items → Reading Pattern
  | 0, s => return s.toPattern
  | bound + 1, s => do
    let place ← get
    let start := place.offset
    let go := items choice sequence bound
    match ← next with
    | none | some '|' | some ')' =>
      back place
      return s.toPattern
    | some '\\' => go (s.add (← (← escape false).toPattern))
    | some '(' =>
      match ← parenthesis choice sequence with
      | some p => go (s.add p)
      | none => go s
    | some '.' => go (s.add (← anyCharacter))
    | some '[' => go (s.add (← codeSet))
    | some '^' => go (s.add (.position (if ← hasOption 'm' then .lineStart else .textStart)))
    | some '$' => go (s.add (.position (if ← hasOption 'm' then .lineEnd else .lastLineEnd)))
    | some c =>
      if let some b ← quantifier? c then go (← repeatLast b start s)
      else
        match ← if c = '\x7b' then tolerance? else pure none with
        | some t => go (← tolerateLast t start s)
        | none => go (s.add (← literal c))

/-- Reads the further sequences of a choice. -/
def moreOptions (sequence : Reading Pattern) : Nat → Pattern → Reading Pattern
  | 0, p => return p
  | bound + 1, p => do
    if ← accept "|" then moreOptions sequence bound (.choice p (← sequence)) else return p

def choiceOf (sequence : Reading Pattern) : Reading Pattern := do
  let first ← sequence
  moreOptions sequence (← extent) first

/-- Reads a sequence in which parentheses are nested at most to a depth. -/
def sequence : Nat → Reading Pattern
  | 0 => fault (.missing ')')
  | depth + 1 => do
    items (choiceOf (sequence depth)) (sequence depth) ((← extent) + 1) {}

/-- Reads a whole pattern. -/
def whole : Reading Pattern := do
  let p ← choiceOf (sequence ((← extent) + 1))
  if (← peek).isSome then fault .unbalancedParenthesis
  return p

end Reading

/-- A fault of a pattern, or a number in it that is none. -/
inductive Refusal where
  | fault (offset : Nat) (f : PropertyFault)
  | value (e : ValueError)

/-- Reads a pattern under the given options for the whole, and again where it sets more. -/
def readUnder (written : List Char) : Nat → List Char → Except Refusal (Pattern × Groups)
  | tries, options =>
    match Reading.whole { rest := written, options := ⟨options, options⟩ } with
    | .ok p c =>
      match p.check c.groups with
      | .ok () => .ok (p, c.groups)
      | .error (offset, f) => .error (.fault offset f)
    | .error (.fault offset f) _ => .error (.fault offset f)
    | .error (.value e) _ => .error (.value e)
    | .error .otherForm _ => .error (.fault 0 .unknownExtension)
    | .error (.again more) _ =>
      match tries with
      | 0 => .error (.fault 0 .unknownExtension)
      | tries + 1 => readUnder written tries more

/-- The pattern that the notation of a property makes up, and its groups. -/
def ofProperty (text : String) : Except Refusal (Pattern × Groups) :=
  readUnder (propertyNotation text).toList Reading.optionLetters.length []

end ParserGenerator.Pattern
