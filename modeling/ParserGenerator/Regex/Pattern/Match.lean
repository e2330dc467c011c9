import ParserGenerator.Regex.Pattern.Basic

/-!
# Characters that a pattern matches

A match of a text of one character is tried from its beginning. The ways in which a pattern can go on are
listed in order of preference; the character is accepted if one of them ends behind it. Where a pattern is
tolerant, a character that does not fit counts as a mistake: it is replaced, put in, or the expected one is
left out.
-/

namespace ParserGenerator

/-- The code points of letters, marks and digits, and of characters that join them. -/
def isWordCode (n : Nat) : Bool :=
  let k := GeneralCategory.ofCodePoint n
  k.group ∈ ['L', 'M'] || k ∈ [.letterNumber, .decimalNumber, .connectorPunctuation] ||
    (0x24b6 ≤ n && n ≤ 0x24e9) || (0x1f130 ≤ n && n ≤ 0x1f149) || (0x1f150 ≤ n && n ≤ 0x1f169) ||
    (0x1f170 ≤ n && n ≤ 0x1f189) || n = 0x200c || n = 0x200d

/-- Where a match stands: before or behind the character, with the groups matched so far, the latest
first, each with its beginning and end, and the mistakes made. -/
structure Trial where
  behind : Bool := false
  spans : List (Nat × Bool × Bool) := []
  mistakes : List Mistake := []

namespace Trial

/-- The end of a group, and whether it begins before the character. -/
def span? (t : Trial) (number : Nat) : Option (Bool × Bool) := t.spans.lookup number

/-- The trial after one more mistake. -/
def after (t : Trial) (m : Mistake) : Trial := { t with mistakes := m :: t.mistakes }

end Trial

namespace Tolerance

def cost (l : CostLimit) (ms : List Mistake) : Nat := (ms.map l.cost).foldl (· + ·) 0

/-- Whether so many mistakes are not too many. -/
def permits (t : Tolerance) (ms : List Mistake) : Bool :=
  Mistake.all.all (fun m => (t.number m).high.all (ms.count m ≤ ·)) &&
    t.total.high.all (ms.length ≤ ·) && t.costs.high.all (cost t.costs ms ≤ ·)

/-- Whether there are as many mistakes as there have to be. -/
def isMet (t : Tolerance) (ms : List Mistake) : Bool :=
  Mistake.all.all (fun m => (t.number m).low ≤ ms.count m) && t.total.low ≤ ms.length

end Tolerance

namespace Pattern

/-- What a pattern is matched against and within. -/
structure Setting where
  code : Nat
  groups : Groups
  /-- How a group that is called goes on. -/
  called : Nat → Trial → List Trial

def holds (code : Nat) (behind : Bool) : Assertion → Bool
  | .textStart => !behind
  | .textEnd => behind
  | .lineStart => !behind || code = 10
  | .lineEnd | .lastLineEnd => behind || code = 10
  | .wordEdge => isWordCode code
  | .noWordEdge => !isWordCode code
  | .wordStart => !behind && isWordCode code
  | .wordEnd => behind && isWordCode code

/-- The ways on by a mistake, where one set of characters does not fit. -/
def mistaken (code : Nat) (tolerance : Tolerance) (t : Trial) : List Trial :=
  let taken := if !t.behind && tolerance.allowed code then
      [{ t.after .substitution with behind := true },
        { (t.after .insertion).after .deletion with behind := true }]
    else []
  (taken ++ [t.after .deletion]).filter (tolerance.permits ·.mistakes)

/-- The ways on by one character of a set. -/
def takeOne (code : Nat) (tolerance : Option Tolerance) (set : CodeSet) (t : Trial) : List Trial :=
  if !t.behind && set code then [{ t with behind := true }]
  else match tolerance with
    | none => []
    | some tolerance => mistaken code tolerance t

/-- The ways on by repetitions of a pattern, when `count` are done. One that stays where it is stands for
all that are still owed, so the character bounds how many need a try. -/
def takeRepeated (b : Bounds) (lazy : Bool) (body : Trial → List Trial) :
    Nat → Nat → Trial → List Trial
  | 0, _, t => [t]
  | tries + 1, count, t =>
    let stop := if b.low ≤ count then [t] else []
    let more :=
      if b.high.any (· ≤ count) then []
      else (body t).flatMap fun u =>
        if u.behind = t.behind then [u] else takeRepeated b lazy body tries (count + 1) u
    if lazy then stop ++ more else more ++ stop

/-- The first way on by a pattern that ends where the trial stands, or that begins there. -/
def glance (behind : Bool) (body : Trial → List Trial) (t : Trial) : Option Trial :=
  if behind then
    let starts := if t.behind then [true, false] else [false]
    (starts.flatMap fun s => body { t with behind := s }).find? (·.behind = t.behind)
  else (body t).head?

/-- The ways on within a tolerance, each with the mistakes made within it added to those before. -/
def takeTolerant (code : Nat) (tolerance : Tolerance) (body : Trial → List Trial) (t : Trial) :
    List Trial :=
  let ends := (body { t with mistakes := [] }).flatMap fun u =>
    let inserted := { u.after .insertion with behind := true }
    let further := !u.behind && tolerance.allowed code && tolerance.permits inserted.mistakes
    u :: if further then [inserted] else []
  (ends.filter (tolerance.isMet ·.mistakes)).map fun u =>
    { u with mistakes := u.mistakes ++ t.mistakes }

/-- The ways in which a pattern goes on from a trial, in order of preference. -/
def ways (s : Setting) (tolerance : Option Tolerance) : Pattern → Trial → List Trial
  | empty, t => [t]
  | fail, _ => []
  | one set, t => takeOne s.code tolerance set t
  | position a, t => if holds s.code t.behind a then [t] else []
  | sequence p q, t => (p.ways s tolerance t).flatMap (q.ways s tolerance)
  | choice p q, t => p.ways s tolerance t ++ q.ways s tolerance t
  | repeated b .possessive p, t =>
    (takeRepeated b false (p.ways s tolerance) 3 0 t).head?.toList
  | repeated b r p, t => takeRepeated b (r = .lazy) (p.ways s tolerance) 3 0 t
  | group n p, t =>
    (p.ways s tolerance t).map fun u => { u with spans := (n, t.behind, u.behind) :: u.spans }
  | same r, t =>
    match (s.groups.number? r.target).bind t.span? with
    | none => []
    | some (start, stop) =>
      if start = stop then [t]
      else if t.behind then []
      else [{ t with behind := true }]
  | call r, t =>
    (s.called ((s.groups.number? r.target).getD 0) t).map fun u => { u with spans := t.spans }
  | atomic p, t => (p.ways s tolerance t).head?.toList
  | look behind positive p, t =>
    match glance behind (p.ways s tolerance) t, positive with
    | some u, true => [{ u with behind := t.behind }]
    | none, false => [t]
    | _, _ => []
  | ifGroup r yes no, t =>
    if ((s.groups.number? r.target).bind t.span?).isSome then yes.ways s tolerance t
    else no.ways s tolerance t
  | ifLook behind positive p yes no, t =>
    match glance behind (p.ways s tolerance) t, positive with
    | some u, true => yes.ways s tolerance { u with behind := t.behind }
    | none, false => yes.ways s tolerance t
    | _, _ => no.ways s tolerance t
  | tolerant within p, t => takeTolerant s.code within (p.ways s (some within)) t

/-- The depth to which groups that are called can call others. -/
def callDepth : Nat := 8

/-- How a group of a pattern goes on, calls nested at most to a depth. -/
def calledGroup (p : Pattern) (groups : Groups) (code : Nat) : Nat → Nat → Trial → List Trial
  | 0, _, _ => []
  | depth + 1, number, t =>
    let body := if number = 0 then p else (p.body? number).getD fail
    body.ways ⟨code, groups, calledGroup p groups code depth⟩ none t

/-- Whether a pattern with the given groups matches a character alone. -/
def accepts (p : Pattern) (groups : Groups) (c : Char) : Bool :=
  (p.ways ⟨c.toNat, groups, calledGroup p groups c.toNat callDepth⟩ none {}).any (·.behind)

end Pattern

end ParserGenerator
