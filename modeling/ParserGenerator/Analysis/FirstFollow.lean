import ParserGenerator.Collection.Worklist
import ParserGenerator.Analysis.Nullable

/-!
# FIRST and FOLLOW

FIRST of a symbol holds the terminals that can begin what it derives, FOLLOW those that can stand
behind it. Both grow in passes over the productions until a pass adds nothing; the sizes of the FOLLOW
sets after each pass are part of the result.
-/

namespace ParserGenerator

namespace Facts

/-- The terminals that can begin a sequence, and whether the whole sequence can vanish. -/
def firstOfSequence (f : Facts) : List Int → TerminalSet × Bool
  | [] => (∅, true)
  | id :: ids =>
    if f.isNullable id then
      let rest := f.firstOfSequence ids
      ((f.firstOf id).union rest.1, rest.2)
    else (f.firstOf id, false)

end Facts

namespace Grammar

def ids (g : Grammar) : List Int := g.symbols.symbols.map Symbol.id

/-- The number of pairs of a symbol and a terminal that the sets do not hold. -/
def openPairs (ids : List Int) (sets : Int → TerminalSet) : Nat :=
  (ids.map fun a => (ids.filter fun t => t ∉ sets a).length).foldl (· + ·) 0

/-- Adds what a production shows about FIRST of its left-hand side. -/
def widenFirst (f : Facts) (p : Production) : Facts :=
  f.addFirst p.left (f.firstOfSequence p.right).1

/-- One pass over the productions, and whether some FIRST set grew. -/
def firstPass (ps : List Production) (f : Facts) : Facts × Bool :=
  let next := ps.foldl widenFirst f
  (next, ps.any fun p => (f.firstOf p.left).size < (next.firstOf p.left).size)

/-- Adds what the occurrences of nonterminals in a right-hand side show about their FOLLOW. -/
def widenFollow (isNonterminal : Int → Bool) (left : Int) (f : Facts) : List Int → Facts
  | [] => f
  | id :: ids =>
    let next :=
      if isNonterminal id then
        let rest := f.firstOfSequence ids
        let f := f.addFollow id rest.1
        if rest.2 then f.addFollow id (f.followOf left) else f
      else f
    widenFollow isNonterminal left next ids

def isNonterminal (g : Grammar) (id : Int) : Bool :=
  (g.symbols.at? id).any (·.kind = .nonterminal)

def nonterminalIds (g : Grammar) : List Int := g.symbols.nonterminals.map Symbol.id

/-- The size of each nonterminal's FOLLOW set. -/
def followSizes (g : Grammar) (f : Facts) : List (Int × Nat) :=
  g.nonterminalIds.map fun id => (id, (f.followOf id).size)

/-- One pass over the productions, and whether some FOLLOW set grew. -/
def followPass (g : Grammar) (ps : List Production) (f : Facts) : Facts × Bool :=
  let next := ps.foldl (fun f p => widenFollow g.isNonterminal p.left f p.right) f
  (next, ps.any fun p => p.right.any fun id => (f.followOf id).size < (next.followOf id).size)

def setFacts (f : Facts) : Build Unit := modify fun g => { g with facts := f }

/-- Every symbol that can be read begins itself. -/
def seedFirst (f : Facts) (s : Symbol) : Facts :=
  if s.isInput then f.addFirst s.id (OrderedSet.ofList [s.id]) else f

/-- Computes the FIRST sets. A left-hand side that is no symbol stops the first pass. -/
def computeFirst : Build Unit := do
  let g ← get
  let seeded := g.symbols.symbols.foldl seedFirst g.facts
  let ps := g.sortedProductions
  let sound := ps.takeWhile fun p => (g.symbols.at? p.left).isSome
  match ps.drop sound.length with
  | p :: _ =>
    setFacts (firstPass sound seeded).1
    throw (.missing (.id p.left))
  | [] => setFacts (iterate (fun f => openPairs g.ids f.firstOf) (firstPass ps) seeded)

/-- Puts the end marker behind a symbol. -/
def seedFollow (id : Int) : Build Unit := do
  let _ ← query (·.symbols.symbol id)
  modify fun g =>
    { g with facts := g.facts.addFollow id (OrderedSet.ofList [endMarkerId]) }

/-- Computes the FOLLOW sets and gives their sizes after each pass. -/
def computeFollow : Build (List (List (Int × Nat))) := do
  seedFollow (← query idOfStartMarker)
  seedFollow (← query idOfStart)
  let g ← get
  let ps := g.sortedProductions
  let pass (state : Facts × List (List (Int × Nat))) :=
    let next := g.followPass ps state.1
    ((next.1, state.2 ++ [g.followSizes next.1]), next.2)
  let (facts, passes) := iterate (fun state => openPairs g.ids state.1.followOf) pass (g.facts, [])
  setFacts facts
  return passes

/-- Settles which symbols vanish, then FIRST, then FOLLOW of a closed grammar. The result lists the
FOLLOW sizes of each pass. -/
def analyze : Build (List (List (Int × Nat))) := do
  if !(← get).closed then throw (.definition .openForAnalysis)
  settleNullable
  computeFirst
  computeFollow

/-- FIRST of a sequence of symbols and whether it vanishes, as far as FIRST is known. -/
def firstOfSequence : List Int → Build (TerminalSet × Bool)
  | [] => return (∅, true)
  | id :: ids => do
    let _ ← query (·.symbols.symbol id)
    let own := (← get).facts.firstOf id
    if ← isNullable id then
      let rest ← firstOfSequence ids
      return (own.union rest.1, rest.2)
    else return (own, false)

end Grammar

end ParserGenerator
