import ParserGenerator.Grammar.Close

/-!
# Symbols that derive the empty string

Every production waits for those symbols of its right-hand side that are not yet known to vanish. Each
newly found symbol releases the productions that waited for it last, and what remains at the end never
vanishes. A symbol is settled once and keeps its answer.
-/

namespace ParserGenerator.Grammar

/-- The kind of a symbol that may stand in a production. -/
def derivationKind (g : Grammar) (id : Int) : Except Error SymbolKind := do
  let s ← g.symbols.symbol id
  match s.kind with
  | .unknown | .node => throw (.definition (.unexpectedKind s.kind s.name))
  | kind => return kind

/-- A left-hand side and the symbols that it still waits for. -/
structure Waiting where
  needs : List Int
  left : Int
  deriving DecidableEq

namespace Waiting

def without (w : Waiting) (id : Int) : Waiting := { w with needs := w.needs.filter (· ≠ id) }

def isReady (w : Waiting) : Bool := w.needs.isEmpty

/-- The productions that waited for the symbol alone. -/
def released (id : Int) (ws : List Waiting) : List Waiting :=
  (ws.map (·.without id)).filter isReady

/-- The productions that still wait once the symbol is known to vanish. -/
def remaining (id : Int) (ws : List Waiting) : List Waiting :=
  (ws.map (·.without id)).filter (!·.isReady)

theorem length_released_add_remaining (id : Int) (ws : List Waiting) :
    (released id ws).length + (remaining id ws).length = ws.length := by
  have split := List.length_eq_countP_add_countP isReady (l := ws.map (·.without id))
  rw [List.length_map] at split
  rw [released, remaining, ← List.countP_eq_length_filter, ← List.countP_eq_length_filter, split]
  simp only [Bool.decide_eq_true, decide_not]

/-- Lets symbols take effect one after the other up to the first that releases a production. The result
holds the released productions, the symbols behind that one, and the productions that still wait. -/
def firstRelease : List Int → List Waiting → List Waiting × List Int × List Waiting
  | [], ws => ([], [], ws)
  | id :: ids, ws =>
    if (released id ws).isEmpty then firstRelease ids (remaining id ws)
    else (released id ws, ids, remaining id ws)

theorem length_firstRelease (ids : List Int) (ws : List Waiting) :
    (firstRelease ids ws).1.length + (firstRelease ids ws).2.2.length = ws.length := by
  induction ids generalizing ws with
  | nil => exact Nat.zero_add _
  | cons id ids ih =>
    have total := length_released_add_remaining id ws
    rw [firstRelease]
    split
    · rename_i quiet
      rw [List.isEmpty_iff.1 quiet, List.length_nil, Nat.zero_add] at total
      rw [ih, total]
    · exact total

theorem length_firstRelease_lt {ids : List Int} {ws : List Waiting}
    (released : (firstRelease ids ws).1 ≠ []) : (firstRelease ids ws).2.2.length < ws.length := by
  have total := length_firstRelease ids ws
  have := List.length_pos_iff.2 released
  omega

end Waiting

def settle (id : Int) (b : Bool) : Build Unit :=
  modify fun g => { g with facts := g.facts.settle id b }

/-- Finds that a symbol vanishes and puts it on top of the symbols whose effect is not yet spread. -/
def markVanishing (found : List Int) (id : Int) : Build (List Int) := do
  let _ ← query (·.symbols.symbol id)
  if (← get).facts.isSettled id then return found
  settle id true
  return id :: found

/-- Settles what a symbol is by its kind alone. -/
def settleByKind (found : List Int) (s : Symbol) : Build (List Int) := do
  let kind ← query (·.derivationKind s.id)
  let facts := (← get).facts
  if facts.isSettled s.id then
    return if facts.isNullable s.id then s.id :: found else found
  if kind.isInput then
    settle s.id false
    return found
  if kind.isAction then markVanishing found s.id else return found

/-- Takes up a production: it waits, unless its whole right-hand side vanishes already. -/
def await (state : List Int × List Waiting) (p : Production) : Build (List Int × List Waiting) := do
  p.right.forM fun id => do
    let _ ← query (·.derivationKind id)
  let facts := (← get).facts
  let w : Waiting := ⟨p.right.filter fun id => !facts.isNullable id, p.left⟩
  if w.isReady then return (← markVanishing state.1 p.left, state.2)
  return (state.1, state.2 ++ [w])

/-- Spreads the effect of the symbols found to vanish. -/
def spread (found : List Int) (waiting : List Waiting) : Build Unit :=
  let next := Waiting.firstRelease found waiting
  if next.1 = [] then pure ()
  else do
    let more ← next.1.foldlM (fun found w => markVanishing found w.left) next.2.1
    spread more next.2.2
termination_by waiting.length
decreasing_by
  exact Waiting.length_firstRelease_lt (by assumption)

/-- Settles for every symbol whether it derives the empty string. -/
def settleNullable : Build Unit := do
  let symbols := (← get).symbols.symbols
  let found ← symbols.foldlM settleByKind []
  let (found, waiting) ← (← get).sortedProductions.foldlM await (found, [])
  spread found waiting
  symbols.forM fun s => do
    if !(← get).facts.isSettled s.id then settle s.id false

/-- Whether a symbol derives the empty string, by the productions there are when it is first asked. -/
def isNullable (id : Int) : Build Bool := do
  let _ ← query (·.symbols.symbol id)
  if !(← get).facts.isSettled id then
    let _ ← query (·.derivationKind id)
    settleNullable
  return (← get).facts.isNullable id

end ParserGenerator.Grammar
