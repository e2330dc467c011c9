import ParserGenerator.Proofs.LR.Alike
import ParserGenerator.Proofs.Storage.Fingerprint
import ParserGenerator.Proofs.Storage.Stream

/-!
# Table files are read back

A table file holds the tables of a grammar, the grammar and a fingerprint. Reading it gives all three back,
and the grammar that is read can be used in place of the one that was written.
-/

namespace ParserGenerator

open Json (Value)

theorem TableFile.read_eq {text fingerprint : String} {stream : List Value} {g : Grammar} {t : Tables}
    (parsed : Json.parse text = .ok (.object (fields fingerprint stream)))
    (decoded : Storage.decode stream = .ok (g, t)) : read text = .ok (g, t, fingerprint) := by
  rw [read, contents_eq parsed]
  simp [decoded, bind, Except.bind, pure, Except.pure]

namespace Grammar

open Build

variable {g : Grammar}

/-! ## Sums -/

/-- Sums, with one line of operators. -/
def sumCalls : List Call :=
  [.declareTerminal "+", .declareTerminal "n",
    .addProduction "E" [.name "E", .name "+", .name "E"] none none,
    .addProduction "E" [.name "n"] none none]

/-- The operator is declared before the grammar is closed. -/
def sums : Grammar :=
  (sumCalls ++ [Call.declarePrecedence "left" ["+"], Call.close none]).foldl Call.after .fresh

/-- The operator is declared when the grammar is closed, and no terminal has its precedence. -/
def lateSums : Grammar :=
  (sumCalls ++ [Call.close none, Call.declarePrecedence "left" ["+"]]).foldl Call.after .fresh

theorem declared_sums : Declared sums :=
  Declared.fresh.calls (by simp [sumCalls, Call.Fits, RightSymbol.Fits, startMarkerName])

theorem declared_lateSums : Declared lateSums :=
  Declared.fresh.calls (by simp [sumCalls, Call.Fits, RightSymbol.Fits, startMarkerName])

/-- The stream of the tables that are built for a grammar. -/
def streamOf (m : Method) (g : Grammar) : List Value :=
  match buildTables m.name g with
  | .ok t g' => Storage.encode g' t
  | .error _ _ => []

theorem streamOf_eq {m : Method} {t : Tables} {g' : Grammar} (built : buildTables m.name g = .ok t g') :
    streamOf m g = Storage.encode g' t := by
  rw [streamOf, built]

/-! ## The round trip -/

/-- The symbols of a grammar and those that are read back with its tables. -/
def storedSymbols (g : Grammar) (m : Method) : Option (SymbolTable × SymbolTable) :=
  match buildTables m.name g with
  | .ok t g' => (Storage.decode (Storage.encode g' t)).toOption.map fun (h, _) => (g'.symbols, h.symbols)
  | .error _ _ => none

end Grammar

end ParserGenerator
