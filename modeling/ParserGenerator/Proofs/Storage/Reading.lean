import ParserGenerator.Proofs.Storage.Consumption

/-!
# What a reading keeps

While a stream is read, each symbol, label and production goes into the grammar at once. A property of the
grammar that each of them keeps holds when the stream is at its end; besides the faults of the stream, only
errors occur that one of them can bring about.
-/

namespace ParserGenerator.Storage

open Build Format
open Json (Value)

variable {α β : Type} {kept : Grammar → Prop} {allowed : Error → Prop} {x : Reader α} {f : α → Reader β}
  {step : Build α}

/-- The values that a reader takes one after the other, up to the first fault. -/
def valuesOf (x : Reader α) : Nat → Reading → List α
  | 0, _ => []
  | n + 1, r =>
    match x r with
    | .ok a r => a :: valuesOf x n r
    | .error .. => []

/-- The symbols that a stream holds, as far as they can be read. -/
def symbolsOf (stream : List Value) : List SymbolRecord :=
  match readHead ⟨0, stream, .fresh⟩ with
  | .ok (_, _, n) r => valuesOf symbolRecord.read n r
  | .error .. => []

/-- From a grammar with the property the reader goes on to one, or to an error that is allowed. -/
def Stays (kept : Grammar → Prop) (allowed : Error → Prop) (x : Reader α) : Prop :=
  ∀ r, kept r.grammar → Runs x r (fun _ r' => kept r'.grammar) allowed

theorem stays_pure (a : α) : Stays kept allowed (pure a : Reader α) := fun _ h => h

theorem stays_bind (first : Stays kept allowed x) (second : ∀ a, Stays kept allowed (f a)) :
    Stays kept allowed (x >>= f) :=
  fun r h => runs_bind (first r h) fun a r' _ h => second a r' h

theorem stays_times (each : Stays kept allowed x) : ∀ n, Stays kept allowed (Reader.times n x)
  | 0 => stays_pure []
  | n + 1 => stays_bind each fun _ => stays_bind (stays_times each n) fun _ => stays_pure _

theorem runs_onGrammar {r : Reading} {done : α → Grammar → Prop} (h : Runs step r.grammar done allowed) :
    Runs (Reader.onGrammar step) r
      (fun a r' => done a r'.grammar ∧ ∀ g, { r' with grammar := g } = { r with grammar := g }) allowed := by
  rw [Runs, Reader.onGrammar]
  cases ended : step r.grammar with
  | ok a g' => exact ⟨h.of_ok ended, fun _ => rfl⟩
  | error e g' => exact h.of_error ended

theorem stays_onGrammar (each : ∀ g, kept g → Runs step g (fun _ => kept) allowed) :
    Stays kept allowed (Reader.onGrammar step) :=
  fun r h => (runs_onGrammar (each r.grammar h)).mono (fun _ _ done => done.1) fun _ e => e

/-! ## Cells of the action table -/

theorem exists_read_of_mem_times {n : Nat} {r r' : Reading} {as : List α} {a : α}
    (read : Reader.times n x r = .ok as r') (mem : a ∈ as) : ∃ r₁ r₂, x r₁ = .ok a r₂ := by
  induction n generalizing r as with
  | zero =>
    cases read
    cases mem
  | succ n ih =>
    obtain ⟨b, r₁, first, read⟩ := bind_eq_ok.1 read
    obtain ⟨bs, r₂, rest, read⟩ := bind_eq_ok.1 read
    cases read
    rcases List.mem_cons.1 mem with rfl | mem
    · exact ⟨r, r₁, first⟩
    · exact ih rest mem

theorem known_of_read {c : (Int × Int) × Action} {r r' : Reading} (read : actionCell.read r = .ok c r') :
    ActionKind.ofName c.2.kind.name = c.2.kind := by
  obtain ⟨state, r₁, -, read⟩ := bind_eq_ok.1 read
  obtain ⟨terminal, r₂, -, read⟩ := bind_eq_ok.1 read
  obtain ⟨kind, r₃, -, read⟩ := bind_eq_ok.1 read
  obtain ⟨argument, r₄, -, read⟩ := bind_eq_ok.1 read
  cases read
  exact congrArg ActionKind.ofName (ActionKind.name_ofName kind)

/-- The cells of tables that were read have kinds that their names stand for. -/
theorem readable_readBody {method : String} {t : Tables} {r r' : Reading}
    (read : readBody method r = .ok t r') : Readable t := by
  obtain ⟨_, r₁, -, read⟩ := bind_eq_ok.1 read
  obtain ⟨_, r₂, -, read⟩ := bind_eq_ok.1 read
  obtain ⟨startState, r₃, -, read⟩ := bind_eq_ok.1 read
  obtain ⟨stateCount, r₄, -, read⟩ := bind_eq_ok.1 read
  obtain ⟨actions, r₅, cells, read⟩ := bind_eq_ok.1 read
  obtain ⟨gotos, r₆, -, read⟩ := bind_eq_ok.1 read
  obtain ⟨conflicts, r₇, -, read⟩ := bind_eq_ok.1 read
  obtain ⟨violations, r₈, -, read⟩ := bind_eq_ok.1 read
  obtain ⟨stateItems, r₉, -, read⟩ := bind_eq_ok.1 read
  cases read
  intro c mem
  obtain ⟨n, _, -, times⟩ := bind_eq_ok.1 cells
  obtain ⟨_, _, one⟩ := exists_read_of_mem_times times (OrderedMap.mem_of_mem_ofList mem)
  exact known_of_read one

/-! ## Whole streams -/

section

variable (told : ∀ fault, allowed (.stream fault))
include told

theorem Careful.stays (careful : Careful x) : Stays kept allowed x := by
  intro r h
  refine (careful r).mono ?_ ?_
  · rintro a r' ⟨same, -⟩
    rwa [same]
  · rintro e ⟨fault, rfl⟩
    exact told fault

theorem stays_restoreMany {f : Format α} (careful : Careful f.read) {restore : α → Build Unit}
    (each : ∀ a g, kept g → Runs (restore a) g (fun _ => kept) allowed) :
    Stays kept allowed (restoreMany f restore) :=
  stays_bind (careful_count.stays told) fun n =>
    stays_bind (stays_times (stays_bind (careful.stays told) fun a => stays_onGrammar (each a)) n) fun _ =>
      stays_pure ()

theorem stays_atEnd : Stays kept allowed Reader.atEnd := by
  intro r h
  rw [Runs, atEnd_eq]
  by_cases none : r.rest = []
  · rw [if_pos none]
    exact h
  · rw [if_neg none]
    exact told _

section

variable (labels : ∀ l g, kept g → Runs (restoreLabel l) g (fun _ => kept) allowed)
  (productions : ∀ p g, kept g → Runs (Grammar.restoreProduction p) g (fun _ => kept) allowed)
include labels productions

theorem stays_readBody (method : String) : Stays kept allowed (readBody method) := by
  refine stays_bind (stays_restoreMany told careful_labelRecord labels) fun _ => ?_
  refine stays_bind (stays_restoreMany told careful_production fun p g h =>
    runs_bind (productions p g h) fun _ _ _ h => h) fun _ => ?_
  refine stays_bind (Careful.stays told careful_integer) fun startState => ?_
  refine stays_bind (Careful.stays told careful_integer) fun stateCount => ?_
  refine stays_bind (Careful.stays told (careful_many careful_actionCell)) fun actions => ?_
  refine stays_bind (Careful.stays told (careful_many careful_gotoCell)) fun gotos => ?_
  refine stays_bind (Careful.stays told (careful_many careful_conflict)) fun conflicts => ?_
  refine stays_bind (Careful.stays told (careful_many careful_violation)) fun violations => ?_
  exact stays_bind (Careful.stays told (careful_many (careful_many careful_text))) fun stateItems =>
    stays_pure _

end

/-- The symbols of a stream are restored, where what is known of them is said of those that can be read. -/
theorem runs_restoreSymbols {fits : SymbolRecord → Prop}
    (symbols : ∀ s g, fits s → kept g → Runs (restoreSymbol s) g (fun _ => kept) allowed)
    (n : Nat) (r : Reading) (g : Grammar) (h : kept r.grammar)
    (each : ∀ s ∈ valuesOf symbolRecord.read n { r with grammar := g }, fits s) :
    Runs (Reader.times n do Reader.onGrammar (restoreSymbol (← symbolRecord.read))) r
      (fun _ r' => kept r'.grammar) allowed := by
  induction n generalizing r with
  | zero => exact h
  | succ n ih =>
    have first : Runs (do Reader.onGrammar (restoreSymbol (← symbolRecord.read))) r
        (fun _ r' => kept r'.grammar ∧
          ∀ s ∈ valuesOf symbolRecord.read n { r' with grammar := g }, fits s) allowed := by
      refine runs_bind (careful_symbolRecord.stays told r h) ?_
      intro s r₁ read h
      rw [valuesOf, careful_symbolRecord.at_grammar read g] at each
      obtain ⟨fit, later⟩ := List.forall_mem_cons.1 each
      refine (runs_onGrammar (symbols s _ fit h)).mono ?_ fun _ allowed => allowed
      rintro _ r' ⟨h, same⟩
      rw [same]
      exact ⟨h, later⟩
    refine runs_bind first ?_
    rintro _ r' - ⟨h, each⟩
    exact runs_bind (ih r' h each) fun _ _ _ h => h

variable (kept) in
/-- A stream is read from its first item to its last, and its tables are completed by the grammar. -/
theorem runs_readTables (done : Tables → Grammar → Prop) {stream : List Value} {fits : SymbolRecord → Prop}
    (begun : kept .fresh) (each : ∀ s ∈ symbolsOf stream, fits s)
    (symbols : ∀ s g, fits s → kept g → Runs (restoreSymbol s) g (fun _ => kept) allowed)
    (labels : ∀ l g, kept g → Runs (restoreLabel l) g (fun _ => kept) allowed)
    (productions : ∀ p g, kept g → Runs (Grammar.restoreProduction p) g (fun _ => kept) allowed)
    (completes : ∀ start t g, Readable t → kept g → Runs (complete start t) g done allowed) :
    Runs readTables ⟨0, stream, .fresh⟩ (fun t r => done t r.grammar) allowed := by
  have parts : Runs readParts ⟨0, stream, .fresh⟩ (fun p r => Readable p.2 ∧ kept r.grammar) allowed := by
    refine runs_bind (careful_readHead.stays told _ begun) ?_
    rintro ⟨method, start, n⟩ r read h
    simp only [symbolsOf, read] at each
    refine runs_bind (runs_restoreSymbols told symbols n r r.grammar h each) fun _ r _ h => ?_
    exact runs_bind (stays_readBody told labels productions method r h) fun t r' read h =>
      ⟨readable_readBody read, h⟩
  rw [readTables_eq]
  refine runs_bind parts fun (start, t) r _ ⟨readable, h⟩ => ?_
  refine runs_bind (stays_atEnd told r h) fun _ r _ h => ?_
  exact (runs_onGrammar (completes start t _ readable h)).mono (fun _ _ done => done.1) fun _ e => e

end

end ParserGenerator.Storage
