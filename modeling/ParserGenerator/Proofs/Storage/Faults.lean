import ParserGenerator.CommandLine.Run
import ParserGenerator.Proofs.Storage.Reading

/-!
# Faults of a stream

Every fault of a stream is reported as one, but for two that negative identifiers bring about: one that lies
before the first slot of the table, and one whose slot is vacant when its name comes up again.
-/

namespace ParserGenerator

namespace Storage

open Attempt Build Format
open CommandLine (errorName?)
open Json (Value)

variable {low lost : Prop}

/-- An error is reported as one of the stream; or an identifier lay too low, or a symbol was lost. -/
inductive Allowed (low lost : Prop) : Error → Prop where
  | told {e : Error} (named : errorName? (asStreamFault e) = some "SerializationError") :
    Allowed low lost e
  | outOfRange (h : low) : Allowed low lost .outOfRange
  | vacantSlot (h : lost) : Allowed low lost .vacantSlot

/-! ## Symbols under the identifiers they had -/

/-- The slots of a new table are there, and each symbol has its seat unless one was lost. -/
structure Steady (lost : Prop) (t : SymbolTable) : Prop where
  size : 3 ≤ t.slots.size
  seated : lost ∨ t.Seated

/-- The symbol has its seat, unless one was lost. -/
def There (lost : Prop) (t : SymbolTable) (s : Symbol) : Prop := lost ∨ t.at? s.id = some s

variable {t : SymbolTable} {s s' : Symbol} {name : String} {id : Int}

theorem steady_fresh (lost : Prop) : Steady lost .fresh where
  size := le_refl 3
  seated := .inr SymbolTable.lawful_fresh.seated

theorem Steady.update (steady : Steady lost t) (there : There lost t s) (id_eq : s'.id = s.id)
    (named : s'.name = s.name) : Steady lost (t.update s') ∧ There lost (t.update s') s' := by
  have size : 3 ≤ (t.update s').slots.size := by
    rw [SymbolTable.update, Array.size_map]
    exact steady.size
  rcases steady.seated with h | seated
  · exact ⟨⟨size, .inl h⟩, .inl h⟩
  · rcases there with h | at_s
    · exact ⟨⟨size, .inl h⟩, .inl h⟩
    · rw [← id_eq] at at_s
      refine ⟨⟨size, .inr (seated.update at_s named)⟩, .inr ?_⟩
      rw [seated.at?_update at_s named, if_pos rfl]

theorem Steady.install (steady : Steady lost t) (new : t.find? s.name = none) {slot : Nat}
    (place : lost ∨ s.id = slot) :
    Steady lost (t.install slot s) ∧ There lost (t.install slot s) s := by
  have size : 3 ≤ (t.install slot s).slots.size := by
    rw [SymbolTable.install, Array.size_setIfInBounds, Array.size_append]
    exact le_trans steady.size (Nat.le_add_right _ _)
  rcases steady.seated with h | seated
  · exact ⟨⟨size, .inl h⟩, .inl h⟩
  · rcases place with h | place
    · exact ⟨⟨size, .inl h⟩, .inl h⟩
    · refine ⟨⟨size, .inr (seated.install new place)⟩, .inr ?_⟩
      rw [SymbolTable.at?_install, if_pos place]

/-- The symbol of a name that is found has its seat, unless one was lost. -/
theorem Steady.current?_cases (steady : Steady lost t) (found : t.find? name = some s) :
    (lost ∧ t.current? s = none) ∨ ∃ x, t.current? s = some x ∧ There lost t x := by
  rcases steady.seated with h | seated
  · cases t.current? s with
    | none => exact .inl ⟨h, rfl⟩
    | some x => exact .inr ⟨x, rfl, .inl h⟩
  · have at_s := (seated.find?_eq_some.1 found).1
    exact .inr ⟨s, seated.current?_eq at_s, .inr at_s⟩

theorem Steady.there_of_symbol (steady : Steady lost t) (found : t.symbol id = .ok s) : There lost t s := by
  refine steady.seated.imp_right fun seated => ?_
  have at_s := SymbolTable.at?_of_symbol found
  rwa [seated.id_eq at_s]

theorem Steady.there_of_get? (steady : Steady lost t) (found : t.get? name = some s) : There lost t s :=
  steady.seated.imp_right fun seated => (seated.get?_eq_some.1 found).1

/-- A name is resolved, unless its symbol was lost or the table takes no more names. -/
theorem Steady.resolve (steady : Steady lost t) (name : String) (kind : SymbolKind) :
    Answers (t.resolve name kind) (fun r => Steady lost r.2 ∧ There lost r.2 r.1) (Allowed low lost) := by
  rw [SymbolTable.resolve]
  cases found : t.find? name with
  | some registered =>
    rcases steady.current?_cases found with ⟨h, gone⟩ | ⟨x, here, there⟩
    · simp only [gone]
      exact .vacantSlot h
    · simp only [here]
      split
      · exact steady.update there rfl rfl
      · exact ⟨steady, there⟩
  | none =>
    simp only
    split
    · exact .told rfl
    · exact steady.install found (.inr rfl)

/-- A symbol from storage is registered, or its fault is told; only a negative identifier can fail in another
way. -/
theorem Steady.restore (steady : Steady lost t) (name : String) (kind : SymbolKind)
    (below : id < -3 → low) (negative : id < 0 → lost) :
    Answers (t.restore name id kind) (fun r => Steady lost r.2 ∧ There lost r.2 r.1) (Allowed low lost) := by
  rw [SymbolTable.restore]
  cases found : t.find? name with
  | some registered =>
    rcases steady.current?_cases found with ⟨h, gone⟩ | ⟨x, here, there⟩
    · simp only [gone]
      exact .vacantSlot h
    · simp only [here]
      split
      · exact .told rfl
      · exact steady.update there rfl rfl
  | none =>
    simp only
    have filled := steady.size
    split
    · rename_i inside
      rcases t.slotOf?_cases id with ⟨outside, low_or_high⟩ | ⟨slot, there, place⟩
      · simp only [outside]
        exact .outOfRange (below (by omega))
      · simp only [there]
        split
        · exact .told rfl
        · refine steady.install found ?_
          by_cases h : id < 0
          · exact .inl (negative h)
          · exact .inr (place (Int.not_lt.1 h))
    · rename_i outside
      have natural : 0 ≤ id := by omega
      exact steady.install found (.inr (Int.toNat_of_nonneg natural).symm)

/-! ## Steps on the grammar -/

/-- From a grammar with a steady table the step ends with one, or with an error that is allowed. -/
def Holds (low lost : Prop) {α : Type} (x : Build α) (g : Grammar) : Prop :=
  Runs x g (fun _ g' => Steady lost g'.symbols) (Allowed low lost)

variable {α β : Type} {g : Grammar} {x : Build α} {f : α → Build β}

theorem holds_throw {e : Error} (named : errorName? (asStreamFault e) = some "SerializationError") :
    Holds low lost (throw e : Build α) g := Allowed.told named

theorem holds_bind (first : Holds low lost x g)
    (second : ∀ a g', Steady lost g'.symbols → Holds low lost (f a) g') : Holds low lost (x >>= f) g :=
  runs_bind first fun a g' _ steady => second a g' steady

theorem holds_get_bind {f : Grammar → Build β} (h : Holds low lost (f g) g) :
    Holds low lost (get >>= f) g := h

theorem holds_modify_bind {change : Grammar → Grammar} {f : Unit → Build β}
    (h : Holds low lost (f ()) (change g)) : Holds low lost (modify change >>= f) g := h

theorem runs_query {look : Grammar → Except Error α} {done : α → Prop}
    (answers : Answers (look g) done (Allowed low lost)) :
    Runs (Grammar.query look) g (fun a g' => g' = g ∧ look g = .ok a ∧ done a) (Allowed low lost) := by
  rw [Runs, Grammar.query]
  cases answer : look g with
  | ok a =>
    rw [answer] at answers
    exact ⟨rfl, rfl, answers⟩
  | error e =>
    rw [answer] at answers
    exact answers

theorem holds_query_bind {look : Grammar → Except Error α} {done : α → Prop}
    (answers : Answers (look g) done (Allowed low lost))
    (rest : ∀ a, look g = .ok a → Holds low lost (f a) g) :
    Holds low lost (Grammar.query look >>= f) g := by
  apply runs_bind (runs_query answers)
  rintro a g' - ⟨rfl, answer, -⟩
  exact rest a answer

theorem holds_forM {as : List α} {f : α → Build Unit}
    (step : ∀ a g, Steady lost g.symbols → Holds low lost (f a) g) (steady : Steady lost g.symbols) :
    Holds low lost (as.forM f) g := by
  induction as generalizing g with
  | nil => exact steady
  | cons a as ih => exact holds_bind (step a g steady) fun _ _ steady => ih steady

theorem runs_onSymbols {f : SymbolTable → Except Error (Symbol × SymbolTable)}
    (answers : Answers (f g.symbols) (fun r => Steady lost r.2 ∧ There lost r.2 r.1) (Allowed low lost)) :
    Runs (Grammar.onSymbols f) g (fun s g' => Steady lost g'.symbols ∧ There lost g'.symbols s)
      (Allowed low lost) := by
  rw [Runs, Grammar.onSymbols]
  cases answer : f g.symbols with
  | ok r =>
    rw [answer] at answers
    exact answers
  | error e =>
    rw [answer] at answers
    exact answers

theorem holds_updateSymbol (steady : Steady lost g.symbols) (there : There lost g.symbols s)
    (id_eq : s'.id = s.id) (named : s'.name = s.name) : Holds low lost (Grammar.updateSymbol s') g :=
  (steady.update there id_eq named).1

theorem answers_symbol (t : SymbolTable) (id : Int) :
    Answers (t.symbol id) (fun _ => True) (Allowed low lost) := by
  rw [SymbolTable.symbol]
  cases t.at? id with
  | some s => exact trivial
  | none => exact .told rfl

theorem answers_nameOf (t : SymbolTable) (id : Int) :
    Answers (t.nameOf id) (fun _ => True) (Allowed low lost) := by
  have answers : Answers (t.symbol id) (fun _ => True) (Allowed low lost) := answers_symbol t id
  rw [SymbolTable.nameOf]
  cases symbol : t.symbol id with
  | ok s => exact trivial
  | error e =>
    rw [symbol] at answers
    exact answers

theorem answers_format (g : Grammar) (p : Production) (dot : Option Int) :
    Answers (g.format p dot) (fun _ => True) (Allowed low lost) :=
  answers_bind (answers_mapM (answers_nameOf g.symbols) _) fun _ _ =>
    answers_bind (answers_nameOf g.symbols _) fun _ _ => trivial

theorem runs_parsePrecedence (p : String × Int) :
    Runs (parsePrecedence p) g (fun _ g' => g' = g) (Allowed low lost) := by
  rw [parsePrecedence]
  split
  · exact runs_pure rfl
  · exact runs_throw (.told rfl)

theorem holds_restoreSymbol (steady : Steady lost g.symbols) {r : SymbolRecord} (below : r.id < -3 → low)
    (negative : r.id < 0 → lost) : Holds low lost (restoreSymbol r) g := by
  rw [restoreSymbol]
  split
  · exact holds_throw rfl
  · refine runs_bind (runs_onSymbols (steady.restore r.name _ below negative)) ?_
    rintro s g' - ⟨steady, there⟩
    simp only
    split
    · exact holds_updateSymbol steady there rfl rfl
    · refine runs_bind (runs_parsePrecedence _) ?_
      rintro p g' - rfl
      exact holds_updateSymbol steady there rfl rfl

theorem holds_restoreLabel (steady : Steady lost g.symbols) (l : String × String × Int) :
    Holds low lost (restoreLabel l) g := by
  refine runs_bind (runs_parsePrecedence _) ?_
  rintro p g' - rfl
  exact steady

theorem holds_register (steady : Steady lost g.symbols) (p : Production) :
    Holds low lost (Grammar.register p) g := by
  have filed : Holds low lost (do
      modify fun g => { g with byNumber := g.byNumber.insert p.number p }
      let s ← Grammar.query (·.symbols.symbol p.left)
      Grammar.updateSymbol { s with productions := s.productions ++ [p.number] }) g := by
    apply holds_modify_bind
    apply holds_query_bind (answers_symbol g.symbols p.left)
    intro s found
    refine holds_updateSymbol steady (steady.there_of_symbol found) rfl rfl
  rw [Grammar.register]
  apply holds_get_bind
  split
  · apply holds_query_bind (answers_format g _ none)
    intro first _
    apply holds_query_bind (answers_format g p none)
    intro second _
    exact holds_throw rfl
  · exact filed

theorem holds_restoreProduction (steady : Steady lost g.symbols) (p : Production) :
    Holds low lost (Grammar.restoreProduction p) g := by
  apply holds_bind (holds_register steady p)
  intro _ g' steady
  exact steady

/-! ## Closing the grammar -/

theorem answers_checkKnown (g : Grammar) (p : Production) :
    Answers (g.checkKnown p) (fun _ => True) (Allowed low lost) := by
  refine answers_forM fun id _ => answers_bind (answers_symbol g.symbols id) fun s _ => ?_
  split
  · exact answers_bind (answers_format g p none) fun _ _ => Allowed.told rfl
  · exact trivial

theorem answers_checkSymbol (s : Symbol) :
    Answers (Grammar.checkSymbol s) (fun _ => True) (Allowed low lost) := by
  rw [Grammar.checkSymbol]
  split
  · exact Allowed.told rfl
  · split
    · exact Allowed.told rfl
    · exact trivial

theorem answers_startSymbol (g : Grammar) (name : String) :
    Answers (g.startSymbol name) (fun _ => True) (Allowed low lost) := by
  rw [Grammar.startSymbol]
  split
  · split
    · exact trivial
    · exact .told rfl
  · exact .told rfl

theorem answers_listProductions (g : Grammar) :
    Answers g.listProductions (fun _ => True) (Allowed low lost) := by
  rw [Grammar.listProductions]
  split
  · exact trivial
  · exact .told rfl

theorem holds_applyLabel (steady : Steady lost g.symbols) (entry : String × Precedence) :
    Holds low lost (Grammar.applyLabel entry) g := by
  rw [Grammar.applyLabel]
  apply holds_get_bind
  split
  · rename_i s found
    split
    · exact holds_updateSymbol steady (steady.there_of_get? found) rfl rfl
    · exact steady
  · exact steady

theorem holds_markStart (steady : Steady lost g.symbols) (s : Symbol) :
    Holds low lost (Grammar.markStart s) g := by
  rw [Grammar.markStart]
  apply holds_get_bind
  split
  · refine runs_bind (runs_onSymbols (steady.resolve _ _)) ?_
    rintro marker g' - ⟨steady, -⟩
    exact holds_register steady _
  · exact steady

theorem holds_closeOver (steady : Steady lost g.symbols) (name : String) :
    Holds low lost (Grammar.closeOver name) g := by
  rw [Grammar.closeOver]
  apply holds_query_bind (answers_forM fun p _ => answers_checkKnown g p)
  intro _ _
  apply holds_query_bind (answers_forM fun s _ => answers_checkSymbol s)
  intro _ _
  apply holds_query_bind (answers_startSymbol g name)
  intro s _
  apply holds_get_bind
  apply holds_bind (holds_forM (fun entry _ steady => holds_applyLabel steady entry) steady)
  intro _ g₁ steady
  apply holds_bind (holds_markStart steady s)
  intro _ g₂ steady
  apply holds_query_bind (answers_listProductions g₂)
  intro productions _
  exact ⟨steady.size, steady.seated.imp_right fun seated => ⟨seated.id_eq, seated.name_inj⟩⟩

theorem holds_close (steady : Steady lost g.symbols) (start : Option String) :
    Holds low lost (Grammar.close start) g := by
  rw [Grammar.close]
  apply holds_get_bind
  split
  · exact steady
  · apply holds_modify_bind
    apply holds_get_bind
    split
    · exact holds_throw rfl
    · exact holds_closeOver (g := { g with start := start <|> g.start }) steady _

theorem holds_complete (steady : Steady lost g.symbols) (start : String) (u : Tables) :
    Holds low lost (complete start u) g := by
  rw [complete]
  apply holds_bind (holds_close steady (some start))
  intro _ g₁ steady
  apply holds_get_bind
  refine holds_query_bind (answers_mapM (fun p => ?_) _) fun lengths _ => steady
  exact answers_bind (answers_mapM (answers_symbol _) _) fun _ _ => trivial

/-! ## Streams -/

/-- A stream is read, or its fault is told, where what is known of its symbols is said of those that can be
read. -/
theorem runs_readTables_steady (stream : List Value)
    (each : ∀ s ∈ symbolsOf stream, (s.id < -3 → low) ∧ (s.id < 0 → lost)) :
    Runs readTables ⟨0, stream, .fresh⟩ (fun _ r => Steady lost r.grammar.symbols) (Allowed low lost) :=
  runs_readTables (fun g => Steady lost g.symbols) (fun _ => .told rfl) (fun _ g => Steady lost g.symbols)
    (steady_fresh lost) each
    (fun _ _ known steady => holds_restoreSymbol steady known.1 known.2)
    (fun l _ steady => holds_restoreLabel steady l)
    (fun p _ steady => holds_restoreProduction steady p)
    (fun start t _ _ steady => holds_complete steady start t)

/-- The slot of `x` is counted from the end of the table, which has grown when the name comes up again. -/
example :
    (match decode [.string "1.0", .string "lalr", .string "S", .int 3,
        .string "x", .int (-2), .int 1, .string "", .null, .int 0,
        .string "y", .int 4, .int 1, .string "", .null, .int 0,
        .string "x", .int (-2), .int 1, .string "", .null, .int 0] with
      | .error .vacantSlot => true
      | _ => false) = true := by decide +kernel

end Storage

end ParserGenerator
