import ParserGenerator.LR.Parser
import ParserGenerator.Proofs.Collection.Attempt

/-!
# How runs fail

A run fails where it looks for a cell, or in the step that a cell asks for. What is wrong then is told by the
cell and the lookahead, comes from the source of the tokens, or lies in tables that do not fit together.
-/

namespace ParserGenerator

open Attempt (Answers answers_bind answers_mapM)

/-- Tables do not fit together, or they do not fit the symbols. -/
inductive Error.IsMisfit : Error → Prop
  | outOfRange : IsMisfit .outOfRange
  | table (e : TableError) : IsMisfit (.table e)
  | missing (key : Key) : IsMisfit (.missing key)

namespace Parser

variable {σ : Type} {p : Parser} {next : TokenSource σ} {c : Config σ} {a : Action} {e : Error} {limit : Nat}

theorem answers_symbol (t : SymbolTable) (id : Int) : Answers (t.symbol id) (fun _ => True) Error.IsMisfit := by
  rw [SymbolTable.symbol]
  cases t.at? id with
  | some s => exact trivial
  | none => exact .missing _

theorem answers_nameOf (t : SymbolTable) (id : Int) : Answers (t.nameOf id) (fun _ => True) Error.IsMisfit := by
  have answers := answers_symbol t id
  rw [SymbolTable.nameOf]
  cases symbol : t.symbol id with
  | ok s => exact trivial
  | error e =>
    rw [symbol] at answers
    exact answers

theorem answers_entry (xs : List Int) (number : Int) :
    Answers (entry xs number) (fun _ => True) Error.IsMisfit := by
  unfold entry
  dsimp only
  split
  · exact trivial
  · exact .outOfRange

theorem answers_expected (state : Int) : Answers (p.expected state) (fun _ => True) Error.IsMisfit := by
  have names := answers_mapM (f := fun k : (Int × Int) × Action => p.symbols.nameOf k.1.2)
    (fun k => answers_nameOf p.symbols k.1.2)
  exact answers_bind (names _) fun _ _ => trivial

/-- A reduction leaves the lookahead and the source as they are. -/
theorem answers_reduce (number : Int) : Answers (p.reduce c number)
    (fun c' => c'.lookahead = c.lookahead ∧ c'.source = c.source) Error.IsMisfit := by
  refine answers_bind (answers_entry _ _) fun length _ => answers_bind (answers_entry _ _) fun left _ => ?_
  dsimp only
  split
  · exact .table _
  · split
    · exact .table _
    · split
      · exact ⟨rfl, rfl⟩
      · exact answers_bind (answers_nameOf p.symbols _) fun _ _ => .table _

/-! ## Cells -/

/-- How the look-up of a cell fails: for a lookahead of an unknown kind, or for want of a cell. -/
inductive Uncelled (p : Parser) : Option Token → Error → Prop
  | misfit {look : Option Token} {e : Error} : e.IsMisfit → Uncelled p look e
  | unknown {t : Token} : (∀ x, p.terminalOf (some t) ≠ .ok x) → Uncelled p (some t) (p.unknownToken t)
  | unexpected (t : Token) (names : List String) :
      Uncelled p (some t) (.source (.refused t.kind t.line t.column names (p.ending (some t))))
  | unexpectedEnd (names : List String) : Uncelled p none (.source (.refusedAtEnd names (p.ending none)))

theorem uncelled_of_terminalOf {look : Option Token} (failed : p.terminalOf look = .error e) :
    p.Uncelled look e := by
  cases look with
  | none => cases failed
  | some t =>
    have unread : ∀ x, p.terminalOf (some t) ≠ .ok x := fun x read => by
      rw [failed] at read
      cases read
    rw [terminalOf] at failed
    cases found : p.symbols.get? t.kind with
    | none =>
      rw [found] at failed
      cases failed
      exact .unknown unread
    | some s =>
      rw [found] at failed
      have known := answers_symbol p.symbols s.id
      dsimp only [bind, Except.bind] at failed
      cases at_id : p.symbols.symbol s.id with
      | error e' =>
        rw [at_id] at failed known
        cases failed
        exact .misfit known
      | ok s' =>
        rw [at_id] at failed
        dsimp only at failed
        split at failed
        · cases failed
        · cases failed
          exact .unknown unread

theorem uncelled_of_cell (failed : p.cell c = .error e) : p.Uncelled c.lookahead e := by
  rw [cell] at failed
  cases read : p.terminalOf c.lookahead with
  | error e' =>
    rw [read] at failed
    cases failed
    exact uncelled_of_terminalOf read
  | ok x =>
    simp only [read, bind, Except.bind] at failed
    split at failed
    · cases failed
    · have expects : Answers (p.expected c.top) (fun _ => True) Error.IsMisfit := answers_expected c.top
      cases expected : p.expected c.top with
      | error e' =>
        rw [expected] at failed expects
        cases failed
        exact .misfit expects
      | ok names =>
        rw [expected] at failed
        cases look : c.lookahead with
        | none =>
          rw [look] at failed
          cases failed
          exact .unexpectedEnd names
        | some t =>
          rw [look] at failed
          cases failed
          exact .unexpected t names

/-! ## Steps -/

/-- How a step fails: no token can be read behind a shift, or the cell refuses what is looked at. -/
inductive Undone (p : Parser) (next : TokenSource σ) (c : Config σ) : Action → Error → Prop
  | misfit {a : Action} {e : Error} : e.IsMisfit → Undone p next c a e
  | source {n : Int} {e : Error} : next c.source = .error e → Undone p next c ⟨.shift, n⟩ e
  | chained {n : Int} {t : Token} : c.lookahead = some t → Undone p next c ⟨.nonassoc, n⟩
      (.source (.chained t.kind (some (t.line, t.column)) (p.ending (some t))))
  | chainedEnd {n : Int} {name : String} : c.lookahead = none → p.symbols.nameOf endMarkerId = .ok name →
      Undone p next c ⟨.nonassoc, n⟩ (.source (.chained name none (p.ending none)))

theorem undone_of_perform (failed : p.perform next c a = .error e) : p.Undone next c a e := by
  obtain ⟨kind, n⟩ := a
  rw [perform] at failed
  cases kind with
  | shift =>
    cases read : next c.source with
    | error e' =>
      simp only [advance, read, bind, Except.bind] at failed
      cases failed
      exact .source read
    | ok r =>
      simp only [advance, read, bind, Except.bind] at failed
      rcases r with _ | ⟨t, rest⟩ <;> cases failed
  | reduce =>
    have reduces : Answers (p.reduce c n)
      (fun c' => c'.lookahead = c.lookahead ∧ c'.source = c.source) Error.IsMisfit := answers_reduce n
    dsimp only at failed
    cases reduced : p.reduce c n with
    | error e' =>
      rw [reduced] at failed reduces
      cases failed
      exact .misfit reduces
    | ok c' =>
      rw [reduced] at failed
      cases failed
  | accept => cases failed
  | nonassoc =>
    cases look : c.lookahead with
    | none =>
      have names := answers_nameOf p.symbols endMarkerId
      simp only [look] at failed
      cases named : p.symbols.nameOf endMarkerId with
      | error e' =>
        rw [named] at failed names
        cases failed
        exact .misfit names
      | ok name =>
        rw [named] at failed
        cases failed
        exact .chainedEnd look named
    | some t =>
      simp only [look] at failed
      cases failed
      exact .chained look
  | other kind =>
    cases failed
    exact .misfit (.table _)

/-! ## Runs -/

/-- Where a run fails, what is kept from step to step still holds. In a step that fails the run ends with it. -/
theorem run_failure (kept : Config σ → Prop)
    (step : ∀ {c a c'}, kept c → p.perform next c a = .ok (some c') → kept c') (start : kept c)
    (failed : (p.run next limit c).verdict = .failed e) : ∃ c', kept c' ∧ (p.cell c' = .error e ∨
      ∃ a, p.cell c' = .ok a ∧ p.perform next c' a = .error e ∧
        (p.run next limit c).steps.getLast? = some ⟨a, c'.top⟩) := by
  induction limit generalizing c with
  | zero =>
    rw [run] at failed
    split at failed
    · rename_i refused
      cases failed
      exact ⟨c, start, .inl refused⟩
    · cases failed
  | succ limit ih =>
    rw [run] at failed ⊢
    split at failed
    · rename_i refused
      cases failed
      exact ⟨c, start, .inl refused⟩
    · rename_i a found
      dsimp only at failed ⊢
      split at failed
      · rename_i undone
        cases failed
        exact ⟨c, start, .inr ⟨a, found, undone, rfl⟩⟩
      · cases failed
      · rename_i c' performed
        obtain ⟨c₁, kept₁, refused | ⟨a₁, found₁, undone, last⟩⟩ := ih (step start performed) failed
        · exact ⟨c₁, kept₁, .inl refused⟩
        · refine ⟨c₁, kept₁, .inr ⟨a₁, found₁, undone, ?_⟩⟩
          rw [List.getLast?_cons, last]
          rfl

end Parser

end ParserGenerator
