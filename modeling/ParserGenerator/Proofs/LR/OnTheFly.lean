import ParserGenerator.Proofs.LR.Bookkeeping
import ParserGenerator.Proofs.LR.Refusals
import ParserGenerator.Proofs.Lexer.Tokenised

/-!
# Parsing on the fly

A parser that takes its tokens from a lexer one by one makes the same steps as on the list of them all. If
the lexer gets stuck, the parser does so too, unless it refuses one of the tokens before that, or reduces
without end.
-/

namespace ParserGenerator

open Attempt (Parallel parallel_self)

/-- The tokens of a list, and a failure behind them, if there is one. -/
def TokenSource.listThen (failure : Option Error) : TokenSource (List Token)
  | [] => failure.elim (.ok none) .error
  | t :: ts => .ok (some (t, ts))

theorem TokenSource.listThen_none : TokenSource.listThen none = TokenSource.list := by
  funext ts
  cases ts <;> rfl

variable {σ τ : Type} {R : σ → τ → Prop}

/-! ## Two sources -/

/-- The same token comes from both, with related sources behind it. -/
def Pulled (R : σ → τ → Prop) (a : Token × σ) (b : Token × τ) : Prop := a.1 = b.1 ∧ R a.2 b.2

/-- Related sources give the same tokens, end together and fail alike. -/
def TokenSource.Alike (R : σ → τ → Prop) (next : TokenSource σ) (next' : TokenSource τ) : Prop :=
  ∀ s s', R s s' → Parallel (Option.Rel (Pulled R)) (next s) (next' s')

/-- The configurations differ in their sources only, and these are related. -/
structure Config.Alike (R : σ → τ → Prop) (c : Config σ) (c' : Config τ) : Prop where
  top : c.top = c'.top
  below : c.below = c'.below
  lookahead : c.lookahead = c'.lookahead
  source : R c.source c'.source

namespace Parser

variable {p : Parser} {next : TokenSource σ} {next' : TokenSource τ} {c : Config σ} {c' : Config τ}

theorem cell_eq_of_alike (alike : c.Alike R c') : p.cell c = p.cell c' := by
  rw [cell, cell, alike.top, alike.lookahead]

theorem parallel_advance (sources : next.Alike R next') (alike : c.Alike R c') (state : Int) :
    Parallel (Config.Alike R) (advance next c state) (advance next' c' state) := by
  refine (sources _ _ alike.source).bind fun a b pulled => ?_
  have below : c.top :: c.below = c'.top :: c'.below := by rw [alike.top, alike.below]
  cases pulled with
  | none => exact .ok ⟨rfl, below, rfl, alike.source⟩
  | some pulled => exact .ok ⟨rfl, below, congrArg some pulled.1, pulled.2⟩

theorem parallel_reduce (alike : c.Alike R c') (number : Int) :
    Parallel (Config.Alike R) (p.reduce c number) (p.reduce c' number) := by
  refine (parallel_self _).bind ?_
  rintro length _ rfl
  refine (parallel_self _).bind ?_
  rintro left _ rfl
  rw [alike.top, alike.below]
  dsimp only
  split
  · exact .error _
  · split
    · exact .error _
    · split
      · exact .ok ⟨rfl, rfl, alike.lookahead, alike.source⟩
      · refine (parallel_self _).bind ?_
        rintro name _ rfl
        exact .error _

theorem parallel_perform (sources : next.Alike R next') (alike : c.Alike R c') (a : Action) :
    Parallel (Option.Rel (Config.Alike R)) (p.perform next c a) (p.perform next' c' a) := by
  have some_of {x : Except Error (Config σ)} {y : Except Error (Config τ)}
      (h : Parallel (Config.Alike R) x y) : Parallel (Option.Rel (Config.Alike R)) (some <$> x) (some <$> y) := by
    cases h with
    | ok related => exact .ok (.some related)
    | error e => exact .error e
  rw [perform, perform]
  cases a.kind with
  | shift => exact some_of (parallel_advance sources alike _)
  | reduce => exact some_of (parallel_reduce alike _)
  | accept => exact .ok .none
  | nonassoc =>
    dsimp only
    rw [alike.lookahead]
    cases c'.lookahead with
    | none =>
      refine (parallel_self _).bind ?_
      rintro name _ rfl
      exact .error _
    | some t => exact .error _
  | other kind => exact .error _

/-- From configurations that differ in their sources only the runs are the same. -/
theorem run_eq_of_alike (sources : next.Alike R next') (alike : c.Alike R c') (limit : Nat) :
    p.run next limit c = p.run next' limit c' := by
  induction limit generalizing c c' with
  | zero =>
    rw [run, run, cell_eq_of_alike alike]
  | succ limit ih =>
    rw [run, run, cell_eq_of_alike alike, alike.top]
    cases p.cell c' with
    | error e => rfl
    | ok a =>
      have performed := parallel_perform (p := p) sources alike a
      dsimp only
      generalize p.perform next c a = result at performed
      generalize p.perform next' c' a = result' at performed
      cases performed with
      | error e => rfl
      | ok related =>
        cases related with
        | none => rfl
        | some alike => simp only [ih alike]

theorem parse_eq_of_alike (sources : next.Alike R next') {s : σ} {s' : τ} (related : R s s') (limit : Nat) :
    p.parse next s limit = p.parse next' s' limit := by
  have initial : Parallel (Config.Alike R) (p.initial next s) (p.initial next' s') := by
    refine (sources _ _ related).bind fun a b pulled => ?_
    cases pulled with
    | none => exact .ok ⟨rfl, rfl, rfl, related⟩
    | some pulled => exact .ok ⟨rfl, rfl, congrArg some pulled.1, pulled.2⟩
  rw [parse, parse]
  generalize p.initial next s = result at initial
  generalize p.initial next' s' = result' at initial
  cases initial with
  | error e => rfl
  | ok alike => exact run_eq_of_alike sources alike limit

end Parser

/-! ## Tokens from a lexer -/

namespace Lexicon

/-- A lexer gives the tokens of a run, and behind them its failure. -/
theorem alike_lexer (x : Lexicon) (text : List Char) (e : Nat) : TokenSource.lexer.Alike
    (fun l ts => x.Yields l text ts e) (TokenSource.listThen (failureAt text e)) := by
  intro l ts yields
  have peeked := yields.peek
  rw [TokenSource.lexer, next_eq]
  generalize Lexer.peek l = result at peeked
  cases peeked with
  | token _ behind => exact .ok (.some ⟨rfl, behind⟩)
  | ended ends _ _ =>
    rw [TokenSource.listThen, ends]
    exact .ok .none
  | failed failure _ =>
    rw [TokenSource.listThen, failure]
    exact .error _

/-- Whatever a lexer was used for before, a parser that takes the tokens of its text from there sees those of
the run through the text. -/
theorem Run.parseText_eq {x : Lexicon} {p : Parser} {ts : List Token} {e : Nat} (run : x.Run p.text 0 ts e)
    (used : List Lexer.Call) (limit : Nat) : p.parseText (used.foldl Lexer.after x.lexer) limit =
      p.parse (TokenSource.listThen (failureAt p.text e)) ts limit := by
  obtain ⟨_, _, stands⟩ := x.stands_foldl_after used
  exact Parser.parse_eq_of_alike (x.alike_lexer p.text e) ((stands.reset p.text).yields run rfl) limit

end Lexicon

/-! ## Tokens with a failure behind them -/

namespace Parser

open Grammar

variable {p : Parser} {g : Grammar} {states : Array State} {q : Nat} {below α : List Int} {ts : List Token}
  {failure : Error}

/-- How a run can end in front of a failure: it is not over, it has come to the failure, or it refuses one of
the tokens. -/
inductive EndsBefore (failure : Error) (ts : List Token) : Verdict → Prop
  | running : EndsBefore failure ts .outOfSteps
  | failed : EndsBefore failure ts (.failed failure)
  | refused {t : Token} {e : SourceError} : t ∈ ts → e.Refuses (some t) → EndsBefore failure ts (.failed (.source e))

theorem EndsBefore.cons {v : Verdict} (h : EndsBefore failure ts v) (t : Token) : EndsBefore failure (t :: ts) v := by
  cases h with
  | running => exact .running
  | failed => exact .failed
  | refused mem refuses => exact .refused (List.mem_cons_of_mem t mem) refuses

/-- With a token in sight that is not called like the end marker a run does not accept, and it goes on as long
as there are tokens. -/
theorem run_endsBefore (coherent : g.Coherent) (rooted : g.Rooted states) (uses : p.Uses g states)
    (stacked : Stacked states q below α) (t : Token) (ts : List Token)
    (kinds : ∀ u ∈ t :: ts, u.kind ≠ endMarkerName) (failure : Error) (limit : Nat) :
    EndsBefore failure (t :: ts)
      (p.run (TokenSource.listThen (some failure)) limit (config q below (t :: ts))).verdict := by
  have table := coherent.table
  have here : t ∈ t :: ts := List.mem_cons_self
  induction limit generalizing q below α t ts with
  | zero =>
    rcases cell_cases table uses (config q below (t :: ts)) with ⟨e, refused⟩ | ⟨x, a, found, -⟩
    · rw [run_refused refused]
      exact .refused here (refuses_of_cell refused)
    · rw [run_zero found]
      exact .running
  | succ limit ih =>
    rcases cell_cases table uses (config q below (t :: ts)) with ⟨e, refused⟩ | ⟨x, a, found, cell, read⟩
    · rw [run_refused refused]
      exact .refused here (refuses_of_cell refused)
    obtain ⟨q', same, -, permits⟩ := uses.tables.permits cell
    obtain rfl : q = q' := Int.ofNat.inj same
    cases permits with
    | shift step =>
      cases ts with
      | nil =>
        rw [run_failed found rfl]
        exact .failed
      | cons u us =>
        rw [run_step found rfl]
        exact (ih (stacked.push step) u us (List.forall_mem_cons.1 kinds).2 List.mem_cons_self).cons t
    | reduce hp ne holds =>
      obtain ⟨r, below', α', -, stacked', reduced⟩ := exists_reduce rooted uses stacked hp ne holds
      have performed : p.perform (TokenSource.listThen (some failure)) (config q below (t :: ts)) ⟨.reduce, _⟩ =
          .ok (some (config r below' (t :: ts))) := congrArg (some <$> ·) (reduced _ _)
      rw [run_step found performed]
      exact ih stacked' t ts kinds here
    | nonassoc hp ne holds =>
      obtain ⟨e, failed⟩ := perform_nonassoc table uses (config q below (t :: ts)) _
      rw [run_failed found failed]
      exact .refused here (refuses_of_perform failed)
    | accept ended _ =>
      -- The cell is for the end marker, which the token is not.
      rcases read with ⟨look, -⟩ | ⟨u, look, s, at_s, named, -⟩
      · cases look
      · cases look
        obtain ⟨marker, at_marker, name⟩ := table.endMarker
        obtain rfl : x = endMarkerId := ended
        cases at_marker.symm.trans at_s
        exact absurd (named.symm.trans name) (kinds t here)

theorem parse_endsBefore (coherent : g.Coherent) (rooted : g.Rooted states) (uses : p.Uses g states)
    (ts : List Token) (kinds : ∀ u ∈ ts, u.kind ≠ endMarkerName) (failure : Error) (limit : Nat) :
    EndsBefore failure ts (p.parse (TokenSource.listThen (some failure)) ts limit).verdict := by
  cases ts with
  | nil => exact .failed
  | cons t ts =>
    have started : p.initial (TokenSource.listThen (some failure)) (t :: ts) = .ok (config 0 [] (t :: ts)) :=
      congrArg (fun top => Except.ok (⟨top, [], _, _⟩ : Config _)) uses.tables.start
    rw [parse, started]
    exact run_endsBefore coherent rooted uses .bottom t ts kinds failure limit

end Parser

namespace Grammar

/-- Parsing on the fly agrees with tokenising first, whatever the lexer was used for before either of them. If
the text has tokens, each bound on the steps gives the same run with the same end. If it has none, the lexer is
stuck somewhere. Then a parse on the fly never accepts, and if it ends, it fails like the lexer or refuses a
token that lies before that place. -/
theorem Made.parseText_eq_parseTokens {g g' : Grammar} {method : String} {t : Tables} (made : Made g)
    (closed : g.closed = true) (built : buildTables method g = .ok t g') (x : Lexicon)
    (unnamed : endMarkerName ∉ x.rules.map Prod.fst) (used used' : List Lexer.Call) (text : List Char) :
    (∀ ts l, Lexer.tokens text (used.foldl Lexer.after x.lexer) = .ok ts l → ∀ limit,
      Parser.parseText ⟨t, g'.symbols, text⟩ (used'.foldl Lexer.after x.lexer) limit =
        Parser.parseTokens ⟨t, g'.symbols, text⟩ ts limit) ∧
    ∀ error l, Lexer.tokens text (used.foldl Lexer.after x.lexer) = .error error l →
      ∃ stuck, x.Stuck text error stuck ∧ ∀ limit verdict,
        (Parser.parseText ⟨t, g'.symbols, text⟩ (used'.foldl Lexer.after x.lexer) limit).verdict = verdict →
          verdict = .outOfSteps ∨ verdict = .failed error ∨
            ∃ place token refusal, x.Reaches text place ∧ x.IsToken text place token ∧
              place + token.text.length ≤ stuck ∧ SourceError.Refuses refusal (some token) ∧
              verdict = .failed (.source refusal) := by
  obtain ⟨coherent, tabled⟩ := made.tabled closed built
  have uses : Parser.Uses ⟨t, g'.symbols, text⟩ g' g'.explore := ⟨tabled, rfl⟩
  obtain ⟨_, _, stands⟩ := x.stands_foldl_after used
  obtain ⟨ts, e, run, yields⟩ := stands.exists_yields text
  obtain ⟨l, -, -, tokens⟩ := yields.tokens run
  have parsed := Lexicon.Run.parseText_eq (p := ⟨t, g'.symbols, text⟩) run used'
  rw [tokens]
  cases failure : Lexicon.failureAt text e with
  | none =>
    rw [failure, TokenSource.listThen_none] at parsed
    refine ⟨fun ts' l' same => ?_, nofun⟩
    cases same
    exact parsed
  | some error =>
    rw [failure] at parsed
    refine ⟨nofun, fun error' l' same => ?_⟩
    cases same
    refine ⟨e, run.stuck failure, ?_⟩
    rintro limit _ rfl
    rw [parsed]
    have kinds : ∀ u ∈ ts, u.kind ≠ endMarkerName := fun u mem same => unnamed (same ▸ run.kinds u mem)
    have ends := Parser.parse_endsBefore coherent coherent.rooted uses ts kinds error limit
    generalize (Parser.parse _ _ ts limit).verdict = verdict at ends
    cases ends with
    | running => exact .inl rfl
    | failed => exact .inr (.inl rfl)
    | refused mem refuses =>
      obtain ⟨place, reached, token, before⟩ := run.isToken .start mem
      exact .inr (.inr ⟨place, _, _, reached, token, before, refuses, rfl⟩)

/-- The tokens of assignments between places that pointers lead to, with blanks between them. -/
def pointerLexicon : Lexicon :=
  ⟨.unicode, [("id", .literal "p"), ("=", .literal "="), ("*", .literal "*")], [.literal " "]⟩

def dereferencing : List Token :=
  [⟨"id", "p", 1, 1, 0⟩, ⟨"=", "=", 1, 3, 2⟩, ⟨"*", "*", 1, 5, 4⟩, ⟨"id", "p", 1, 6, 5⟩]

/-- An assignment is accepted either way; with a character that no rule knows it is never accepted. -/
theorem parseText_pointers : ∃ t g', buildTables "lalr" pointers = .ok t g' ∧
    (∃ l, Lexer.tokens "p = *p".toList pointerLexicon.lexer = .ok dereferencing l ∧
      Parser.parseText ⟨t, g'.symbols, "p = *p".toList⟩ pointerLexicon.lexer 12 =
        Parser.parseTokens ⟨t, g'.symbols, "p = *p".toList⟩ dereferencing 12 ∧
      (Parser.parseTokens ⟨t, g'.symbols, "p = *p".toList⟩ dereferencing 12).verdict = .accepted) ∧
    ∃ error l, Lexer.tokens "p = ?".toList pointerLexicon.lexer = .error error l ∧
      (∃ stuck, pointerLexicon.Stuck "p = ?".toList error stuck) ∧ ∀ limit,
        (Parser.parseText ⟨t, g'.symbols, "p = ?".toList⟩ pointerLexicon.lexer limit).verdict ≠ .accepted := by
  have accepts : Build.Ends (buildTables "lalr") pointers (fun t g' =>
      (Parser.parseTokens ⟨t, g'.symbols, "p = *p".toList⟩ dereferencing 12).verdict = .accepted)
      fun _ => False := by
    decide +kernel
  obtain ⟨t, g', built, accepted⟩ := Build.Ends.exists_ok accepts
  have unnamed : endMarkerName ∉ pointerLexicon.rules.map Prod.fst := by decide
  have agree := declared_pointers.made.parseText_eq_parseTokens closed_pointers built pointerLexicon unnamed [] []
  have tokens : (Lexer.tokens "p = *p".toList).run' pointerLexicon.lexer = some dereferencing := by cbv
  have refused : (Lexer.tokens "p = ?".toList).run' pointerLexicon.lexer = none := by cbv
  rw [EStateM.run', EStateM.run] at tokens refused
  refine ⟨t, g', built, ?_, ?_⟩
  · split at tokens
    · rename_i ts l cut
      cases tokens
      exact ⟨l, cut, (agree _).1 _ l cut 12, accepted⟩
    · cases tokens
  · split at refused
    · cases refused
    · rename_i error l failed
      obtain ⟨place, stuck, ends⟩ := (agree _).2 error l failed
      refine ⟨error, l, failed, ⟨place, stuck⟩, fun limit accepted => ?_⟩
      rcases ends limit _ accepted with running | same | ⟨_, _, _, -, -, -, -, same⟩
      · cases running
      · cases same
      · cases same

end Grammar

end ParserGenerator
