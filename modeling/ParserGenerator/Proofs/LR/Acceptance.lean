import ParserGenerator.Proofs.LR.Independence
import ParserGenerator.Proofs.LR.Refusals

/-!
# What is read of an input that is accepted

The end marker is a terminal by the name of which a token may be called. Such a token ends the input like the end
of the list does: what stands behind it is not looked at, and an input is accepted when all before it was read.
-/

namespace ParserGenerator

/-- The tokens before the first one that is called like the end marker. -/
def inputOf (tokens : List Token) : List Token := tokens.takeWhile (·.kind ≠ endMarkerName)

namespace Parser

open Grammar

variable {p : Parser} {g : Grammar} {marker start : Int} {states : Array State} {q : Nat} {x : Int}
  {below α : List Int} {t : Token} {tokens : List Token} {limit : Nat}

theorem inputOf_cons_of_end (ends : t.kind = endMarkerName) : inputOf (t :: tokens) = [] := by
  simp [inputOf, ends]

theorem inputOf_cons (inside : t.kind ≠ endMarkerName) : inputOf (t :: tokens) = t :: inputOf tokens := by
  simp [inputOf, inside]

theorem isTerminal_endMarker (sound : g.Lawful) : IsTerminal g t endMarkerId ↔ t.kind = endMarkerName := by
  obtain ⟨s, at_s, named⟩ := sound.table.endMarker
  have input : s.isInput = true := by
    obtain ⟨s', at_s', input⟩ := isInput_iff.1 (isInput_endMarker sound)
    rw [at_s] at at_s'
    cases at_s'
    exact input
  rw [isTerminal_iff at_s input, named]

/-- A token of another terminal than the end marker is not called like it. -/
theorem kind_ne_of_isTerminal (sound : g.Lawful) (terminal : IsTerminal g t x) (other : x ≠ endMarkerId) :
    t.kind ≠ endMarkerName := by
  intro ends
  obtain ⟨s, at_s, named, -⟩ := terminal
  obtain ⟨s', at_s', named'⟩ := sound.table.endMarker
  exact other (sound.table.name_inj at_s at_s' (named.trans (ends.trans named'.symm)))

theorem cell_eq_ok {c : Config (List Token)} {a : Action} : p.cell c = .ok a ↔
    ∃ x, p.terminalOf c.lookahead = .ok x ∧ p.tables.action.get? (c.top, x) = some a := by
  constructor
  · intro found
    cases read : p.terminalOf c.lookahead with
    | error e => simp [cell, read, bind, Except.bind] at found
    | ok x => exact ⟨x, rfl, get?_of_cell read found⟩
  · rintro ⟨x, read, found⟩
    exact cell_eq read found

section Runs

variable (sound : g.Lawful) (uses : p.Uses g states)
include sound uses

/-- A token that is called like the end marker is looked at as the end of the input. -/
theorem terminalOf_inputOf (tokens : List Token) :
    p.terminalOf (inputOf tokens).head? = p.terminalOf tokens.head? := by
  cases tokens with
  | nil => rfl
  | cons t ts =>
    by_cases ends : t.kind = endMarkerName
    · rw [inputOf_cons_of_end ends, List.head?_cons,
        terminalOf_of_isTerminal sound.table uses ((isTerminal_endMarker sound).2 ends)]
      rfl
    · rw [inputOf_cons ends]
      rfl

/-- The same cell is found for the whole input. -/
theorem cell_inputOf {a : Action} (q : Nat) (below : List Int) (tokens : List Token) :
    p.cell (config q below (inputOf tokens)) = .ok a ↔ p.cell (config q below tokens) = .ok a := by
  simp only [cell_eq_ok, config, terminalOf_inputOf sound uses tokens]

/-- Where the whole input is refused at once, its beginning is, too. -/
theorem run_inputOf_of_refused {e : Error} (refused : p.cell (config q below tokens) = .error e) (limit : Nat) :
    (p.run TokenSource.list limit (config q below (inputOf tokens))).Alike
      (p.run TokenSource.list limit (config q below tokens)) := by
  cases found : p.cell (config q below (inputOf tokens)) with
  | ok a =>
    rw [(cell_inputOf sound uses q below tokens).1 found] at refused
    cases refused
  | error e' =>
    rw [run_refused refused, run_refused found]
    exact .failed

end Runs

section Whole

variable (settled : g.Settled marker start) (auto : g.Automaton states) (uses : p.Uses g states)
include settled auto uses

/-- What stands behind the end of the input changes nothing but the words of a refusal. -/
theorem run_inputOf (stacked : Stacked states q below α) (tokens : List Token) (limit : Nat) :
    (p.run TokenSource.list limit (config q below (inputOf tokens))).Alike
      (p.run TokenSource.list limit (config q below tokens)) := by
  have sound := settled.toLawful
  have same : ∀ {q : Nat} {below tokens a}, p.cell (config q below tokens) = .ok a →
      p.cell (config q below (inputOf tokens)) = .ok a := (cell_inputOf sound uses _ _ _).2
  induction limit generalizing q below α tokens with
  | zero =>
    cases found : p.cell (config q below tokens) with
    | error e => exact run_inputOf_of_refused sound uses found 0
    | ok a =>
      rw [run_zero found, run_zero (same found)]
      exact .refl _
  | succ limit ih =>
    cases stepFrom settled auto uses stacked tokens with
    | refused refused => exact run_inputOf_of_refused sound uses refused _
    | chained found failed =>
      obtain ⟨e, failed'⟩ := perform_nonassoc sound.table uses (config q below (inputOf tokens)) _
      rw [run_failed found failed, run_failed (same found) failed']
      exact .failed
    | accept found _ _ =>
      rw [run_accepted found rfl, run_accepted (same found) rfl]
      exact .refl _
    | shift eq terminal other found performed stacked' =>
      subst eq
      have inside := kind_ne_of_isTerminal sound terminal other
      rw [run_step found performed, run_step (same found) perform_shift, inputOf_cons inside]
      exact (ih stacked' _).cons _
    | reduce _ _ found performed stacked' =>
      rw [run_step found (performed tokens), run_step (same found) (performed (inputOf tokens))]
      exact (ih stacked' _).cons _

/-- An input is accepted when all of it is read. -/
theorem shifts_of_accepted (stacked : Stacked states q below α) (tokens : List Token) (limit : Nat)
    (accepted : (p.run TokenSource.list limit (config q below tokens)).verdict = .accepted) :
    (p.run TokenSource.list limit (config q below tokens)).shifts = (inputOf tokens).length := by
  induction limit generalizing q below α tokens with
  | zero => exact absurd accepted (not_accepted_zero _)
  | succ limit ih =>
    cases stepFrom settled auto uses stacked tokens with
    | refused refused =>
      rw [run_refused refused] at accepted
      cases accepted
    | chained found failed =>
      rw [run_failed found failed] at accepted
      cases accepted
    | accept found _ ends =>
      rw [run_accepted found rfl]
      cases tokens with
      | nil => rfl
      | cons t ts =>
        rw [inputOf_cons_of_end ((isTerminal_endMarker settled.toLawful).1 (ends t ts rfl))]
        rfl
    | shift eq terminal other found performed stacked' =>
      subst eq
      have inside := kind_ne_of_isTerminal settled.toLawful terminal other
      rw [run_step found performed] at accepted ⊢
      rw [Run.shifts_shift, inputOf_cons inside, List.length_cons, ih stacked' _ accepted]
    | reduce _ _ found performed stacked' =>
      rw [run_step found (performed tokens)] at accepted ⊢
      exact ih stacked' _ accepted

end Whole

end Parser

namespace Grammar

variable {g : Grammar}

/-- With the tables of a closed grammar that was made by calls an input is accepted when all tokens were read that
stand before the first one that is called like the end marker. What stands behind changes nothing but the words of
a refusal. -/
theorem Declared.parse_reads_input (declared : Declared g) (closed : g.closed = true) (m : Method) :
    ∃ t g', buildTables m.name g = .ok t g' ∧
      ∀ (text : List Char) (tokens : List Token) (limit : Nat) (r : Run),
        Parser.parseTokens ⟨t, g'.symbols, text⟩ tokens limit = r →
          (r.verdict = .accepted → r.shifts = (inputOf tokens).length) ∧
          (Parser.parseTokens ⟨t, g'.symbols, text⟩ (inputOf tokens) limit).Alike r := by
  obtain ⟨⟨marker, start, settled⟩, untouched⟩ := declared.complete closed
  obtain ⟨t, f, built, uses, -⟩ := settled.exists_tables untouched m
  refine ⟨t, g.having f, built, ?_⟩
  rintro text tokens limit r rfl
  have settled' := settled.having f
  rw [Parser.parseTokens_eq (uses text), Parser.parseTokens_eq (uses text)]
  constructor
  · exact Parser.shifts_of_accepted settled' settled'.automaton (uses text) .bottom tokens limit
  · exact Parser.run_inputOf settled' settled'.automaton (uses text) .bottom tokens limit

/-- An assignment, and tokens behind one that is called like the end marker. -/
def endedAssignment : List Token :=
  [⟨"id", "a", 1, 1, 0⟩, ⟨"=", "=", 1, 3, 2⟩, ⟨"id", "b", 1, 5, 4⟩, ⟨"EOF", "", 1, 6, 5⟩, ⟨"=", "=", 1, 7, 6⟩]

theorem reach_endedAssignment : pointers.reach .lalr endedAssignment 12 = some (0, 3, .accepted) := by
  decide +kernel

theorem parse_reads_endedAssignment :
    ∃ t g', buildTables Method.lalr.name pointers = .ok t g' ∧
      (Parser.parseTokens ⟨t, g'.symbols, []⟩ endedAssignment 12).verdict = .accepted ∧
      (Parser.parseTokens ⟨t, g'.symbols, []⟩ endedAssignment 12).shifts = (inputOf endedAssignment).length ∧
      inputOf endedAssignment = endedAssignment.take 3 := by
  obtain ⟨t, g', built, reads⟩ := declared_pointers.parse_reads_input closed_pointers .lalr
  have tried := reach_endedAssignment
  simp only [reach_eq built, Option.some.injEq, Prod.mk.injEq] at tried
  obtain ⟨-, -, accepted⟩ := tried
  obtain ⟨whole, -⟩ := reads [] endedAssignment 12 _ rfl
  exact ⟨t, g', built, accepted, whole accepted, by decide⟩

/-- It is not so that every token was read of an input that is accepted. -/
theorem accepted_unread : ¬ ∀ g, Declared g → g.closed = true → ∀ (m : Method) (t : Tables) (g' : Grammar),
    buildTables m.name g = .ok t g' → ∀ (text : List Char) (tokens : List Token) (limit : Nat),
      (Parser.parseTokens ⟨t, g'.symbols, text⟩ tokens limit).verdict = .accepted →
        (Parser.parseTokens ⟨t, g'.symbols, text⟩ tokens limit).shifts = tokens.length := by
  intro all
  obtain ⟨⟨marker, start, settled⟩, untouched⟩ := declared_pointers.complete closed_pointers
  obtain ⟨t, f, built, -⟩ := settled.exists_tables untouched .lalr
  have tried := reach_endedAssignment
  simp only [reach_eq built, Option.some.injEq, Prod.mk.injEq] at tried
  obtain ⟨-, shifts, accepted⟩ := tried
  have read := all pointers declared_pointers closed_pointers .lalr t _ built [] endedAssignment 12 accepted
  rw [shifts] at read
  exact absurd read (by decide)

end Grammar

end ParserGenerator
