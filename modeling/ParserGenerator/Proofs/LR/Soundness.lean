import ParserGenerator.Proofs.LR.Steps

/-!
# Runs are safe and sound

With freshly built tables a run goes on, accepts or refuses its input; it never finds that the tables do
not fit together. When it accepts, its reductions read backwards are a rightmost derivation of the input.
-/

namespace ParserGenerator

open Grammar

/-- The numbers of the productions by which a run reduces. -/
def Run.reductions (r : Run) : List Int :=
  r.steps.filterMap fun s => if s.action.kind = .reduce then some s.action.argument else none

/-- The terminals are named by the kinds of the tokens. -/
def Grammar.Spells (g : Grammar) (tokens : List Token) (w : List Int) : Prop :=
  List.Forall₂ (Parser.IsTerminal g) tokens w

instance (g : Grammar) (tokens : List Token) (w : List Int) : Decidable (g.Spells tokens w) :=
  inferInstanceAs (Decidable (List.Forall₂ (Parser.IsTerminal g) tokens w))

theorem Grammar.Spells.terminals {g : Grammar} {tokens : List Token} {w : List Int}
    (h : g.Spells tokens w) : g.Terminals w := by
  intro x mem
  obtain ⟨i, at_x⟩ := List.mem_iff_getElem?.1 mem
  obtain ⟨t, -, s, at_s, -, input⟩ := (Attempt.related_getElem? h).2 x at_x
  exact isInput_iff.2 ⟨s, at_s, input⟩

namespace Parser

variable {p : Parser} {g : Grammar} {marker start : Int} {states : Array State} {q : Nat}
  {a : Action} {below α w : List Int} {tokens : List Token} {e : Error} {limit : Nat}

/-! ## Equations of runs -/

section Equations

variable {σ : Type} {next : TokenSource σ} {c c' : Config σ}

theorem run_refused (refused : p.cell c = .error e) (limit : Nat) :
    p.run next limit c = ⟨[], .failed e⟩ := by
  rw [run, refused]

theorem run_zero (found : p.cell c = .ok a) :
    p.run next 0 c = ⟨[], .outOfSteps⟩ := by
  rw [run, found]

/-- Without a step no run accepts. -/
theorem not_accepted_zero (c : Config σ) : (p.run next 0 c).verdict ≠ .accepted := by
  cases found : p.cell c with
  | error e =>
    rw [run_refused found]
    exact nofun
  | ok a =>
    rw [run_zero found]
    exact nofun

theorem run_failed (found : p.cell c = .ok a)
    (failed : p.perform next c a = .error e) :
    p.run next (limit + 1) c = ⟨[⟨a, c.top⟩], .failed e⟩ := by
  rw [run, found]
  simp only [failed]

theorem run_accepted (found : p.cell c = .ok a)
    (accepted : p.perform next c a = .ok none) :
    p.run next (limit + 1) c = ⟨[⟨a, c.top⟩], .accepted⟩ := by
  rw [run, found]
  simp only [accepted]

theorem run_step (found : p.cell c = .ok a)
    (performed : p.perform next c a = .ok (some c')) :
    p.run next (limit + 1) c = ⟨⟨a, c.top⟩ :: (p.run next limit c').steps,
      (p.run next limit c').verdict⟩ := by
  rw [run, found]
  simp only [performed]

/-- A bound that is larger makes no difference to a run that accepts. -/
theorem run_of_accepted {limit' : Nat} (accepted : (p.run next limit c).verdict = .accepted)
    (enough : limit ≤ limit') : p.run next limit' c = p.run next limit c := by
  induction limit generalizing c limit' with
  | zero => exact absurd accepted (not_accepted_zero c)
  | succ limit ih =>
    obtain ⟨limit', rfl⟩ := Nat.exists_eq_add_of_le' (Nat.le_of_add_left_le enough)
    cases found : p.cell c with
    | error e => rw [run_refused found, run_refused found]
    | ok a =>
      cases performed : p.perform next c a with
      | error e => rw [run_failed found performed, run_failed found performed]
      | ok after =>
        cases after with
        | none => rw [run_accepted found performed, run_accepted found performed]
        | some c' =>
          rw [run_step found performed] at accepted
          rw [run_step found performed, run_step found performed, ih accepted (by omega)]

end Equations

variable {c c' : Config (List Token)}

/-- So many steps, with the given reductions, lead from one configuration to the other. -/
def Leads (p : Parser) (k : Nat) (ns : List Int) (c c' : Config (List Token)) : Prop :=
  ∀ limit,
    (p.run TokenSource.list (limit + k) c).verdict = (p.run TokenSource.list limit c').verdict ∧
      (p.run TokenSource.list (limit + k) c).reductions =
        ns ++ (p.run TokenSource.list limit c').reductions

theorem Leads.of_shift {n : Int} (found : p.cell c = .ok ⟨.shift, n⟩)
    (performed : p.perform TokenSource.list c ⟨.shift, n⟩ = .ok (some c')) : p.Leads 1 [] c c' := by
  intro limit
  rw [run_step found performed]
  exact ⟨rfl, rfl⟩

theorem Leads.of_reduce {n : Int} (found : p.cell c = .ok ⟨.reduce, n⟩)
    (performed : p.perform TokenSource.list c ⟨.reduce, n⟩ = .ok (some c')) : p.Leads 1 [n] c c' := by
  intro limit
  rw [run_step found performed]
  exact ⟨rfl, rfl⟩

theorem Leads.trans {k l : Nat} {ns ms : List Int} {c'' : Config (List Token)}
    (h : p.Leads k ns c c') (h' : p.Leads l ms c' c'') : p.Leads (l + k) (ns ++ ms) c c'' := by
  intro limit
  obtain ⟨verdict, reductions⟩ := h (limit + l)
  obtain ⟨verdict', reductions'⟩ := h' limit
  rw [← Nat.add_assoc, verdict, reductions, reductions', List.append_assoc]
  exact ⟨verdict', rfl⟩

theorem parseTokens_eq (uses : p.Uses g states) (tokens : List Token) (limit : Nat) :
    p.parseTokens tokens limit = p.run TokenSource.list limit (config 0 [] tokens) := by
  rw [parseTokens, parse, initial_eq uses]

section Runs

variable (settled : g.Settled marker start) (auto : g.Automaton states) (uses : p.Uses g states)
include settled auto uses

theorem run_safe (stacked : Stacked states q below α) (tokens : List Token) (limit : Nat) :
    (p.run TokenSource.list limit (config q below tokens)).verdict = .accepted ∨
      (p.run TokenSource.list limit (config q below tokens)).verdict = .outOfSteps ∨
      ∃ e, (p.run TokenSource.list limit (config q below tokens)).verdict = .failed (.source e) := by
  induction limit generalizing q below α tokens with
  | zero =>
    rcases cell_cases settled.table uses (config q below tokens) with ⟨e, refused⟩ | ⟨x, a, found, -⟩
    · rw [run_refused refused]
      exact .inr (.inr ⟨e, rfl⟩)
    · rw [run_zero found]
      exact .inr (.inl rfl)
  | succ limit ih =>
    cases stepFrom settled auto uses stacked tokens with
    | refused refused =>
      rw [run_refused refused]
      exact .inr (.inr ⟨_, rfl⟩)
    | chained found failed =>
      rw [run_failed found failed]
      exact .inr (.inr ⟨_, rfl⟩)
    | shift _ _ _ found performed stacked' =>
      rw [run_step found performed]
      exact ih stacked' _
    | reduce _ _ found performed stacked' =>
      rw [run_step found (performed tokens)]
      exact ih stacked' _
    | accept found _ _ =>
      rw [run_accepted found rfl]
      exact .inl rfl

/-- A run that accepts undoes a derivation of its stack and its input. -/
theorem run_sound (stacked : Stacked states q below α)
    (ordinary : ∀ t ∈ tokens, t.kind ≠ endMarkerName)
    (accepted : (p.run TokenSource.list limit (config q below tokens)).verdict = .accepted) :
    ∃ w, g.Spells tokens w ∧
      g.Rightmost (p.run TokenSource.list limit (config q below tokens)).reductions.reverse [start]
        (α ++ w) := by
  induction limit generalizing q below α tokens with
  | zero => exact absurd accepted (not_accepted_zero _)
  | succ limit ih =>
    cases stepFrom settled auto uses stacked tokens with
    | refused refused =>
      rw [run_refused refused] at accepted
      cases accepted
    | chained found failed =>
      rw [run_failed found failed] at accepted
      cases accepted
    | shift eq terminal _ found performed stacked' =>
      subst eq
      rw [run_step found performed] at accepted ⊢
      obtain ⟨w, spells, derivation⟩ := ih stacked' (List.forall_mem_cons.1 ordinary).2 accepted
      refine ⟨_, .cons terminal spells, ?_⟩
      rw [List.append_assoc] at derivation
      exact derivation
    | reduce hp eq found performed stacked' =>
      rename_i n rule r below' α'
      rw [run_step found (performed tokens)] at accepted ⊢
      obtain ⟨w, spells, derivation⟩ := ih stacked' ordinary accepted
      refine ⟨w, spells, ?_⟩
      rw [List.append_assoc] at derivation
      have last := derivation.trans (.step (.rule α' w hp spells.terminals) (.refl _))
      rw [← List.append_assoc, ← eq] at last
      simpa [Run.reductions] using last
    | accept found eq ended =>
      subst eq
      rw [run_accepted found rfl]
      cases tokens with
      | nil => exact ⟨[], .nil, .refl _⟩
      | cons t ts =>
        obtain ⟨s, at_s, named, -⟩ := ended t ts rfl
        obtain ⟨s', at_s', named'⟩ := settled.table.endMarker
        rw [at_s] at at_s'
        cases at_s'
        exact absurd (named.symm.trans named') (ordinary t List.mem_cons_self)

end Runs

end Parser

namespace Grammar

variable {g : Grammar} {marker start : Int}

/-- The call that makes the tables only adds to what is known of the grammar, and a parser with the tables
uses them as tables of the grammar. -/
theorem Settled.exists_tables (settled : g.Settled marker start) (untouched : g.facts = {}) (m : Method) :
    ∃ t f, buildTables m.name g = .ok t (g.having f) ∧
      (∀ text, (⟨t, (g.having f).symbols, text⟩ : Parser).Uses (g.having f) g.explore) ∧
      (t.conflicts = [] → (g.having f).Covering g.explore t ∧
        (m = .lalr → (g.having f).Decisive g.explore start t)) := by
  obtain ⟨t, g', built, f, rfl, tabled, clear⟩ := (settled.ends_buildTables untouched m).exists_ok
  exact ⟨t, f, built, fun _ => ⟨tabled, rfl⟩, clear⟩

/-- What becomes of tokens with the tables of a grammar: the number of conflicts in the tables, how the
run ends, and its reductions. -/
def trial (g : Grammar) (m : Method) (tokens : List Token) (limit : Nat) :
    Option (Nat × Verdict × List Int) :=
  match buildTables m.name g with
  | .ok t g' =>
    let r := Parser.parseTokens ⟨t, g'.symbols, []⟩ tokens limit
    some (t.conflicts.length, r.verdict, r.reductions)
  | .error _ _ => none

theorem trial_eq {m : Method} {t : Tables} {g' : Grammar} (built : buildTables m.name g = .ok t g')
    (tokens : List Token) (limit : Nat) :
    g.trial m tokens limit = some (t.conflicts.length,
      (Parser.parseTokens ⟨t, g'.symbols, []⟩ tokens limit).verdict,
      (Parser.parseTokens ⟨t, g'.symbols, []⟩ tokens limit).reductions) := by
  rw [trial, built]

def assignment : List Token :=
  [⟨"id", "a", 1, 1, 0⟩, ⟨"=", "=", 1, 3, 2⟩, ⟨"id", "b", 1, 5, 4⟩]

/-- Freshly built tables are consistent: whatever the tokens, a run only ends by accepting or by refusing
the input, however many conflicts there were. -/
theorem Declared.parse_safe (declared : Declared g) (closed : g.closed = true) (m : Method) :
    ∃ t g', buildTables m.name g = .ok t g' ∧ ∀ (text : List Char) (tokens : List Token) (limit : Nat),
      (Parser.parseTokens ⟨t, g'.symbols, text⟩ tokens limit).verdict = .accepted ∨
      (Parser.parseTokens ⟨t, g'.symbols, text⟩ tokens limit).verdict = .outOfSteps ∨
      ∃ e, (Parser.parseTokens ⟨t, g'.symbols, text⟩ tokens limit).verdict = .failed (.source e) := by
  obtain ⟨⟨marker, start, settled⟩, untouched⟩ := declared.complete closed
  obtain ⟨t, f, built, uses, -⟩ := settled.exists_tables untouched m
  refine ⟨t, g.having f, built, fun text tokens limit => ?_⟩
  have settled' := settled.having f
  rw [Parser.parseTokens_eq (uses text)]
  exact Parser.run_safe settled' settled'.automaton (uses text) .bottom tokens limit

theorem parse_safe_pointers : Declared pointers ∧ pointers.closed = true ∧
    ∃ t g', buildTables Method.slr.name pointers = .ok t g' ∧ t.conflicts.length = 1 ∧
      ∀ (text : List Char) (tokens : List Token) (limit : Nat),
        (Parser.parseTokens ⟨t, g'.symbols, text⟩ tokens limit).verdict = .accepted ∨
        (Parser.parseTokens ⟨t, g'.symbols, text⟩ tokens limit).verdict = .outOfSteps ∨
        ∃ e, (Parser.parseTokens ⟨t, g'.symbols, text⟩ tokens limit).verdict = .failed (.source e) := by
  obtain ⟨t, g', built, safe⟩ := declared_pointers.parse_safe closed_pointers .slr
  have tried : pointers.trial .slr assignment 8 = some (1, .accepted, [4, 4, 5, 1]) := by
    decide +kernel
  simp only [trial_eq built, Option.some.injEq, Prod.mk.injEq] at tried
  exact ⟨declared_pointers, closed_pointers, t, g', built, tried.1, safe⟩

/-- When the parser accepts, its reductions read backwards are a rightmost derivation of the terminals of
the tokens, however conflicts were resolved. -/
theorem Declared.parse_sound (declared : Declared g) (closed : g.closed = true)
    (started : g.idOfStart = .ok start) (m : Method) :
    ∃ t g', buildTables m.name g = .ok t g' ∧ ∀ (text : List Char) (tokens : List Token) (limit : Nat),
      (∀ token ∈ tokens, token.kind ≠ endMarkerName) →
      (Parser.parseTokens ⟨t, g'.symbols, text⟩ tokens limit).verdict = .accepted →
      ∃ w, g.Spells tokens w ∧ g.Rightmost
        (Parser.parseTokens ⟨t, g'.symbols, text⟩ tokens limit).reductions.reverse [start] w := by
  obtain ⟨⟨marker, settled⟩, untouched⟩ := declared.settled_at closed started
  obtain ⟨t, f, built, uses, -⟩ := settled.exists_tables untouched m
  refine ⟨t, g.having f, built, fun text tokens limit ordinary accepted => ?_⟩
  have settled' := settled.having f
  rw [Parser.parseTokens_eq (uses text)] at accepted ⊢
  obtain ⟨w, spells, derivation⟩ :=
    Parser.run_sound settled' settled'.automaton (uses text) .bottom ordinary accepted
  exact ⟨w, spells, rightmost_having.1 derivation⟩

/-- An assignment is accepted although the tables had a conflict at its `=`. -/
theorem parse_sound_pointers :
    ∃ t g', buildTables Method.slr.name pointers = .ok t g' ∧ t.conflicts.length = 1 ∧
      (Parser.parseTokens ⟨t, g'.symbols, []⟩ assignment 8).reductions = [4, 4, 5, 1] ∧
      ∃ w, pointers.Spells assignment w ∧ pointers.Rightmost [1, 5, 4, 4] [7] w := by
  obtain ⟨t, g', built, sound⟩ :=
    declared_pointers.parse_sound closed_pointers idOfStart_pointers .slr
  have tried : pointers.trial .slr assignment 8 = some (1, .accepted, [4, 4, 5, 1]) := by
    decide +kernel
  simp only [trial_eq built, Option.some.injEq, Prod.mk.injEq] at tried
  obtain ⟨conflicts, accepted, reductions⟩ := tried
  have derived := sound [] assignment 8 (by decide) accepted
  rw [reductions] at derived
  exact ⟨t, g', built, conflicts, reductions, derived⟩

end Grammar

end ParserGenerator
