import ParserGenerator.Proofs.LR.Completeness
import ParserGenerator.Proofs.LR.Correspondence
import ParserGenerator.Proofs.LR.Policy

/-!
# The numbering of symbols does not matter

The tables of two grammars that are the same but for the identifiers of their symbols are the same by other
identifiers. On tokens that name terminals that correspond parsers with these tables run in lockstep, through
the same states. So it changes nothing of what is accepted, and by which productions, to declare terminals in
another order.
-/

namespace ParserGenerator

/-- The same steps, and the same verdict but for the words of a refusal. -/
structure Run.Alike (r r' : Run) : Prop where
  steps : r'.steps = r.steps
  accepted : r'.verdict = .accepted ↔ r.verdict = .accepted
  outOfSteps : r'.verdict = .outOfSteps ↔ r.verdict = .outOfSteps

namespace Run.Alike

theorem failed {steps : List Step} {e e' : Error} : Run.Alike ⟨steps, .failed e⟩ ⟨steps, .failed e'⟩ :=
  ⟨rfl, by simp, by simp⟩

theorem refl (r : Run) : r.Alike r := ⟨rfl, .rfl, .rfl⟩

theorem cons {r r' : Run} (alike : r.Alike r') (step : Step) :
    Run.Alike ⟨step :: r.steps, r.verdict⟩ ⟨step :: r'.steps, r'.verdict⟩ :=
  ⟨congrArg (List.cons step) alike.steps, alike.accepted, alike.outOfSteps⟩

theorem reductions {r r' : Run} (alike : r.Alike r') : r'.reductions = r.reductions :=
  congrArg (List.filterMap _) alike.steps

end Run.Alike

/-- The tokens are of terminals that correspond, or of no terminals. -/
def Grammar.SameTerminal (g : Grammar) (σ : Int → Int) (h : Grammar) (t t' : Token) : Prop :=
  ∀ y, Parser.IsTerminal h t' y ↔ ∃ x, Parser.IsTerminal g t x ∧ σ x = y

/-- By identifiers that keep the names a token is of terminals that correspond. -/
theorem Grammar.Mirrored.sameTerminal {g h : Grammar} {σ τ : Int → Int} (mirrored : g.Mirrored σ τ h)
    (names : ∀ x, g.isInput x = true → h.nameAt (σ x) = g.nameAt x) (t : Token) : g.SameTerminal σ h t t := by
  have there : ∀ {g h : Grammar} {σ τ : Int → Int}, g.Mirrored σ τ h →
      (∀ x, g.isInput x = true → h.nameAt (σ x) = g.nameAt x) → ∀ {x}, Parser.IsTerminal g t x →
        x ∈ g.ids ∧ Parser.IsTerminal h t (σ x) := by
    rintro g h σ τ mirrored names x ⟨s, at_x, named, input⟩
    obtain ⟨s', at_x', kind, -⟩ := mirrored.symbol at_x
    have same := names x (isInput_iff.2 ⟨s, at_x, input⟩)
    rw [nameAt_eq at_x, nameAt_eq at_x'] at same
    refine ⟨(mem_ids mirrored.lawful).2 ⟨s, at_x⟩, s', at_x', same.trans named, ?_⟩
    rwa [Symbol.isInput, kind]
  have names' : ∀ y, h.isInput y = true → g.nameAt (τ y) = h.nameAt y := by
    intro y input
    have mem := mem_ids_of_isInput mirrored.lawful' input
    rw [← names _ ((mirrored.symm.isInput mem).trans input), mirrored.undone' y mem]
  intro y
  constructor
  · intro terminal
    obtain ⟨mem, back⟩ := there mirrored.symm names' terminal
    exact ⟨τ y, back, mirrored.undone' y mem⟩
  · rintro ⟨x, terminal, rfl⟩
    exact (there mirrored names terminal).2

namespace Parser

open Grammar

variable {p p' : Parser} {g h : Grammar} {σ τ : Int → Int} {q : Nat} {below α : List Int}
  {tokens tokens' : List Token}

/-- Parsers with the tables of two grammars that are the same but for the identifiers of their symbols. -/
structure Renamed (p p' : Parser) (g : Grammar) (σ τ : Int → Int) (h : Grammar) : Prop where
  mirrored : g.Mirrored σ τ h
  settled : ∃ marker start, g.Settled marker start
  uses : p.Uses g g.explore
  uses' : p'.Uses h h.explore
  action : ∀ {q : Nat} {x}, x ∈ g.ids →
    p'.tables.action.get? ((q : Int), σ x) = p.tables.action.get? ((q : Int), x)
  goto : ∀ {q : Nat} {x}, x ∈ g.ids →
    p'.tables.goto.get? ((q : Int), σ x) = p.tables.goto.get? ((q : Int), x)

namespace Renamed

variable (both : p.Renamed p' g σ τ h)
include both

/-- Lookaheads are terminals that correspond, or both are none. -/
theorem terminalOf (same : List.Forall₂ (g.SameTerminal σ h) tokens tokens') :
    (∃ x ∈ g.ids, p.terminalOf tokens.head? = .ok x ∧ p'.terminalOf tokens'.head? = .ok (σ x)) ∨
      ∃ e e', p.terminalOf tokens.head? = .error e ∧ p'.terminalOf tokens'.head? = .error e' := by
  have sound := both.mirrored.lawful
  have sound' := both.mirrored.lawful'
  cases same with
  | nil =>
    refine .inl ⟨endMarkerId, mem_ids_of_isInput sound (isInput_endMarker sound), rfl, ?_⟩
    rw [both.mirrored.there.endMarker]
    rfl
  | @cons t t' _ _ alike _ =>
    by_cases terminal : ∃ x, IsTerminal g t x
    · obtain ⟨x, terminal⟩ := terminal
      have terminal' : IsTerminal h t' (σ x) := (alike (σ x)).2 ⟨x, terminal, rfl⟩
      obtain ⟨s, at_x, -⟩ := id terminal
      exact .inl ⟨x, (mem_ids sound).2 ⟨s, at_x⟩, terminalOf_of_isTerminal sound.table both.uses terminal,
        terminalOf_of_isTerminal sound'.table both.uses' terminal'⟩
    · have terminal' : ∀ y, ¬ IsTerminal h t' y := fun y terminal' =>
        terminal (((alike y).1 terminal').imp fun _ found => found.1)
      exact .inr ⟨_, _, terminalOf_eq_error sound.table both.uses (not_exists.1 terminal),
        terminalOf_eq_error sound'.table both.uses' terminal'⟩

/-- A state has the same cell for lookaheads that correspond, or refuses both. -/
theorem cell (same : List.Forall₂ (g.SameTerminal σ h) tokens tokens') :
    (∃ x a, p.cell (config q below tokens) = .ok a ∧ p'.cell (config q below tokens') = .ok a ∧
      p.tables.action.get? ((q : Int), x) = some a) ∨
      ∃ e e', p.cell (config q below tokens) = .error e ∧ p'.cell (config q below tokens') = .error e' := by
  rcases both.terminalOf same with ⟨x, mem, read, read'⟩ | ⟨e, e', refused, refused'⟩
  · have agree := both.action (q := q) mem
    cases cell : p.tables.action.get? ((q : Int), x) with
    | some a => exact .inl ⟨x, a, cell_eq read cell, cell_eq read' (agree.trans cell), cell⟩
    | none =>
      have none : ∀ {p : Parser} {x : Int} {tokens : List Token}, p.terminalOf tokens.head? = .ok x →
          p.tables.action.get? ((q : Int), x) = none → ∃ e, p.cell (config q below tokens) = .error e := by
        intro p x tokens read none
        cases found : p.cell (config q below tokens) with
        | error e => exact ⟨e, rfl⟩
        | ok a => exact absurd (get?_of_cell read found) (by simp [config, none])
      obtain ⟨e, refused⟩ := none read cell
      obtain ⟨e', refused'⟩ := none read' (agree.trans cell)
      exact .inr ⟨e, e', refused, refused'⟩
  · refine .inr ⟨e, e', ?_, ?_⟩
    · simp only [Parser.cell, config, refused, bind, Except.bind]
    · simp only [Parser.cell, config, refused', bind, Except.bind]

/-- Reductions by one production lead to the same states. -/
theorem perform_reduce (stacked : Stacked g.explore q below α) {n : Int} {rule : Production}
    (hp : g.byNumber.get? n = some rule) (ne : n ≠ 0) (holds : Holds g.explore q ⟨n, rule.right.length⟩) :
    ∃ (r : Nat) (below' α' : List Int), Stacked g.explore r below' α' ∧
      (∀ tokens, p.perform TokenSource.list (config q below tokens) ⟨.reduce, n⟩ =
        .ok (some (config r below' tokens))) ∧
      ∀ tokens, p'.perform TokenSource.list (config q below tokens) ⟨.reduce, n⟩ =
        .ok (some (config r below' tokens)) := by
  obtain ⟨_, _, settled⟩ := both.settled
  obtain ⟨nonterminal, o, r, below', α', -, enough, dropped, step, stacked'⟩ :=
    stacked.unwind settled.coherent.rooted hp ne holds
  obtain ⟨rule', hp', left, right⟩ := both.mirrored.there.rule hp
  have target := both.uses.tables.goto.2 ⟨isInput_of_isNonterminal nonterminal, r, step, rfl⟩
  have target' : p'.tables.goto.get? ((o : Int), rule'.left) = some (r : Int) := by
    rw [left, both.goto (settled.left_mem_ids hp), target]
  have length' := both.uses'.tables.length hp'
  rw [both.mirrored.erased_right hp right, List.length_map] at length'
  exact ⟨r, o :: below', _, stacked',
    perform_reduce_of (both.uses.tables.length hp) (both.uses.tables.left hp) enough dropped target,
    perform_reduce_of length' (both.uses'.tables.left hp') enough dropped target'⟩

/-- Both parsers run alike. -/
theorem run (stacked : Stacked g.explore q below α)
    (same : List.Forall₂ (g.SameTerminal σ h) tokens tokens') (limit : Nat) :
    (p.run TokenSource.list limit (config q below tokens)).Alike
      (p'.run TokenSource.list limit (config q below tokens')) := by
  induction limit generalizing q below α tokens tokens' with
  | zero =>
    rcases both.cell same with ⟨x, a, found, found', -⟩ | ⟨e, e', refused, refused'⟩
    · rw [run_zero found, run_zero found']
      exact .refl _
    · rw [run_refused refused, run_refused refused']
      exact .failed
  | succ limit ih =>
    rcases both.cell same with ⟨x, a, found, found', cell⟩ | ⟨e, e', refused, refused'⟩
    · obtain ⟨q', numbered, -, permits⟩ := both.uses.tables.permits cell
      obtain rfl : q = q' := Int.ofNat.inj numbered
      cases permits with
      | shift step =>
        rw [run_step found perform_shift, run_step found' perform_shift]
        have rest : List.Forall₂ (g.SameTerminal σ h) tokens.tail tokens'.tail := by
          cases same with
          | nil => exact .nil
          | cons _ rest => exact rest
        exact (ih (stacked.push step) rest).cons _
      | reduce hp ne holds =>
        obtain ⟨r, below', α', stacked', performed, performed'⟩ := both.perform_reduce stacked hp ne holds
        rw [run_step found (performed tokens), run_step found' (performed' tokens')]
        exact (ih stacked' same).cons _
      | nonassoc hp ne holds =>
        obtain ⟨e, failed⟩ := perform_nonassoc both.mirrored.lawful.table both.uses (config q below tokens) _
        obtain ⟨e', failed'⟩ := perform_nonassoc both.mirrored.lawful'.table both.uses' (config q below tokens') _
        rw [run_failed found failed, run_failed found' failed']
        exact .failed
      | accept ended holds =>
        rw [run_accepted found rfl, run_accepted found' rfl]
        exact .refl _
    · rw [run_refused refused, run_refused refused']
      exact .failed

end Renamed

end Parser

namespace Grammar

variable {g h : Grammar} {σ τ : Int → Int} {marker start marker' start' : Int} {f f' : Facts}
  {la la' : Lookaheads}

/-! ## The analysis of both grammars -/

section Agree

variable (mirrored : g.Mirrored σ τ h) (settled : g.Settled marker start) (settled' : h.Settled marker' start')
include mirrored settled settled'

theorem Mirrored.followsAlike (analysed : g.Analysed start f) (analysed' : h.Analysed start' f') :
    (g.having f).FollowsAlike σ (h.having f') :=
  fun _ known _ mem => mirrored.follow_iff settled settled' analysed analysed' known mem

/-- Both methods find lookahead sets that have the same members, by other identifiers. -/
theorem Mirrored.looksAlike (follows : (g.having f).FollowsAlike σ (h.having f'))
    (sets : ∀ q k x, x ∈ la.at q k ↔ g.Looks g.explore start q k x)
    (sets' : ∀ q k x, x ∈ la'.at q k ↔ h.Looks h.explore start' q k x) (m : Method) :
    (g.having f).LooksAlike σ ((g.having f).lookOf m la) ((h.having f').lookOf m la') := by
  intro q n p ne hp
  cases m with
  | slr =>
    obtain ⟨p', hp', left, -⟩ := mirrored.there.rule hp
    refine ⟨_, _, (settled.having f).lookOf_slr hp, (settled'.having f').lookOf_slr hp', fun x mem => ?_⟩
    rw [left]
    exact follows p.left (settled.left_mem_ids hp) x mem
  | lalr =>
    refine ⟨_, _, rfl, rfl, fun x mem => ?_⟩
    rw [sets, sets']
    exact mirrored.looks_iff settled settled' mem

end Agree

/-- The numbering of the symbols does not matter: for grammars that are the same but for the identifiers of
their symbols, either method builds tables that are the same by other identifiers, with the same states and
the same reports on the cells. With them parsers run alike on tokens of terminals that correspond; where the
terminals keep their names, as they do when they are declared in another order, on the same tokens. -/
theorem Declared.tables_renamed (declared : Declared g) (declared' : Declared h)
    (closed : g.closed = true) (closed' : h.closed = true) (renames : g.Renames σ h) (m : Method) :
    ∃ t g₁ t' h₁, buildTables m.name g = .ok t g₁ ∧ buildTables m.name h = .ok t' h₁ ∧
      t.Renamed σ g.nameAt h.nameAt t' ∧
      (∀ (text text' : List Char) (tokens tokens' : List Token) (limit : Nat),
        List.Forall₂ (g.SameTerminal σ h) tokens tokens' →
          (Parser.parseTokens ⟨t, g₁.symbols, text⟩ tokens limit).Alike
            (Parser.parseTokens ⟨t', h₁.symbols, text'⟩ tokens' limit)) ∧
      ((∀ x, g.isInput x = true → h.nameAt (σ x) = g.nameAt x) →
        ∀ (text text' : List Char) (tokens : List Token) (limit : Nat),
          (Parser.parseTokens ⟨t, g₁.symbols, text⟩ tokens limit).Alike
            (Parser.parseTokens ⟨t', h₁.symbols, text'⟩ tokens limit)) := by
  obtain ⟨⟨marker, start, settled⟩, untouched⟩ := declared.complete closed
  obtain ⟨⟨marker', start', settled'⟩, untouched'⟩ := declared'.complete closed'
  obtain ⟨τ, mirrored⟩ := renames.exists_inverse settled.toLawful settled'.toLawful
  obtain ⟨-, f, la, -, analysed, -, sets, contents⟩ := settled.exists_contents untouched
  obtain ⟨-, f', la', -, analysed', -, sets', contents'⟩ := settled'.exists_contents untouched'
  obtain ⟨t, built, contents⟩ := contents m
  obtain ⟨t', built', contents'⟩ := contents' m
  have follows := mirrored.followsAlike settled settled' analysed analysed'
  have looks := mirrored.looksAlike settled settled' follows sets sets' m
  have known := settled.having f
  have known' := settled'.having f'
  have pair : (g.having f).Matched σ τ (h.having f') ((g.having f).lookOf m la)
      ((h.having f').lookOf m la') t t' :=
    ⟨mirrored.having f f', ⟨marker, start, known⟩, ⟨marker', start', known'⟩, contents, contents', follows,
      looks⟩
  have alike : ∀ (text text' : List Char) (tokens tokens' : List Token) (limit : Nat),
      List.Forall₂ (g.SameTerminal σ h) tokens tokens' →
        (Parser.parseTokens ⟨t, (g.having f).symbols, text⟩ tokens limit).Alike
          (Parser.parseTokens ⟨t', (h.having f').symbols, text'⟩ tokens' limit) := by
    intro text text' tokens tokens' limit same
    have uses : (⟨t, (g.having f).symbols, text⟩ : Parser).Uses (g.having f) g.explore :=
      ⟨contents.toTabled, rfl⟩
    have uses' : (⟨t', (h.having f').symbols, text'⟩ : Parser).Uses (h.having f') h.explore :=
      ⟨contents'.toTabled, rfl⟩
    have both : Parser.Renamed ⟨t, (g.having f).symbols, text⟩ ⟨t', (h.having f').symbols, text'⟩
        (g.having f) σ τ (h.having f') :=
      ⟨pair.mirrored, pair.settled, uses, uses', pair.action_eq, pair.goto_eq⟩
    rw [Parser.parseTokens_eq uses, Parser.parseTokens_eq uses']
    exact both.run .bottom same limit
  refine ⟨t, _, t', _, built, built', pair.renamed, alike,
    fun names text text' tokens limit => alike text text' tokens tokens limit ?_⟩
  exact List.forall₂_same.2 fun token _ => mirrored.sameTerminal names token

/-- The same sums and comparisons, where the symbols come in the opposite order. -/
def reversedRelationCalls : List Call :=
  [.declareNonterminal "E" "", .declareTerminal "term", .declareTerminal "+", .declareTerminal "<",
    .declarePrecedence "nonassoc" ["<"], .declarePrecedence "left" ["+"],
    .addProduction "E" [.name "E", .name "<", .name "E"] none none,
    .addProduction "E" [.name "E", .name "+", .name "E"] none none,
    .addProduction "E" [.name "term"] none none,
    .addProduction "E" [.name "term"] none none,
    .close none]

def reversedRelations : Grammar := reversedRelationCalls.foldl Call.after .fresh

/-- The identifiers from 3 to 6 in the opposite order. -/
def reversal (x : Int) : Int := if 3 ≤ x ∧ x ≤ 6 then 9 - x else x

def comparison : List Token :=
  [⟨"term", "a", 1, 1, 0⟩, ⟨"<", "<", 1, 3, 2⟩, ⟨"term", "b", 1, 5, 4⟩, ⟨"+", "+", 1, 7, 6⟩,
    ⟨"term", "c", 1, 9, 8⟩]

/-- With all symbols in the opposite order seven conflicts and a refused chain of comparisons come out the
same, and so does the parse of a comparison. -/
theorem tables_renamed_relations : relations.Renames reversal reversedRelations ∧
    ∃ t g₁ t' h₁, buildTables Method.lalr.name relations = .ok t g₁ ∧
      buildTables Method.lalr.name reversedRelations = .ok t' h₁ ∧
      t.Renamed reversal relations.nameAt reversedRelations.nameAt t' ∧ t.conflicts.length = 7 ∧
      ⟨5, 3, 1⟩ ∈ t.violations ∧ ⟨5, 6, 1⟩ ∈ t'.violations ∧
      (Parser.parseTokens ⟨t', h₁.symbols, []⟩ comparison 16).verdict = .accepted ∧
      (Parser.parseTokens ⟨t', h₁.symbols, []⟩ comparison 16).reductions = [3, 3, 3, 2, 1] := by
  have declared' : Declared reversedRelations :=
    Declared.fresh.calls (by simp [reversedRelationCalls, Call.Fits, RightSymbol.Fits, startMarkerName])
  have renames : relations.Renames reversal reversedRelations := by decide +kernel
  have names : ∀ x ∈ relations.ids, reversedRelations.nameAt (reversal x) = relations.nameAt x := by
    decide +kernel
  obtain ⟨⟨_, _, settled⟩, -⟩ := declared_relations.complete closed_relations
  obtain ⟨t, g₁, t', h₁, built, built', renamed, -, runs⟩ :=
    declared_relations.tables_renamed declared' closed_relations (by decide +kernel) renames .lalr
  have alike := runs (fun x input => names x (mem_ids_of_isInput settled.toLawful input)) [] [] comparison 16
  have tried : relations.trial .lalr comparison 16 = some (7, .accepted, [3, 3, 3, 2, 1]) := by decide +kernel
  simp only [trial_eq built, Option.some.injEq, Prod.mk.injEq] at tried
  have refused : Build.Ends (buildTables Method.lalr.name) relations
      (fun t _ => ⟨5, 3, 1⟩ ∈ t.violations) fun _ => False := by decide +kernel
  rw [Build.Ends, built] at refused
  exact ⟨renames, t, g₁, t', h₁, built, built', renamed, tried.1, refused,
    renamed.violations.mem_iff.2 (List.mem_map.2 ⟨_, refused, rfl⟩), alike.accepted.2 tried.2.1,
    alike.reductions.trans tried.2.2⟩

end Grammar

end ParserGenerator
