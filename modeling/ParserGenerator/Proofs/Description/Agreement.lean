import ParserGenerator.Description.Lexer
import ParserGenerator.Description.Reader
import ParserGenerator.LR.Parser
import ParserGenerator.Proofs.Description.Terminals
import ParserGenerator.Proofs.LR.Failures
import ParserGenerator.Proofs.LR.Untouched
import ParserGenerator.Proofs.Lexer.Tokenised

/-!
# Lexer and parser agree on the kinds of tokens

The lexer and the grammar of a description are made by two walks through it. All kinds that the lexer gives to
its tokens are terminals of the grammar, so that a parser with tables for the grammar knows each of them.
-/

namespace ParserGenerator

open Attempt (Answers)

/-- The error tells of a token whose kind is no terminal. -/
def Error.IsUnknownToken (e : Error) : Prop :=
  ∃ kind line column ending, e = .source (.unknownToken kind line column ending)

theorem Error.not_isUnknownToken {e : Error}
    (other : ∀ kind line column ending, e ≠ .source (.unknownToken kind line column ending)) :
    ¬ e.IsUnknownToken := fun ⟨kind, line, column, ending, same⟩ => other kind line column ending same

theorem Error.IsMisfit.not_isUnknownToken {e : Error} (h : e.IsMisfit) : ¬ e.IsUnknownToken := by
  cases h <;> exact Error.not_isUnknownToken nofun

/-! ## Parsing tokens of known kinds -/

namespace Parser

variable {σ : Type} {p : Parser} {next : TokenSource σ} {good : σ → Prop} {c : Config σ}

/-- The kind is the name of a terminal. -/
def Knows (p : Parser) (kind : String) : Prop :=
  ∃ s s', p.symbols.get? kind = some s ∧ p.symbols.symbol s.id = .ok s' ∧ s'.isInput = true

/-- From a good source come tokens of known kinds, and good sources behind them. -/
def Supplies (p : Parser) (next : TokenSource σ) (good : σ → Prop) : Prop :=
  ∀ source, good source →
    Answers (next source) (fun r => ∀ t rest, r = some (t, rest) → p.Knows t.kind ∧ good rest)
      fun e => ¬ e.IsUnknownToken

/-- The lookahead is of a known kind, and the source is a good one. -/
def Ready (p : Parser) (good : σ → Prop) (c : Config σ) : Prop :=
  (∀ t, c.lookahead = some t → p.Knows t.kind) ∧ good c.source

theorem Ready.exists_terminal (ready : p.Ready good c) : ∃ x, p.terminalOf c.lookahead = .ok x := by
  cases look : c.lookahead with
  | none => exact ⟨_, rfl⟩
  | some t =>
    obtain ⟨s, s', found, at_id, input⟩ := ready.1 t look
    refine ⟨s.id, ?_⟩
    simp only [terminalOf, found, at_id, bind, Except.bind, input, if_true]
    rfl

theorem Ready.not_unknown_of_cell (ready : p.Ready good c) {e : Error} (failed : p.cell c = .error e) :
    ¬ e.IsUnknownToken := by
  obtain ⟨x, read⟩ := ready.exists_terminal
  have uncelled := uncelled_of_cell failed
  generalize c.lookahead = look at read uncelled
  cases uncelled with
  | misfit misfit => exact misfit.not_isUnknownToken
  | unknown unread => exact absurd read (unread x)
  | unexpected t names => exact Error.not_isUnknownToken (by rintro _ _ _ _ ⟨⟩)
  | unexpectedEnd names => exact Error.not_isUnknownToken (by rintro _ _ _ _ ⟨⟩)

theorem Ready.not_unknown_of_perform (supplies : p.Supplies next good) (ready : p.Ready good c) {a : Action}
    {e : Error} (failed : p.perform next c a = .error e) : ¬ e.IsUnknownToken := by
  cases undone_of_perform failed with
  | misfit misfit => exact misfit.not_isUnknownToken
  | source read => exact (supplies c.source ready.2).of_error read
  | chained => exact Error.not_isUnknownToken (by rintro _ _ _ _ ⟨⟩)
  | chainedEnd => exact Error.not_isUnknownToken (by rintro _ _ _ _ ⟨⟩)

/-- Behind a token of a good source the lookahead is of a known kind again. -/
theorem Supplies.ready (supplies : p.Supplies next good) {source rest : σ} {t : Token} (h : good source)
    (read : next source = .ok (some (t, rest))) (top : Int) (below : List Int) :
    p.Ready good ⟨top, below, some t, rest⟩ := by
  have supplied := supplies source h
  rw [read] at supplied
  obtain ⟨known, behind⟩ := supplied t rest rfl
  refine ⟨?_, behind⟩
  rintro _ ⟨⟩
  exact known

theorem Ready.of_perform (supplies : p.Supplies next good) (ready : p.Ready good c) {a : Action}
    {c' : Config σ} (performed : p.perform next c a = .ok (some c')) : p.Ready good c' := by
  rw [perform] at performed
  cases kind : a.kind with
  | shift =>
    simp only [kind, advance] at performed
    cases read : next c.source with
    | error e =>
      rw [read] at performed
      cases performed
    | ok r =>
      rw [read] at performed
      rcases r with _ | ⟨t, rest⟩
      · cases performed
        refine ⟨fun t same => ?_, ready.2⟩
        cases same
      · cases performed
        exact supplies.ready ready.2 read _ _
  | reduce =>
    have reduces := answers_reduce (p := p) (c := c) a.argument
    simp only [kind] at performed
    cases reduced : p.reduce c a.argument with
    | error e =>
      rw [reduced] at performed
      cases performed
    | ok c₁ =>
      rw [reduced] at performed reduces
      cases performed
      obtain ⟨look, source⟩ := reduces
      exact ⟨fun t same => ready.1 t (look ▸ same), source ▸ ready.2⟩
  | accept =>
    simp only [kind] at performed
    cases performed
  | nonassoc =>
    simp only [kind] at performed
    cases look : c.lookahead with
    | none =>
      rw [look] at performed
      obtain ⟨name, -, performed⟩ := Attempt.bind_eq_ok.1 performed
      cases performed
    | some t =>
      rw [look] at performed
      cases performed
  | other kind' =>
    simp only [kind] at performed
    cases performed

theorem parse_knows (supplies : p.Supplies next good) {source : σ} (h : good source) (limit : Nat)
    {e : Error} (failed : (p.parse next source limit).verdict = .failed e) : ¬ e.IsUnknownToken := by
  have run {c : Config σ} (ready : p.Ready good c) (failed : (p.run next limit c).verdict = .failed e) :
      ¬ e.IsUnknownToken := by
    obtain ⟨c', ready', refused | ⟨a, -, undone, -⟩⟩ := run_failure (p.Ready good)
      (fun ready performed => Ready.of_perform supplies ready performed) ready failed
    · exact ready'.not_unknown_of_cell refused
    · exact ready'.not_unknown_of_perform supplies undone
  rw [parse, initial] at failed
  cases read : next source with
  | error e' =>
    rw [read] at failed
    cases failed
    exact (supplies source h).of_error read
  | ok r =>
    rw [read] at failed
    rcases r with _ | ⟨t, rest⟩
    · have ready : p.Ready good ⟨p.tables.startState, [], none, source⟩ := ⟨nofun, h⟩
      exact run ready failed
    · exact run (supplies.ready h read _ _) failed

end Parser

/-! ## The kinds of a lexer's tokens -/

namespace Lexicon

variable {x : Lexicon} {p : Parser}

/-- The lexer stands somewhere, and the token that it looked at has the name of a rule. -/
def Gives (x : Lexicon) (l : Lexer) : Prop :=
  (∃ text pos, x.Stands l text pos) ∧ ∀ t, l.pending = some t → t.kind ∈ x.rules.map Prod.fst

theorem gives_reset (calls : List Lexer.Call) (text : List Char) :
    x.Gives ((calls.foldl Lexer.after x.lexer).reset text) := by
  obtain ⟨before, pos, stands⟩ := x.stands_foldl_after calls
  exact ⟨⟨text, 0, stands.reset text⟩, nofun⟩

theorem supplies_lexer (known : ∀ kind ∈ x.rules.map Prod.fst, p.Knows kind) :
    p.Supplies TokenSource.lexer x.Gives := by
  rintro l ⟨⟨text, pos, stands⟩, looked⟩
  rw [TokenSource.lexer, next_eq]
  cases pending : l.pending with
  | some t =>
    rw [peek_of_pending pending]
    rintro _ _ ⟨⟩
    exact ⟨known _ (looked t pending), ⟨_, _, stands.withPending none⟩, nofun⟩
  | none =>
    rw [peek_of_none pending]
    have scanned := stands.scanToken
    generalize Lexer.scanToken l = result at scanned
    cases scanned with
    | ended _ _ _ => exact nofun
    | token _ cut stands' _ =>
      rintro _ _ ⟨⟩
      exact ⟨known _ cut.kind_mem, ⟨_, _, stands'.withPending none⟩, nofun⟩
    | failed _ _ _ failure _ =>
      obtain ⟨position, c, -, -, rfl⟩ := failureAt_eq_some_iff.1 failure
      exact Error.not_isUnknownToken nofun

end Lexicon

/-! ## The rules of a description's lexer -/

namespace Description

variable {d : Description} {g g' : Grammar} {l : Lexer} {name : String}

/-- The name is declared as a token, and never with a pattern. -/
def Unpatterned (d : Description) (name : String) : Prop :=
  (∃ t ∈ d.tokens, t.name = name) ∧ ∀ t ∈ d.tokens, t.name = name → t.pattern = none

theorem nodup_literals : d.literals.Nodup := (OrderedSet.ofList _).nodup

/-- There is a rule for each token with a pattern. -/
theorem filterMapM_tokenRule? {definitions : OrderedMap String String} {tokens : List TokenDecl}
    {rules : List (String × Regex)} (made : tokens.filterMapM (tokenRule? definitions) = .ok rules) :
    rules.map Prod.fst = (tokens.filter fun t => t.pattern.isSome).map TokenDecl.name := by
  induction tokens generalizing rules with
  | nil =>
    cases made
    rfl
  | cons t tokens ih =>
    rw [List.filterMapM_cons] at made
    obtain ⟨rule, first, made⟩ := Attempt.bind_eq_ok.1 made
    rw [tokenRule?] at first
    cases pattern : t.pattern with
    | none =>
      rw [pattern] at first
      cases first
      rw [List.filter_cons_of_neg (by simp [pattern])]
      exact ih made
    | some text =>
      rw [pattern] at first
      obtain ⟨r, -, first⟩ := Attempt.bind_eq_ok.1 first
      cases first
      obtain ⟨rest, made', made⟩ := Attempt.bind_eq_ok.1 made
      cases made
      rw [List.filter_cons_of_pos (by simp [pattern]), List.map_cons, List.map_cons, ih made']

/-- The rules for the literals come before those for the tokens that have a pattern. -/
theorem lexer_eq_ok (made : d.lexer = .ok l) : ∃ tokenRules ignored,
    l = Lexer.ofRules (d.literals.map (fun text => (text, Regex.literal text)) ++ tokenRules) ignored ∧
      tokenRules.map Prod.fst = (d.tokens.filter fun t => t.pattern.isSome).map TokenDecl.name := by
  obtain ⟨tokenRules, ruled, made⟩ := Attempt.bind_eq_ok.1 made
  obtain ⟨ignored, -, made⟩ := Attempt.bind_eq_ok.1 made
  cases made
  exact ⟨tokenRules, ignored, rfl, filterMapM_tokenRule? ruled⟩

theorem not_namesTerminal_fresh : ¬ Grammar.fresh.NamesTerminal name := by
  rintro ⟨id, s, at_s, -, kind⟩
  rcases Grammar.open_fresh.kinds at_s with ⟨marker, -⟩ | ⟨declarable, -⟩
  · rw [kind] at marker
    cases marker
  · obtain ⟨i, rfl, slot⟩ := SymbolTable.at?_eq_some.1 at_s
    match i with
    | 0 | 1 => cases slot
    | 2 =>
      cases slot
      cases kind
    | i + 3 => cases slot

/-- A terminal is a declared token, a keyword or a literal. -/
theorem namesTerminal_iff (lowered : d.toGrammar = .ok g) :
    g.NamesTerminal name ↔ (∃ t ∈ d.tokens, t.name = name) ∨ d.Mentions name := by
  rw [(introduces_toGrammar lowered).terminal, or_iff_right not_namesTerminal_fresh]

/-- A name of a rule is that of a terminal other than a token that comes from elsewhere. -/
theorem mem_names_iff (lowered : d.toGrammar = .ok g) :
    name ∈ d.literals ++ (d.tokens.filter fun t => t.pattern.isSome).map TokenDecl.name ↔
      g.NamesTerminal name ∧ ¬ (d.Unpatterned name ∧ ¬ d.Mentions name) := by
  have patterned : name ∈ (d.tokens.filter fun t => t.pattern.isSome).map TokenDecl.name ↔
      ∃ t ∈ d.tokens, t.pattern.isSome ∧ t.name = name := by
    simp only [List.mem_map, List.mem_filter, and_assoc]
  rw [namesTerminal_iff lowered, List.mem_append, mem_literals_iff, patterned]
  constructor
  · rintro (mentions | ⟨t, mem, some, named⟩)
    · exact ⟨.inr mentions, fun h => h.2 mentions⟩
    · refine ⟨.inl ⟨t, mem, named⟩, fun h => ?_⟩
      rw [h.1.2 t mem named] at some
      cases some
  · rintro ⟨terminal, kept⟩
    by_cases mentions : d.Mentions name
    · exact .inl mentions
    · refine .inr (Classical.byContradiction fun none =>
        kept ⟨⟨terminal.resolve_right mentions, ?_⟩, mentions⟩)
      intro t mem named'
      cases pattern : t.pattern with
      | none => rfl
      | some text => exact absurd ⟨t, mem, by rw [pattern]; rfl, named'⟩ none

/-- Tables for a grammar know its terminals. -/
theorem knows_of_namesTerminal (lawful : g.symbols.Lawful) (named : g.NamesTerminal name) {t : Tables}
    {text : List Char} : Parser.Knows ⟨t, g.symbols, text⟩ name := by
  obtain ⟨id, s, at_s, named, kind⟩ := named
  obtain rfl := lawful.id_eq at_s
  refine ⟨s, s, lawful.get?_eq_some.2 ⟨at_s, named⟩, SymbolTable.symbol_eq_ok at_s, ?_⟩
  rw [Symbol.isInput, kind]
  rfl

/-- A keyword, literals inside a group, a token with a pattern and one that comes from elsewhere. -/
def conditionals : String :=
  "%token NUM ; %token ID /[a-z]+/ ; \"if\" : \"if\" ; S : \"if\" (ID | \"(\" S \")\") NUM ;"

end Description

end ParserGenerator
