import ParserGenerator.Proofs.LR.Failures
import ParserGenerator.Proofs.LR.Policy
import ParserGenerator.Proofs.LR.Steps
import ParserGenerator.Proofs.Lexer.Tokens

/-!
# Operators in chains

A shift of an operator that does not associate is refused against any production that could be reduced
instead, whatever the levels of the two are. Of other operators the level and the associativity decide. So a
parser finds a chain only in a state where an operator that does not associate could be shifted and a
production be reduced.
-/

namespace ParserGenerator

namespace Grammar

variable {g : Grammar} {marker start : Int} {states : Array State} {q : Nat} {t n r : Int} {s : State}
  {p : Production} {m : Method} {la : Lookaheads} {f : Facts} {o : Precedence} {level : Int} {T : Tables}

/-! ## Levels -/

/-- The terminal has the precedence. -/
def Operator (g : Grammar) (t : Int) (o : Precedence) : Prop :=
  ∃ s, g.symbols.at? t = some s ∧ s.isInput = true ∧ s.precedence = some o

theorem Operator.isInput (h : g.Operator t o) : g.isInput t = true :=
  isInput_iff.2 (h.imp fun _ known => ⟨known.1, known.2.1⟩)

/-- A terminal with the precedence goes before the production: its level is the higher one, or it associates
to the right on the same level. -/
def Outranks (g : Grammar) (o : Precedence) (n : Int) : Prop :=
  ∃ p level, g.byNumber.get? n = some p ∧ g.levelOf p = .ok level ∧
    (level < o.level ∨ level = o.level ∧ o.associativity = .right)

theorem compareLevels_eq_nonassoc : compareLevels o level = .nonassoc ↔ o.associativity = .nonassoc := by
  unfold compareLevels
  split_ifs <;> simp_all

theorem compareLevels_eq_shift (other : o.associativity ≠ .nonassoc) : compareLevels o level = .shift ↔
    level < o.level ∨ level = o.level ∧ o.associativity = .right := by
  unfold compareLevels
  rw [if_neg other]
  split_ifs with higher lower right
  · exact iff_of_true rfl (.inl higher)
  · exact iff_of_false nofun (by omega)
  · exact iff_of_true rfl (.inr ⟨by omega, right⟩)
  · exact iff_of_false nofun fun h => h.elim (by omega) fun h => right h.2

/-- On a terminal that can follow the production's left-hand side the precedences decide. -/
theorem Operator.verdict_eq (op : g.Operator t o) (sound : g.Lawful) (hp : g.byNumber.get? n = some p)
    (follows : t ∈ g.facts.followOf p.left) :
    ∃ level, g.levelOf p = .ok level ∧ g.verdict t n = compareLevels o level := by
  obtain ⟨term, at_t, -, precedence⟩ := op
  obtain ⟨level, leveled⟩ := sound.exists_levelOf hp
  refine ⟨level, leveled, ?_⟩
  rw [sound.verdict_eq hp at_t leveled, if_pos follows, precedence]
  dsimp only
  split
  · rename_i nonassoc
    exact (compareLevels_eq_nonassoc.2 nonassoc).symm
  · rfl

theorem operator_of_verdict (sound : g.Lawful) (input : g.isInput t = true)
    (refused : g.verdict t n = .nonassoc) : ∃ level, g.Operator t ⟨.nonassoc, level⟩ := by
  cases hp : g.byNumber.get? n with
  | none =>
    rw [verdict, hp] at refused
    cases refused
  | some p =>
    obtain ⟨term, at_t, is_input⟩ := isInput_iff.1 input
    obtain ⟨level, leveled⟩ := sound.exists_levelOf hp
    rw [sound.verdict_eq hp at_t leveled] at refused
    split at refused
    · split at refused
      · cases refused
      · rename_i o precedence
        obtain ⟨associativity, own⟩ := o
        split at refused
        · rename_i nonassoc
          cases nonassoc
          exact ⟨own, term, at_t, is_input, precedence⟩
        · rename_i other
          exact absurd (compareLevels_eq_nonassoc.1 refused) other
    · cases refused

/-! ## Cells -/

/-- A shift that comes to be refused is refused by the first production that does not lose against it. -/
theorem foldl_contend_nonassoc {v : Int → Decision} {ns : List Int} (increasing : ns.Pairwise (· < ·))
    (refused : (reductionsBy ns).foldl (contend v) ⟨.shift, r⟩ = ⟨.nonassoc, n⟩) :
    n ∈ ns ∧ v n = .nonassoc ∧ ∀ k ∈ ns, k < n → v k = .shift := by
  induction ns with
  | nil => cases refused
  | cons k ns ih =>
    obtain ⟨above, rest⟩ := List.pairwise_cons.1 increasing
    rw [reductionsBy, List.map_cons, List.foldl_cons, ← reductionsBy] at refused
    have least (kind : ActionKind) : ∀ j ∈ ns, (⟨kind, k⟩ : Action).argument ≤ j :=
      fun j mem => le_of_lt (above j mem)
    cases decided : v k with
    | shift =>
      have stays : contend v ⟨.shift, r⟩ ⟨.reduce, k⟩ = ⟨.shift, r⟩ := by simp [contend, decided]
      rw [stays] at refused
      obtain ⟨mem, lost, before⟩ := ih rest refused
      exact ⟨List.mem_cons_of_mem k mem, lost, List.forall_mem_cons.2 ⟨fun _ => decided, before⟩⟩
    | reduce =>
      have taken : contend v ⟨.shift, r⟩ ⟨.reduce, k⟩ = ⟨.reduce, k⟩ := by simp [contend, decided]
      rw [taken, foldl_contend_held (by simp) (least _)] at refused
      cases refused
    | nonassoc =>
      have taken : contend v ⟨.shift, r⟩ ⟨.reduce, k⟩ = ⟨.nonassoc, k⟩ := by simp [contend, decided]
      rw [taken, foldl_contend_held (by simp) (least _)] at refused
      obtain rfl : k = n := congrArg Action.argument refused
      exact ⟨List.mem_cons_self, decided, List.forall_mem_cons.2 ⟨fun lt => absurd lt (lt_irrefl k),
        fun j mem lt => absurd lt (lt_asymm (above j mem))⟩⟩

/-- A cell refuses only where a shift comes up against a production. -/
theorem InOrder.of_nonassoc {v : Int → Decision} {as : List Action} (ordered : InOrder as)
    (refused : outcome v as = some ⟨.nonassoc, n⟩) :
    (∃ r, ⟨.shift, r⟩ ∈ as) ∧ ⟨.reduce, n⟩ ∈ as ∧ v n = .nonassoc ∧
      ∀ k, ⟨.reduce, k⟩ ∈ as → k < n → v k = .shift := by
  cases ordered with
  | @reductions ns increasing =>
    cases ns with
    | nil => cases refused
    | cons k ns =>
      have above := (List.pairwise_cons.1 increasing).1
      have kept : outcome v (reductionsBy (k :: ns)) = some ⟨.reduce, k⟩ :=
        congrArg some (foldl_contend_held (by simp) fun j mem => le_of_lt (above j mem))
      cases kept.symm.trans refused
  | @accept ns increasing =>
    have above := (List.pairwise_cons.1 increasing).1
    have kept : outcome v (⟨.accept, 0⟩ :: reductionsBy ns) = some ⟨.accept, 0⟩ :=
      congrArg some (foldl_contend_held (by simp) fun j mem => le_of_lt (above j mem))
    cases kept.symm.trans refused
  | @shift r ns increasing =>
    obtain ⟨mem, lost, before⟩ := foldl_contend_nonassoc increasing (Option.some.inj refused)
    refine ⟨⟨r, List.mem_cons_self⟩, List.mem_cons_of_mem _ (mem_reductionsBy.2 ⟨rfl, mem⟩), lost, ?_⟩
    intro k reduce lt
    rcases List.mem_cons.1 reduce with same | reduce
    · cases same
    · exact before k (mem_reductionsBy.1 reduce).2 lt

/-- In a state an operator that does not associate could be shifted, and the production is the first of those
that could be reduced there. -/
structure Chain (g : Grammar) (states : Array State) (m : Method) (la : Lookaheads) (q : Nat) (t n : Int) :
    Prop where
  operator : ∃ level, g.Operator t ⟨.nonassoc, level⟩
  shift : ∃ r, g.Contender states m la q t ⟨.shift, r⟩
  reduce : g.Contender states m la q t ⟨.reduce, n⟩
  least : ∀ k, g.Contender states m la q t ⟨.reduce, k⟩ → n ≤ k

theorem Contender.exists_state {a : Action} (h : g.Contender states m la q t a) : ∃ s, states[q]? = some s := by
  cases h with
  | shift step =>
    obtain ⟨s, at_q, -⟩ := goto?_eq_some.1 step
    exact ⟨s, at_q⟩
  | accept _ holds | reduce _ _ holds _ =>
    obtain ⟨s, at_q, -⟩ := holds
    exact ⟨s, at_q⟩

section Refused

variable (settled : g.Settled marker start) (auto : g.Automaton states)
  (contents : g.Contents states (g.lookOf m la) T)
  (fits : ∀ {q t n}, g.isInput t = true → g.Contender states m la q t ⟨.reduce, n⟩ → g.Fits t ⟨.reduce, n⟩)
include settled fits

/-- Between an operator and a production that could be reduced on it their precedences decide. -/
theorem Contender.verdict_eq (op : g.Operator t o) (reduce : g.Contender states m la q t ⟨.reduce, n⟩) :
    ∃ p level, g.byNumber.get? n = some p ∧ g.levelOf p = .ok level ∧
      g.verdict t n = compareLevels o level := by
  have follows := fits op.isInput reduce
  cases reduce with
  | reduce hp =>
    obtain ⟨level, leveled, decided⟩ := op.verdict_eq settled.toLawful hp (follows rfl _ hp)
    exact ⟨_, level, hp, leveled, decided⟩

theorem Contender.verdict_eq_shift (op : g.Operator t o) (other : o.associativity ≠ .nonassoc)
    (reduce : g.Contender states m la q t ⟨.reduce, n⟩) :
    g.verdict t n = .shift ↔ g.Outranks o n := by
  obtain ⟨p, level, hp, leveled, decided⟩ := reduce.verdict_eq settled fits op
  rw [decided, compareLevels_eq_shift other]
  constructor
  · exact fun higher => ⟨p, level, hp, leveled, higher⟩
  · rintro ⟨p', level', hp', leveled', higher⟩
    cases hp.symm.trans hp'
    cases leveled.symm.trans leveled'
    exact higher

include auto contents

/-- The cells that refuse are those of chains. -/
theorem Contents.refused_iff :
    T.action.get? ((q : Int), t) = some ⟨.nonassoc, n⟩ ↔ g.Chain states m la q t n := by
  constructor
  · intro cell
    obtain ⟨q', same, input, permits⟩ := contents.permits cell
    obtain rfl : q = q' := Int.ofNat.inj same
    obtain ⟨s, at_q⟩ := permits.exists_state
    have contender {a : Action} : a ∈ g.candidates s (g.lookOf m la q) t ↔ g.Contender states m la q t a :=
      settled.mem_candidates_iff auto at_q input
    rw [contents.cell at_q t] at cell
    obtain ⟨⟨r, shift⟩, reduce, lost, before⟩ := (settled.candidates_ordered auto at_q _ t).of_nonassoc cell
    obtain ⟨level, op⟩ := operator_of_verdict settled.toLawful input lost
    refine ⟨⟨level, op⟩, ⟨r, contender.1 shift⟩, contender.1 reduce, fun k other => ?_⟩
    by_contra lt
    obtain ⟨p, own, -, -, decided⟩ := other.verdict_eq settled fits op
    rw [before k (contender.2 other) (lt_of_not_ge lt), compareLevels_eq_nonassoc.2 rfl] at decided
    cases decided
  · rintro ⟨⟨level, op⟩, ⟨r, shift⟩, reduce, least⟩
    obtain ⟨s, at_q⟩ := shift.exists_state
    obtain ⟨p, own, -, -, decided⟩ := reduce.verdict_eq settled fits op
    refine (contents.policy_verdict settled auto at_q op.isInput).refused shift reduce (fun k other lt => ?_)
      (decided.trans (compareLevels_eq_nonassoc.2 rfl))
    exact absurd lt (not_lt_of_ge (least k other))

/-- An operator that associates is shifted before all productions that it outranks, and the first other one is
reduced. -/
theorem Contents.by_levels (op : g.Operator t o) (other : o.associativity ≠ .nonassoc)
    (shift : g.Contender states m la q t ⟨.shift, r⟩) :
    ((∀ k, g.Contender states m la q t ⟨.reduce, k⟩ → g.Outranks o k) →
      T.action.get? ((q : Int), t) = some ⟨.shift, r⟩) ∧
    ∀ n, g.Contender states m la q t ⟨.reduce, n⟩ → ¬ g.Outranks o n →
      (∀ k, g.Contender states m la q t ⟨.reduce, k⟩ → k < n → g.Outranks o k) →
      T.action.get? ((q : Int), t) = some ⟨.reduce, n⟩ := by
  obtain ⟨s, at_q⟩ := shift.exists_state
  have policy := contents.policy_verdict settled auto at_q op.isInput
  have wins {k : Int} (reduce : g.Contender states m la q t ⟨.reduce, k⟩) :=
    reduce.verdict_eq_shift settled fits op other
  constructor
  · exact fun all => policy.kept shift fun k reduce => (wins reduce).2 (all k reduce)
  · intro n reduce yields before
    refine policy.reduced shift reduce (fun k first lt => (wins first).2 (before k first lt)) ?_
    obtain ⟨p, level, -, -, decided⟩ := reduce.verdict_eq settled fits op
    have stays : g.verdict t n ≠ .shift := fun same => yields ((wins reduce).1 same)
    have settles : g.verdict t n ≠ .nonassoc := fun same =>
      other (compareLevels_eq_nonassoc.1 (decided.symm.trans same))
    cases ended : g.verdict t n with
    | shift => exact absurd ended stays
    | reduce => rfl
    | nonassoc => exact absurd ended settles

end Refused

end Grammar

/-! ## Runs -/

/-- A lexer fails only at characters that it does not match. -/
theorem TokenSource.lexer_error {l : Lexer} {e : Error} (failed : TokenSource.lexer l = .error e) :
    ∃ c place, e = .source (.unmatchedInput c place) := by
  rw [TokenSource.lexer, Lexicon.next_eq] at failed
  cases pending : l.pending with
  | some t =>
    rw [Lexicon.peek_of_pending pending] at failed
    cases failed
  | none =>
    rw [Lexicon.peek_of_none pending, Lexer.scanToken_eq] at failed
    cases rest : l.skipIgnored.rest with
    | nil =>
      simp only [Lexer.cutToken, rest] at failed
      cases failed
    | cons c cs =>
      cases hit : (l.skipIgnored.rules.longest (c :: cs)).1 with
      | none =>
        simp only [Lexer.cutToken, rest, hit] at failed
        cases failed
        exact ⟨c, _, rfl⟩
      | some found =>
        obtain ⟨_ | n, k, name⟩ := found
        · simp only [Lexer.cutToken, rest, hit] at failed
          cases failed
          exact ⟨c, _, rfl⟩
        · simp only [Lexer.cutToken, rest, hit] at failed
          cases failed

namespace Parser

open Grammar

variable {σ : Type} {p : Parser} {g : Grammar} {states : Array State} {next : TokenSource σ} {source : σ}
  {c : Config σ} {limit : Nat} {operator ending : String} {place : Option (Int × Int)}

/-- A run that finds an operator in a chain ends with a cell that refuses it. -/
theorem refused_of_run_chained (table : g.symbols.Lawful) (uses : p.Uses g states)
    (quiet : ∀ {s operator place ending}, next s ≠ .error (.source (.chained operator place ending)))
    (failed : (p.run next limit c).verdict = .failed (.source (.chained operator place ending))) :
    ∃ (q : Nat) (t n : Int), (p.run next limit c).steps.getLast? = some ⟨⟨.nonassoc, n⟩, q⟩ ∧
      p.tables.action.get? ((q : Int), t) = some ⟨.nonassoc, n⟩ ∧ p.symbols.nameOf t = .ok operator := by
  obtain ⟨c', -, refused | ⟨a, found, undone, last⟩⟩ :=
    run_failure (fun _ => True) (fun _ _ => trivial) trivial failed
  · have uncelled := uncelled_of_cell refused
    generalize c'.lookahead = look at uncelled
    cases uncelled with
    | misfit misfit => cases misfit
  · rcases cell_cases table uses c' with ⟨e, refused⟩ | ⟨t, a', found', cell, look⟩
    · cases found.symm.trans refused
    · cases found.symm.trans found'
      obtain ⟨q, same, -, -⟩ := uses.tables.permits cell
      dsimp only at same
      rw [same] at cell last
      cases undone_of_perform undone with
      | misfit misfit => cases misfit
      | source read => exact absurd read quiet
      | @chained n token present =>
        refine ⟨q, t, n, last, cell, ?_⟩
        rcases look with ⟨absent, -⟩ | ⟨token', present', s, at_t, named, -⟩
        · cases present.symm.trans absent
        · cases present.symm.trans present'
          rw [uses.symbols, SymbolTable.nameOf, SymbolTable.symbol_eq_ok at_t, ← named]
          rfl
      | @chainedEnd n name absent named =>
        refine ⟨q, t, n, last, cell, ?_⟩
        rcases look with ⟨-, rfl⟩ | ⟨token, present, -⟩
        · exact named
        · cases absent.symm.trans present

theorem refused_of_chained (table : g.symbols.Lawful) (uses : p.Uses g states)
    (quiet : ∀ {s operator place ending}, next s ≠ .error (.source (.chained operator place ending)))
    (failed : (p.parse next source limit).verdict = .failed (.source (.chained operator place ending))) :
    ∃ (q : Nat) (t n : Int), (p.parse next source limit).steps.getLast? = some ⟨⟨.nonassoc, n⟩, q⟩ ∧
      p.tables.action.get? ((q : Int), t) = some ⟨.nonassoc, n⟩ ∧ p.symbols.nameOf t = .ok operator := by
  rw [parse] at failed ⊢
  rw [initial] at failed ⊢
  cases read : next source with
  | error e =>
    rw [read] at failed
    cases failed
    exact absurd read quiet
  | ok r =>
    rw [read] at failed
    rcases r with _ | ⟨t, rest⟩ <;> exact refused_of_run_chained table uses quiet failed

end Parser

namespace Grammar

variable {g : Grammar}

/-- In the tables of a closed grammar that was made by calls the cells that refuse are those in which an
operator that does not associate could be shifted, each with the first production that could be reduced
instead. Where another operator could be shifted the higher level goes first. A run that finds an operator in
a chain ends with such a cell for it. -/
theorem Declared.chains_refused (declared : Declared g) (closed : g.closed = true) :
    ∃ passes g₁ states la g₂, analyze g = .ok passes g₁ ∧ g₁.states = .ok states ∧
      computeLookaheads states g₁ = .ok la g₂ ∧ ∀ m : Method, ∃ T g₃, buildTables m.name g = .ok T g₃ ∧
        (∀ (q : Nat) (t n : Int), T.action.get? ((q : Int), t) = some ⟨.nonassoc, n⟩ ↔
          g₁.Chain states m la q t n) ∧
        (∀ (q : Nat) (t r : Int) (o : Precedence), g₁.Operator t o → o.associativity ≠ .nonassoc →
          g₁.Contender states m la q t ⟨.shift, r⟩ →
          ((∀ k, g₁.Contender states m la q t ⟨.reduce, k⟩ → g₁.Outranks o k) →
            T.action.get? ((q : Int), t) = some ⟨.shift, r⟩) ∧
          ∀ n, g₁.Contender states m la q t ⟨.reduce, n⟩ → ¬ g₁.Outranks o n →
            (∀ k, g₁.Contender states m la q t ⟨.reduce, k⟩ → k < n → g₁.Outranks o k) →
            T.action.get? ((q : Int), t) = some ⟨.reduce, n⟩) ∧
        ∀ (text : List Char) (limit : Nat) (run : Run),
          ((∃ tokens, run = Parser.parseTokens ⟨T, g₃.symbols, text⟩ tokens limit) ∨
            ∃ lexer, run = Parser.parseText ⟨T, g₃.symbols, text⟩ lexer limit) →
          ∀ operator place ending, run.verdict = .failed (.source (.chained operator place ending)) →
            ∃ (q : Nat) (t n : Int), run.steps.getLast? = some ⟨⟨.nonassoc, n⟩, q⟩ ∧
              g₁.Chain states m la q t n ∧ g₃.symbols.nameOf t = .ok operator := by
  obtain ⟨⟨marker, start, settled⟩, untouched⟩ := declared.complete closed
  obtain ⟨passes, f, la, analyzed, analysed, computed, sets, build⟩ := settled.exists_contents untouched
  have settled' := settled.having f
  have auto : (g.having f).Automaton g.explore := settled'.automaton
  refine ⟨passes, _, g.explore, la, _, analyzed, settled'.states_eq, computed, fun m => ?_⟩
  obtain ⟨T, built, contents⟩ := build m
  have fits : ∀ {q t n}, (g.having f).isInput t = true →
      (g.having f).Contender g.explore m la q t ⟨.reduce, n⟩ → (g.having f).Fits t ⟨.reduce, n⟩ := by
    intro q t n input reduce
    obtain ⟨s, at_q⟩ := reduce.exists_state
    exact settled.fits_candidates analysed sets m at_q t _
      ((settled'.mem_candidates_iff auto at_q input).2 reduce)
  refine ⟨T, _, built, fun q t n => contents.refused_iff settled' auto fits, ?_, ?_⟩
  · exact fun q t r o op other shift => contents.by_levels settled' auto fits op other shift
  · intro text limit run made operator place ending failed
    have uses : Parser.Uses ⟨T, (g.having f).symbols, text⟩ (g.having f) g.explore :=
      ⟨contents.toTabled, rfl⟩
    obtain ⟨q, t, n, last, cell, named⟩ : ∃ (q : Nat) (t n : Int),
        run.steps.getLast? = some ⟨⟨.nonassoc, n⟩, q⟩ ∧
        T.action.get? ((q : Int), t) = some ⟨.nonassoc, n⟩ ∧
        (g.having f).symbols.nameOf t = .ok operator := by
      rcases made with ⟨tokens, rfl⟩ | ⟨lexer, rfl⟩
      · refine Parser.refused_of_chained settled'.table uses (fun {s _ _ _} => ?_) failed
        cases s <;> exact nofun
      · refine Parser.refused_of_chained settled'.table uses (fun {s _ _ _} read => ?_) failed
        obtain ⟨c, place, same⟩ := TokenSource.lexer_error read
        cases same
    exact ⟨q, t, n, last, (contents.refused_iff settled' auto fits).1 cell, named⟩

/-- A comparison with a sum on its left. -/
def comparedSum : List Token :=
  [⟨"term", "a", 1, 1, 0⟩, ⟨"+", "+", 1, 2, 1⟩, ⟨"term", "b", 1, 3, 2⟩, ⟨"<", "<", 1, 4, 3⟩,
    ⟨"term", "c", 1, 5, 4⟩]

/-- Behind a sum a comparison is found in a chain. Behind a comparison a sum is not, since it has the higher
level. -/
theorem chains_refused_relations : Declared relations ∧ relations.closed = true ∧
    ∃ (states : Array State) (la : Lookaheads) (g₁ : Grammar) (T : Tables) (g₃ : Grammar),
      buildTables Method.lalr.name relations = .ok T g₃ ∧ g₁.Chain states .lalr la 6 3 2 ∧
      T.action.get? (5, 4) = some ⟨.shift, 4⟩ ∧
      (Parser.parseTokens ⟨T, g₃.symbols, []⟩ comparedSum 8).verdict =
        .failed (.source (.chained "<" (some (1, 4)) "")) ∧
      ∃ (q : Nat) (t n : Int), (Parser.parseTokens ⟨T, g₃.symbols, []⟩ comparedSum 8).steps.getLast? =
        some ⟨⟨.nonassoc, n⟩, q⟩ ∧ g₁.Chain states .lalr la q t n := by
  obtain ⟨passes, g₁, states, la, g₂, -, -, -, build⟩ :=
    declared_relations.chains_refused closed_relations
  obtain ⟨T, g₃, built, refused, -, runs⟩ := build .lalr
  have tried : Build.Ends (buildTables Method.lalr.name) relations (fun T g =>
      T.action.get? (6, 3) = some ⟨.nonassoc, 2⟩ ∧ T.action.get? (5, 4) = some ⟨.shift, 4⟩ ∧
        (Parser.parseTokens ⟨T, g.symbols, []⟩ comparedSum 8).verdict =
          .failed (.source (.chained "<" (some (1, 4)) ""))) fun _ => False := by decide +kernel
  rw [Build.Ends, built] at tried
  obtain ⟨cell, shifts, failed⟩ := tried
  obtain ⟨q, t, n, last, chain, -⟩ := runs [] 8 _ (.inl ⟨comparedSum, rfl⟩) _ _ _ failed
  exact ⟨declared_relations, closed_relations, states, la, g₁, T, g₃, built, (refused 6 3 2).1 cell, shifts, failed,
    q, t, n, last, chain⟩

/-- A cell may refuse an operator against a production of another level: a comparison is refused behind a sum,
which has the higher level. -/
theorem chains_not_of_one_level :
    ¬ ∀ g : Grammar, Declared g → g.closed = true → ∀ (m : Method) (T : Tables) (g' : Grammar),
      buildTables m.name g = .ok T g' → ∀ (q : Nat) (t n : Int),
        T.action.get? ((q : Int), t) = some ⟨.nonassoc, n⟩ → ∀ (o : Precedence) (p : Production),
          g'.Operator t o → g'.byNumber.get? n = some p → g'.levelOf p = .ok o.level := by
  intro same
  have tried : Build.Ends (buildTables Method.lalr.name) relations (fun T g =>
      T.action.get? (((6 : Nat) : Int), 3) = some ⟨.nonassoc, 2⟩ ∧
        ((g.symbols.at? 3).any fun s => s.isInput ∧ s.precedence = some ⟨.nonassoc, 1⟩) = true ∧
        ((g.byNumber.get? 2).any fun p => (g.levelOf p).toOption = some 2) = true) fun _ => False := by
    decide +kernel
  cases built : buildTables Method.lalr.name relations with
  | error e g' =>
    rw [Build.Ends, built] at tried
    exact tried
  | ok T g' =>
    rw [Build.Ends, built] at tried
    obtain ⟨cell, op, leveled⟩ := tried
    obtain ⟨s, at_t, known⟩ := (Option.any_eq_true _ _).1 op
    obtain ⟨p, hp, two⟩ := (Option.any_eq_true _ _).1 leveled
    have one := same relations declared_relations closed_relations .lalr T g' built 6 3 2 cell ⟨.nonassoc, 1⟩ p
      ⟨s, at_t, of_decide_eq_true known⟩ hp
    rw [one] at two
    cases of_decide_eq_true two

end Grammar

end ParserGenerator
