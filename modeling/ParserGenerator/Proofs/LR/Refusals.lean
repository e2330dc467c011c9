import ParserGenerator.Proofs.LR.Completeness
import ParserGenerator.Proofs.LR.Failures
import ParserGenerator.Proofs.LR.Follow

/-!
# Where input is refused

In a grammar in which every nonterminal derives a word, the tokens that a run has read always begin a
sentence, however conflicts were resolved: what stands on the stack can be completed. Without conflicts
a refusal tells of the first token with which this is not so any more, since up to that token the run
would have been the same for every other input.
-/

namespace ParserGenerator

open Grammar

/-- The number of tokens that a run has read. -/
def Run.shifts (r : Run) : Nat := r.steps.countP (·.action.kind = .shift)

theorem Run.shifts_shift {k q : Int} {steps : List Step} {v : Verdict} :
    (⟨⟨⟨.shift, k⟩, q⟩ :: steps, v⟩ : Run).shifts = (⟨steps, v⟩ : Run).shifts + 1 :=
  List.countP_cons_of_pos (decide_eq_true rfl)

/-- The refusal tells of the given token, or of the end of the input. -/
inductive SourceError.Refuses : SourceError → Option Token → Prop
  | unknown (t : Token) (ending : String) :
      Refuses (.unknownToken t.kind t.line t.column ending) (some t)
  | unexpected (t : Token) (choices : List String) (ending : String) :
      Refuses (.refused t.kind t.line t.column choices ending) (some t)
  | chained (t : Token) (ending : String) :
      Refuses (.chained t.kind (some (t.line, t.column)) ending) (some t)
  | unexpectedEnd (choices : List String) (ending : String) : Refuses (.refusedAtEnd choices ending) none
  | chainedEnd (operator ending : String) : Refuses (.chained operator none ending) none

namespace Grammar

variable {g : Grammar} {marker start : Int} {states : Array State} {q : Nat} {α u : List Int}

/-- The words of the language. -/
def Sentence (g : Grammar) (start : Int) (w : List Int) : Prop := g.Terminals w ∧ g.Derives [start] w

def SpellsSentence (g : Grammar) (start : Int) (tokens : List Token) : Prop :=
  ∃ w, g.Spells tokens w ∧ g.Sentence start w

/-- The tokens are the first of a sentence. -/
def BeginsSentence (g : Grammar) (start : Int) (tokens : List Token) : Prop :=
  ∃ w v, g.Spells tokens w ∧ g.Sentence start (w ++ v)

theorem Automaton.exists_holds (auto : g.Automaton states) (trail : Trail states 0 α q) :
    ∃ it, Holds states q it := by
  rcases List.eq_nil_or_concat α with rfl | ⟨α, x, rfl⟩
  · cases trail
    exact ⟨.initial, auto.holds_initial⟩
  · rw [List.concat_eq_append] at trail
    obtain ⟨o, -, last⟩ := trail.split
    cases last with
    | cons step rest =>
      cases rest
      obtain ⟨-, it, holds, expects⟩ := auto.moves step
      exact ⟨it.advance, auto.shift holds expects step⟩

/-- What leads to a state can be completed. -/
theorem Settled.completable (settled : g.Settled marker start) (productive : g.Productive)
    (auto : g.Automaton states) (trail : Trail states 0 α q) (yields : g.Yields α u) :
    ∃ v, g.Sentence start (u ++ v) := by
  obtain ⟨⟨n, k⟩, holds⟩ := auto.exists_holds trail
  obtain ⟨t, canonical⟩ := auto.canonical settled productive trail holds
  obtain ⟨p, hp, inside⟩ := auto.valid holds
  obtain ⟨β, γ, right, rfl⟩ : ∃ β γ, p.right = β ++ γ ∧ β.length = k :=
    ⟨p.right.take k, p.right.drop k, (List.take_append_drop ..).symm, List.length_take_of_le inside⟩
  obtain ⟨w, ns, terminal, derivation, -⟩ :=
    settled.exposed hp right (settled.validFor_of_canonical productive canonical)
  have registered : ∀ id ∈ γ, ∃ s, g.symbols.at? id = some s :=
    fun id mem => (settled.right hp id (right ▸ List.mem_append_right _ mem)).2
  obtain ⟨v, behind⟩ := productive.exists_yields settled registered
  have whole := yields.append (behind.append (yields_self terminal))
  obtain ⟨ms, rest⟩ := whole.rightmost
  exact ⟨v ++ w, whole.terminals, derivation.derives.trans rest.derives⟩

end Grammar

namespace Parser

variable {p : Parser} {g : Grammar} {marker start : Int} {states : Array State} {q : Nat}
  {below α u : List Int} {tokens tokens' : List Token} {limit limit' k : Nat}

/-! ## What refusals tell -/

/-- Where no cell is found, that is because of the lookahead. -/
theorem refuses_of_cell {σ : Type} {c : Config σ} {e : SourceError}
    (refused : p.cell c = .error (.source e)) : e.Refuses c.lookahead := by
  have uncelled := uncelled_of_cell refused
  generalize c.lookahead = look at uncelled
  cases uncelled with
  | misfit misfit => cases misfit
  | unknown => exact .unknown _ _
  | unexpected t names => exact .unexpected t names _
  | unexpectedEnd names => exact .unexpectedEnd names _

theorem refuses_of_perform {σ : Type} {next : TokenSource σ} {c : Config σ} {e : SourceError} {n : Int}
    (refused : p.perform next c ⟨.nonassoc, n⟩ = .error (.source e)) : e.Refuses c.lookahead := by
  cases undone_of_perform refused with
  | misfit misfit => cases misfit
  | chained look =>
    rw [look]
    exact .chained _ _
  | chainedEnd look =>
    rw [look]
    exact .chainedEnd _ _

section Runs

variable (settled : g.Settled marker start) (auto : g.Automaton states) (uses : p.Uses g states)
include settled auto uses

/-- The tokens that are read begin a sentence, behind what the stack stands for. -/
theorem run_prefix (productive : g.Productive) (stacked : Stacked states q below α)
    (yields : g.Yields α u) (tokens : List Token) (limit : Nat) :
    ∃ w v, g.Spells (tokens.take (p.run TokenSource.list limit (config q below tokens)).shifts) w ∧
      g.Sentence start (u ++ (w ++ v)) := by
  have unread : ∀ {q below α u} {tokens : List Token}, Stacked states q below α → g.Yields α u →
      ∃ w v, g.Spells (tokens.take 0) w ∧ g.Sentence start (u ++ (w ++ v)) := by
    intro q below α u tokens stacked yields
    obtain ⟨v, sentence⟩ := settled.completable productive auto stacked.trail yields
    exact ⟨[], v, .nil, sentence⟩
  induction limit generalizing q below α u tokens with
  | zero =>
    rcases cell_cases settled.table uses (config q below tokens) with ⟨e, refused⟩ | ⟨x, a, found, -⟩
    · rw [run_refused refused]
      exact unread stacked yields
    · rw [run_zero found]
      exact unread stacked yields
  | succ limit ih =>
    cases stepFrom settled auto uses stacked tokens with
    | refused refused =>
      rw [run_refused refused]
      exact unread stacked yields
    | chained found failed =>
      rw [run_failed found failed]
      exact unread stacked yields
    | accept found _ _ =>
      rw [run_accepted found rfl]
      exact unread stacked yields
    | shift eq terminal _ found performed stacked' =>
      subst eq
      rename_i x _ _
      have input : g.isInput x = true := by
        obtain ⟨s, at_s, -, input⟩ := terminal
        exact isInput_iff.2 ⟨s, at_s, input⟩
      obtain ⟨w, v, spells, sentence⟩ := ih stacked' (yields.append (.read input .nil)) _
      rw [run_step found performed, Run.shifts_shift, List.take_succ_cons]
      refine ⟨x :: w, v, .cons terminal spells, ?_⟩
      rwa [List.append_assoc] at sentence
    | reduce hp eq found performed stacked' =>
      subst eq
      obtain ⟨v, w, rfl, before, own⟩ := yields.split
      have yields' := before.append (.rule hp own .nil)
      rw [List.append_nil] at yields'
      rw [run_step found (performed tokens)]
      exact ih stacked' yields' _

/-- A refusal tells of the first token that was not read. -/
theorem run_refuses (stacked : Stacked states q below α) (tokens : List Token)
    {e : Error} (failed : (p.run TokenSource.list limit (config q below tokens)).verdict = .failed e) :
    ∃ s : SourceError, e = .source s ∧
      s.Refuses tokens[(p.run TokenSource.list limit (config q below tokens)).shifts]? := by
  have sound := settled.toLawful
  have unread : (tokens : List Token) → tokens.head? = tokens[0]? := fun tokens => List.head?_eq_getElem?
  induction limit generalizing q below α tokens with
  | zero =>
    rcases cell_cases sound.table uses (config q below tokens) with ⟨e', refused⟩ | ⟨x, a, found, -⟩
    · rw [run_refused refused] at failed ⊢
      cases failed
      exact ⟨e', rfl, unread tokens ▸ refuses_of_cell refused⟩
    · rw [run_zero found] at failed
      cases failed
  | succ limit ih =>
    cases stepFrom settled auto uses stacked tokens with
    | refused refused =>
      rw [run_refused refused] at failed ⊢
      cases failed
      exact ⟨_, rfl, unread tokens ▸ refuses_of_cell refused⟩
    | chained found failed' =>
      rw [run_failed found failed'] at failed ⊢
      cases failed
      exact ⟨_, rfl, unread tokens ▸ refuses_of_perform failed'⟩
    | accept found _ _ =>
      rw [run_accepted found rfl] at failed
      cases failed
    | shift eq _ _ found performed stacked' =>
      subst eq
      rw [run_step found performed] at failed ⊢
      rw [Run.shifts_shift, List.getElem?_cons_succ]
      exact ih stacked' _ failed
    | reduce _ _ found performed stacked' =>
      rw [run_step found (performed tokens)] at failed ⊢
      exact ih stacked' _ failed

/-- Of a run that refuses a token nothing changes with other tokens behind it. -/
theorem run_agrees (stacked : Stacked states q below α) {e : Error}
    (failed : (p.run TokenSource.list limit (config q below tokens)).verdict = .failed e)
    (same : tokens.take ((p.run TokenSource.list limit (config q below tokens)).shifts + 1) =
      tokens'.take ((p.run TokenSource.list limit (config q below tokens)).shifts + 1))
    (enough : limit ≤ limit') :
    ∃ e', (p.run TokenSource.list limit' (config q below tokens')).verdict = .failed e' := by
  have look : ∀ {k : Nat} {ts ts' : List Token}, ts.take (k + 1) = ts'.take (k + 1) →
      ts.head? = ts'.head? := by
    intro k ts ts' same
    have := congrArg List.head? same
    rwa [List.head?_take, List.head?_take, if_neg k.succ_ne_zero, if_neg k.succ_ne_zero] at this
  induction limit generalizing q below α tokens tokens' limit' with
  | zero =>
    have alike : p.cell (config q below tokens) = p.cell (config q below tokens') := cell_congr (look same)
    rcases cell_cases settled.table uses (config q below tokens) with ⟨e, refused⟩ | ⟨x, a, found, -⟩
    · exact ⟨_, by rw [run_refused (alike.symm.trans refused)]⟩
    · rw [run_zero found] at failed
      cases failed
  | succ limit ih =>
    have alike : p.cell (config q below tokens) = p.cell (config q below tokens') := cell_congr (look same)
    obtain ⟨limit', rfl⟩ := Nat.exists_eq_add_of_le' (Nat.le_of_add_left_le enough)
    have enough : limit ≤ limit' := by omega
    cases stepFrom settled auto uses stacked tokens with
    | refused refused => exact ⟨_, by rw [run_refused (alike.symm.trans refused)]⟩
    | chained found _ =>
      obtain ⟨e, failed'⟩ := perform_nonassoc settled.table uses (config q below tokens') _
      exact ⟨_, by rw [run_failed (alike.symm.trans found) failed']⟩
    | accept found _ _ =>
      rw [run_accepted found rfl] at failed
      cases failed
    | shift eq _ _ found performed stacked' =>
      subst eq
      rw [run_step found performed] at failed same
      rw [Run.shifts_shift, List.take_succ_cons] at same
      cases tokens' with
      | nil => cases same
      | cons t' ts' =>
        rw [List.take_succ_cons] at same
        rw [run_step (alike.symm.trans found) perform_shift]
        exact ih stacked' failed (List.cons_eq_cons.1 same).2 enough
    | reduce _ _ found performed stacked' =>
      rw [run_step found (performed tokens)] at failed same
      rw [run_step (alike.symm.trans found) (performed tokens')]
      exact ih stacked' failed same enough

omit settled auto uses in
theorem take_continued {behind : List Token} (h : tokens[k]? = none → behind = []) :
    (tokens.take (k + 1) ++ behind).take (k + 1) = tokens.take (k + 1) := by
  cases next : tokens[k]? with
  | none => rw [h next, List.append_nil, List.take_take, Nat.min_self]
  | some t => rw [List.take_left' (List.length_take_of_le (List.getElem?_eq_some_iff.1 next).1)]

/-- Without conflicts no sentence has the tokens of a refusal in front: its own run would be accepted. -/
theorem run_separates (covering : g.Covering states p.tables) {e : Error} {w v : List Int}
    (failed : (p.run TokenSource.list limit (config 0 [] tokens)).verdict = .failed e)
    (spells : g.Spells
      (tokens.take ((p.run TokenSource.list limit (config 0 [] tokens)).shifts + 1)) w)
    (whole : tokens[(p.run TokenSource.list limit (config 0 [] tokens)).shifts]? = none → v = []) :
    ¬ g.Sentence start (w ++ v) := by
  rintro ⟨terminal, derives⟩
  obtain ⟨ns, derivation⟩ := (yields_of_derives derives terminal).rightmost
  obtain ⟨behind, spells'⟩ := Terminals.exists_spells (List.forall_mem_append.1 terminal).2
  have pending : g.Pending start ns.reverse [] (w ++ v) := by
    refine settled.pending ?_ terminal (.inl rfl)
    rwa [List.reverse_reverse]
  have nothing : tokens[(p.run TokenSource.list limit (config 0 [] tokens)).shifts]? = none →
      behind = [] := by
    intro next
    obtain rfl := whole next
    cases spells'
    rfl
  obtain ⟨e', failed'⟩ := run_agrees settled auto uses .bottom failed (take_continued nothing).symm
    (Nat.le_add_right limit ((w ++ v).length + ns.reverse.length + 1))
  have enough : (w ++ v).length + ns.reverse.length <
      limit + ((w ++ v).length + ns.reverse.length + 1) := by omega
  have accepted := (run_complete settled auto uses covering .bottom (List.rel_append spells spells')
    pending enough).1
  rw [failed'] at accepted
  cases accepted

end Runs

end Parser

namespace Grammar

variable {g : Grammar} {start : Int}

/-- How far tokens are read with the tables of a grammar: the number of conflicts in the tables, the number
of tokens read, and how the run ends. -/
def reach (g : Grammar) (m : Method) (tokens : List Token) (limit : Nat) : Option (Nat × Nat × Verdict) :=
  match buildTables m.name g with
  | .ok t g' =>
    let r := Parser.parseTokens ⟨t, g'.symbols, []⟩ tokens limit
    some (t.conflicts.length, r.shifts, r.verdict)
  | .error _ _ => none

theorem reach_eq {m : Method} {t : Tables} {g' : Grammar} (built : buildTables m.name g = .ok t g')
    (tokens : List Token) (limit : Nat) :
    g.reach m tokens limit = some (t.conflicts.length,
      (Parser.parseTokens ⟨t, g'.symbols, []⟩ tokens limit).shifts,
      (Parser.parseTokens ⟨t, g'.symbols, []⟩ tokens limit).verdict) := by
  rw [reach, built]

theorem sentence_having {f : Facts} {w : List Int} :
    (g.having f).Sentence start w ↔ g.Sentence start w :=
  ⟨fun h => ⟨h.1, h.2.having g.facts⟩, fun h => ⟨h.1, h.2.having f⟩⟩

theorem Productive.having (productive : g.Productive) (f : Facts) : (g.having f).Productive := by
  intro id nonterminal
  obtain ⟨w, terminal, derives⟩ := productive id nonterminal
  exact ⟨w, terminal, derives.having f⟩

/-- If every nonterminal derives a word, the tokens that are read at any time begin a sentence, however
conflicts were resolved. Without conflicts a refusal tells of a token with which, behind those that were
read, no sentence begins, or of the end of tokens that are no sentence. -/
theorem Declared.parse_refuses (declared : Declared g) (closed : g.closed = true)
    (started : g.idOfStart = .ok start) (m : Method) :
    ∃ t g', buildTables m.name g = .ok t g' ∧
      ∀ (text : List Char) (tokens : List Token) (limit : Nat) (r : Run),
        Parser.parseTokens ⟨t, g'.symbols, text⟩ tokens limit = r →
          (g.Productive → g.BeginsSentence start (tokens.take r.shifts)) ∧
          (t.conflicts = [] → ∀ e, r.verdict = .failed e →
            (∃ s, e = .source s ∧ s.Refuses tokens[r.shifts]?) ∧
            (∀ token, tokens[r.shifts]? = some token →
              ¬ g.BeginsSentence start (tokens.take r.shifts ++ [token])) ∧
            (tokens[r.shifts]? = none → ¬ g.SpellsSentence start tokens)) := by
  obtain ⟨⟨marker, settled⟩, untouched⟩ := declared.settled_at closed started
  obtain ⟨t, f, built, uses, clear⟩ := settled.exists_tables untouched m
  refine ⟨t, g.having f, built, ?_⟩
  rintro text tokens limit r rfl
  have settled' := settled.having f
  have auto := settled'.automaton
  rw [Parser.parseTokens_eq (uses text)]
  refine ⟨fun productive => ?_, fun clean e failed => ⟨?_, ?_, ?_⟩⟩
  · obtain ⟨w, v, spells, sentence⟩ :=
      Parser.run_prefix settled' auto (uses text) (productive.having f) .bottom .nil tokens limit
    exact ⟨w, v, spells, sentence_having.1 sentence⟩
  · exact Parser.run_refuses settled' auto (uses text) .bottom tokens failed
  · rintro token next ⟨w, v, spells, sentence⟩
    have read := List.take_add_one (l := tokens)
      (i := (Parser.run ⟨t, (g.having f).symbols, text⟩ TokenSource.list limit
        (Parser.config 0 [] tokens)).shifts)
    rw [next, Option.toList_some] at read
    rw [← read] at spells
    refine Parser.run_separates settled' auto (uses text) (clear clean).1 failed spells ?_
      (sentence_having.2 sentence)
    rw [next]
    exact nofun
  · rintro ended ⟨w, spells, sentence⟩
    have all := List.take_of_length_le (Nat.le_succ_of_le (List.getElem?_eq_none_iff.1 ended))
    rw [← List.append_nil w] at sentence
    exact Parser.run_separates settled' auto (uses text) (clear clean).1 failed (all.symm ▸ spells)
      (fun _ => rfl) (sentence_having.2 sentence)

def doubleAssignment : List Token :=
  [⟨"id", "a", 1, 1, 0⟩, ⟨"=", "=", 1, 3, 2⟩, ⟨"=", "=", 1, 4, 3⟩]

/-- The second sign of equality is refused: no assignment has two of them behind the first place. -/
theorem parse_refuses_pointers :
    ∃ t g', buildTables Method.lalr.name pointers = .ok t g' ∧ t.conflicts = [] ∧
      (Parser.parseTokens ⟨t, g'.symbols, []⟩ doubleAssignment 8).shifts = 2 ∧
      pointers.BeginsSentence 7 (doubleAssignment.take 2) ∧
      ¬ pointers.BeginsSentence 7 doubleAssignment := by
  obtain ⟨t, g', built, refuses⟩ :=
    declared_pointers.parse_refuses closed_pointers idOfStart_pointers .lalr
  have tried : pointers.reach .lalr doubleAssignment 8 =
      some (0, 2, .failed (.source (.refused "=" 1 4 ["*", "id"] ""))) := by
    decide +kernel
  simp only [reach_eq built, Option.some.injEq, Prod.mk.injEq, List.length_eq_zero_iff] at tried
  obtain ⟨clean, shifts, failed⟩ := tried
  obtain ⟨viable, wrong⟩ := refuses [] doubleAssignment 8 _ rfl
  have begins := viable productive_pointers
  obtain ⟨-, separates, -⟩ := wrong clean _ failed
  rw [shifts] at begins separates
  exact ⟨t, g', built, clean, shifts, begins, separates _ rfl⟩

end Grammar

end ParserGenerator
