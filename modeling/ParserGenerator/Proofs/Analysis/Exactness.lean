import ParserGenerator.Proofs.Analysis.Frame
import ParserGenerator.Proofs.Grammar.Calls

/-!
# The analysis is exact

What can stand behind a nonterminal by the occurrences of nonterminals is what stands behind it in some
derivation. With that, the settled answers, FIRST and FOLLOW say of every nonterminal exactly what
derivations say, whether it can be reached from the start symbol or not.
-/

namespace ParserGenerator.Grammar

variable {g : Grammar} {marker start c id n t : Int} {p : Production} {α γ δ ζ : List Int}

/-! ## Derivations from occurrences -/

/-- A nonterminal stands where it occurs, with what its neighbours derive behind it. -/
theorem derives_occurrence (hp : g.byNumber.get? n = some p)
    (right : p.right = α ++ id :: γ) (nonterminal : g.isNonterminal id = true)
    (behind : g.Derives (g.erased γ) δ) : g.Derives [p.left] (g.erased α ++ id :: δ) := by
  have first : g.Rewrites [p.left] (g.erased p.right) := by simpa using Rewrites.rule [] [] hp
  rw [right, erased_append, erased_cons (isAction_of_isNonterminal nonterminal)] at first
  have rest := behind.context (g.erased α ++ [id]) []
  simp only [List.append_nil, List.append_assoc, List.singleton_append] at rest
  exact .head first rest

/-- The end marker is in no right-hand side, so nothing begins with it. -/
theorem Begins.ne_endMarker (sound : g.Lawful) (h : g.Begins γ t) (absent : endMarkerId ∉ γ) :
    t ≠ endMarkerId := by
  induction h with
  | read _ => exact fun eq => absent (eq ▸ List.mem_cons_self)
  | skip _ _ ih => exact ih fun mem => absent (List.mem_cons_of_mem _ mem)
  | rule hp _ ih => exact ih fun mem => (sound.right hp _ mem).1 rfl

theorem Lawful.endMarker_notMem (sound : g.Lawful) (hp : g.byNumber.get? n = some p)
    (right : p.right = α ++ id :: γ) : endMarkerId ∉ γ := by
  intro mem
  exact (sound.right hp endMarkerId (by simp [right, mem])).1 rfl

/-- What succeeds a nonterminal stands behind it in a derivation. -/
theorem Succeeds.derives (sound : g.Lawful) (h : g.Succeeds start id t) (other : t ≠ endMarkerId) :
    ∃ c α β, g.isNonterminal c = true ∧ g.Derives [c] (α ++ id :: t :: β) := by
  induction h with
  | ends => exact absurd rfl other
  | closes _ => exact absurd rfl other
  | begins hp right nonterminal begins =>
    obtain ⟨β, behind⟩ := begins.derives sound
    exact ⟨_, _, β, sound.isNonterminal_left hp, derives_occurrence hp right nonterminal behind⟩
  | passes hp right nonterminal vanish _ ih =>
    rename_i n id t p α' _ _
    obtain ⟨c, α, β, from_c, derives⟩ := ih other
    have last := derives_occurrence hp right nonterminal (sound.nullable_iff.2 vanish)
    have inside := last.context α (t :: β)
    simp only [List.append_assoc, List.cons_append, List.nil_append] at inside
    refine ⟨c, α ++ g.erased α', β, from_c, derives.trans ?_⟩
    rwa [List.append_assoc]

/-- The end marker succeeds the start marker and what the start symbol ends with. -/
theorem Succeeds.ends_derivation (settled : g.Settled marker start)
    (h : g.Succeeds start id endMarkerId) : id = marker ∨ ∃ α, g.Derives [start] (α ++ [id]) := by
  have sound := settled.toLawful
  generalize eq : endMarkerId = t at h
  induction h with
  | ends => exact .inr ⟨[], .refl⟩
  | closes hp =>
    rw [settled.zero] at hp
    cases hp
    exact .inl rfl
  | begins hp right _ begins =>
    exact absurd eq.symm (begins.ne_endMarker sound (sound.endMarker_notMem hp right))
  | passes hp right nonterminal vanish _ ih =>
    rename_i n id t p α γ _
    rcases ih eq with marked | ⟨δ, derives⟩
    · -- Production 0 has the start symbol alone on its right.
      obtain rfl := settled.marker_left hp marked
      rw [settled.zero] at hp
      cases hp
      obtain ⟨rfl, rfl, rfl⟩ : α = [] ∧ id = start ∧ γ = [] := by
        rcases α with _ | ⟨x, α⟩
        · cases right
          exact ⟨rfl, rfl, rfl⟩
        · simp at right
      exact .inr ⟨[], .refl⟩
    · have last := derives_occurrence hp right nonterminal (sound.nullable_iff.2 vanish)
      have inside := last.context δ []
      simp only [List.append_nil] at inside
      refine .inr ⟨δ ++ g.erased α, derives.trans ?_⟩
      rwa [List.append_assoc]

/-! ## Occurrences from derivations -/

/-- In what a nonterminal derives, each nonterminal is succeeded by what begins behind it, and at the end
by what succeeds the whole. -/
theorem Derives.succeeds (sound : g.Lawful) (h : g.Derives [c] δ) (eq : δ = α ++ id :: ζ)
    (nonterminal : g.isNonterminal id = true) :
    (∀ t, g.Begins ζ t → g.Succeeds start id t) ∧
      ((∀ x ∈ ζ, g.Vanishes x) → ∀ t, g.Succeeds start c t → g.Succeeds start id t) := by
  induction h generalizing α id ζ with
  | refl =>
    obtain ⟨rfl, rfl, rfl⟩ : α = [] ∧ id = c ∧ ζ = [] := by
      rcases α with _ | ⟨x, α⟩
      · cases eq
        exact ⟨rfl, rfl, rfl⟩
      · simp at eq
    exact ⟨nofun, fun _ _ succeeds => succeeds⟩
  | tail _ step ih =>
    obtain ⟨before, behind, hp⟩ := step
    rename_i n p _
    rcases of_append_eq_append_cons eq with ⟨ζ', rfl, rfl⟩ | ⟨δ', rfl, rest⟩
    · -- The nonterminal stands before the replaced one, and what is behind it came from that.
      obtain ⟨begin, last⟩ := ih (α := α) (ζ := ζ' ++ p.left :: behind) (by simp) nonterminal
      refine ⟨fun t begins => begin t ?_, fun vanish => last ?_⟩
      · rw [begins_append, begins_append, begins_erased sound] at begins
        rw [begins_append]
        rcases begins with first | ⟨vanish, first | ⟨vanish', second⟩⟩
        · exact .inl first
        · exact .inr ⟨vanish, .rule hp first⟩
        · exact .inr ⟨vanish, .skip (.rule hp (vanish_of_erased vanish')) second⟩
      · simp only [List.mem_append, or_imp, forall_and] at vanish
        simp only [List.mem_append, List.mem_cons, or_imp, forall_and, forall_eq]
        exact ⟨vanish.1, .rule hp (vanish_of_erased vanish.2.1), vanish.2.2⟩
    · rcases of_append_eq_append_cons rest with ⟨ζ', inside, rfl⟩ | ⟨δ'', rfl, rfl⟩
      · -- It comes from the production itself.
        obtain ⟨α', γ, right, -, rfl⟩ := exists_of_erased inside
        obtain ⟨begin, last⟩ := ih rfl (sound.isNonterminal_left hp)
        refine ⟨fun t begins => ?_, fun vanish t succeeds => ?_⟩
        · rcases begins_append.1 begins with first | ⟨vanish, second⟩
          · exact .begins hp right nonterminal ((begins_erased sound).1 first)
          · exact .passes hp right nonterminal (vanish_of_erased vanish) (begin t second)
        · simp only [List.mem_append, or_imp, forall_and] at vanish
          exact .passes hp right nonterminal (vanish_of_erased vanish.1) (last vanish.2 t succeeds)
      · -- It stands behind the replaced one.
        exact ih (α := before ++ p.left :: δ'') (by simp) nonterminal

/-! ## All answers -/

section Answers

variable (settled : g.Settled marker start) {f : Facts} (analysed : g.Analysed start f)
  (nonterminal : g.isNonterminal id = true)
include settled analysed nonterminal

theorem Analysed.isNullable_iff_derives : f.isNullable id = true ↔ g.Derives [id] [] := by
  obtain ⟨s, at_s, -⟩ := isNonterminal_iff.1 nonterminal
  obtain ⟨b, known⟩ := analysed.answered.total at_s
  have kept : g.erased [id] = [id] := erased_cons (isAction_of_isNonterminal nonterminal) []
  have derives : g.Derives [id] [] ↔ g.Vanishes id := by
    have nullable := settled.nullable_iff (γ := [id])
    rw [Nullable, kept] at nullable
    simpa using nullable
  rw [isNullable_iff, known, Option.some_inj, derives]
  exact analysed.answered.truthful known

theorem Analysed.mem_firstOf_iff_derives :
    t ∈ f.firstOf id ↔ g.isInput t = true ∧ ∃ β, g.Derives [id] (t :: β) := by
  obtain ⟨s, at_s, -⟩ := isNonterminal_iff.1 nonterminal
  have kept : g.erased [id] = [id] := erased_cons (isAction_of_isNonterminal nonterminal) []
  rw [analysed.firsts ⟨s, at_s⟩, ← settled.first_iff, First, kept]

theorem Analysed.mem_followOf_iff_derives (other : t ≠ endMarkerId) :
    t ∈ f.followOf id ↔ g.isInput t = true ∧
      ∃ c α β, g.isNonterminal c = true ∧ g.Derives [c] (α ++ id :: t :: β) := by
  have sound := settled.toLawful
  rw [analysed.mem_followOf]
  constructor
  · exact fun succeeds => ⟨succeeds.isInput sound, succeeds.derives sound other⟩
  · rintro ⟨input, c, α, β, -, derives⟩
    exact (derives.succeeds sound rfl nonterminal).1 t (.read input)

theorem Analysed.endMarker_mem_followOf_iff :
    endMarkerId ∈ f.followOf id ↔ id = marker ∨ ∃ α, g.Derives [start] (α ++ [id]) := by
  rw [analysed.mem_followOf]
  constructor
  · exact fun succeeds => succeeds.ends_derivation settled
  · rintro (rfl | ⟨α, derives⟩)
    · exact .closes settled.zero
    · exact (derives.succeeds settled.toLawful rfl nonterminal).2 nofun _ .ends

end Answers

/-- The analysis of a closed grammar that was made by calls tells of every nonterminal exactly whether it
derives the empty word, the terminals that begin what it derives, and the terminals that stand behind it
in what nonterminals derive. The end marker is behind the start marker and behind what the start symbol
ends with. -/
theorem Declared.analysis_exact (declared : Declared g) (closed : g.closed = true) :
    ∃ passes g' marker start, analyze g = .ok passes g' ∧ g.idOfStartMarker = .ok marker ∧
      g.idOfStart = .ok start ∧ ∀ id, g.isNonterminal id = true →
        (g'.facts.isNullable id = true ↔ g.Derives [id] []) ∧
        (∀ t, t ∈ g'.facts.firstOf id ↔ g.isInput t = true ∧ ∃ β, g.Derives [id] (t :: β)) ∧
        (∀ t, t ≠ endMarkerId → (t ∈ g'.facts.followOf id ↔ g.isInput t = true ∧
          ∃ c α β, g.isNonterminal c = true ∧ g.Derives [c] (α ++ id :: t :: β))) ∧
        (endMarkerId ∈ g'.facts.followOf id ↔ id = marker ∨ ∃ α, g.Derives [start] (α ++ [id])) := by
  obtain ⟨⟨marker, start, settled⟩, untouched⟩ := declared.complete closed
  obtain ⟨passes, -, analyzed, f, rfl, analysed⟩ := (settled.ends_analyze untouched).exists_ok
  obtain ⟨m, at_m, named⟩ := settled.marker_name
  refine ⟨passes, _, marker, start, analyzed, settled.table.idOf_eq_ok.2 ⟨m, at_m, named⟩,
    settled.idOfStart_eq g.facts, fun id nonterminal => ⟨?_, fun t => ?_, fun t other => ?_, ?_⟩⟩
  · exact analysed.isNullable_iff_derives settled nonterminal
  · exact analysed.mem_firstOf_iff_derives settled nonterminal
  · exact analysed.mem_followOf_iff_derives settled nonterminal other
  · exact analysed.endMarker_mem_followOf_iff settled nonterminal

/-- Lines of terms behind a mark that may be left out, one way to end them that nothing reaches, and an
action that stands for nothing. -/
def termLineCalls : List Call :=
  [.declareTerminal "term", .declareTerminal ";",
    .addProduction "Line" [.name "Terms", .name "Mark", .name "term"] none none,
    .addProduction "Terms" [] none none,
    .addProduction "Terms" [.name "Terms", .name "term"] none none,
    .addProduction "Mark" [] (some "mark") none,
    .addProduction "Ended" [.name "Line", .name ";"] none none,
    .close none]

def termLines : Grammar := termLineCalls.foldl Call.after .fresh

/-- Terms vanish, a line begins with a term, and a semicolon stands behind it by what cannot be reached. -/
theorem analysis_exact_termLines : Declared termLines ∧ termLines.closed = true ∧
    ∃ passes g', analyze termLines = .ok passes g' ∧
      (g'.facts.isNullable 6 = true ∧ termLines.Derives [6] []) ∧
      (3 ∈ g'.facts.firstOf 5 ∧ ∃ β, termLines.Derives [5] (3 :: β)) ∧
      (4 ∈ g'.facts.followOf 5 ∧
        ∃ c α β, termLines.isNonterminal c = true ∧ termLines.Derives [c] (α ++ 5 :: 4 :: β)) ∧
      (endMarkerId ∉ g'.facts.followOf 6 ∧ ∀ α, ¬ termLines.Derives [5] (α ++ [6])) := by
  have declared : Declared termLines :=
    Declared.fresh.calls (by simp [termLineCalls, Call.Fits, RightSymbol.Fits, startMarkerName])
  have closed : termLines.closed = true := by decide +kernel
  have started : termLines.idOfStart = .ok 5 := by decide +kernel
  have tried : Build.Ends analyze termLines (fun _ g' => g'.facts.isNullable 6 = true ∧
      3 ∈ g'.facts.firstOf 5 ∧ 4 ∈ g'.facts.followOf 5 ∧ endMarkerId ∉ g'.facts.followOf 6)
      fun _ => False := by decide +kernel
  obtain ⟨passes, g', marker, start, analyzed, -, started', exact_answers⟩ :=
    declared.analysis_exact closed
  cases started.symm.trans started'
  rw [Build.Ends, analyzed] at tried
  obtain ⟨vanishes, begins, follows, inside⟩ := tried
  obtain ⟨nullable, -, -, ends⟩ := exact_answers 6 (by decide +kernel)
  obtain ⟨-, first, follow, -⟩ := exact_answers 5 (by decide +kernel)
  refine ⟨declared, closed, passes, g', analyzed, ⟨vanishes, nullable.1 vanishes⟩,
    ⟨begins, ((first 3).1 begins).2⟩, ⟨follows, ((follow 4 (by decide)).1 follows).2⟩, inside, ?_⟩
  exact fun α derives => inside (ends.2 (.inr ⟨α, derives⟩))

end ParserGenerator.Grammar
