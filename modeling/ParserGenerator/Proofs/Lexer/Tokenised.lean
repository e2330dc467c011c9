import ParserGenerator.Proofs.Lexer.Tokens

/-!
# Texts and their tokens

The tokens of a text are pieces of it, cut one behind the other, and what lies between them is ignored.
Each carries the line and the column where it begins. A text is refused exactly if the lexer comes to a
position where it cannot go on.
-/

namespace ParserGenerator

/-- The position is in the line and the column: the line feeds before it are counted, and the characters
behind the last of them. -/
structure Located (text : List Char) (p : Nat) (line column : Int) : Prop where
  line : line = 1 + (text.take p).count '\n'
  column : ∃ s ≤ p, column = p - s + 1 ∧ (s = 0 ∨ 0 < s ∧ text[s - 1]? = some '\n') ∧
    ∀ i, s ≤ i → i < p → text[i]? ≠ some '\n'

namespace Located

variable {text : List Char} {p : Nat} {line column line' column' : Int}

theorem unique (h : Located text p line column) (h' : Located text p line' column') :
    line = line' ∧ column = column' := by
  refine ⟨h.line.trans h'.line.symm, ?_⟩
  obtain ⟨s, le, rfl, start, inside⟩ := h.column
  obtain ⟨s', le', rfl, start', inside'⟩ := h'.column
  have same : ¬ s < s' ∧ ¬ s' < s := by
    constructor
    · intro less
      obtain ⟨-, feed⟩ := start'.resolve_left (by omega)
      exact inside (s' - 1) (by omega) (by omega) feed
    · intro less
      obtain ⟨-, feed⟩ := start.resolve_left (by omega)
      exact inside' (s - 1) (by omega) (by omega) feed
  omega

end Located

namespace Lexicon

variable {x : Lexicon} {text : List Char} {p q e : Nat} {t : Token} {ts : List Token} {l : Lexer}

theorem place_succ {c : Char} (at_p : text[p]? = some c) : place text (p + 1) = (place text p).after c := by
  rw [place, place, List.take_add_one, at_p, Position.afterAll_append]
  rfl

/-- Lines and columns that are counted on from character to character are those of the positions. -/
theorem located_place (inside : p ≤ text.length) :
    Located text p (place text p).line (place text p).column := by
  induction p with
  | zero => exact ⟨rfl, 0, Nat.le_refl 0, rfl, .inl rfl, fun i _ less => absurd less (Nat.not_lt_zero i)⟩
  | succ p ih =>
    obtain ⟨line, s, le, column, start, before⟩ := ih (Nat.le_of_succ_le inside)
    obtain ⟨c, at_p⟩ : ∃ c, text[p]? = some c := ⟨_, List.getElem?_eq_getElem inside⟩
    have count : (text.take (p + 1)).count '\n' = (text.take p).count '\n' + if c = '\n' then 1 else 0 := by
      rw [List.take_add_one, at_p, List.count_append]
      simp [List.count_singleton]
    rw [place_succ at_p, Position.after]
    by_cases feed : c = '\n'
    · rw [if_pos feed]
      rw [if_pos feed] at count
      refine ⟨?_, p + 1, Nat.le_refl _, ?_, .inr ⟨Nat.succ_pos p, feed ▸ at_p⟩, fun i _ _ => by omega⟩
      · dsimp only
        omega
      · dsimp only
        omega
    · rw [if_neg feed]
      rw [if_neg feed] at count
      refine ⟨?_, s, by omega, ?_, start, fun i from_s to_p => ?_⟩
      · dsimp only
        omega
      · dsimp only
        omega
      · by_cases last : i = p
        · rw [last, at_p]
          exact fun same => feed (Option.some.inj same)
        · exact before i from_s (by omega)

/-! ## The tokens of a text -/

/-- The token is a piece of the text at the position, the longest match there of the rule that it is named
for, where nothing is ignored. -/
structure IsToken (x : Lexicon) (text : List Char) (p : Nat) (t : Token) : Prop where
  offset : t.offset = p
  nonempty : t.text ≠ ""
  piece : t.text.toList = (text.drop p).take t.text.length
  rests : x.Rests text p
  takes : x.Takes text p t.text.length t.kind
  located : Located text p t.line t.column

/-- Between the tokens, and behind the last one, everything is ignored. -/
def Gaps (x : Lexicon) (text : List Char) : Nat → List Token → Prop
  | p, [] => x.Skips text p text.length
  | p, t :: ts => ∃ q : Nat, t.offset = q ∧ x.Skips text p q ∧ x.Gaps text (q + t.text.length) ts

structure Tokenised (x : Lexicon) (text : List Char) (ts : List Token) : Prop where
  tokens : ∀ t ∈ ts, ∃ p : Nat, x.IsToken text p t
  increasing : ts.Pairwise (·.offset < ·.offset)
  gaps : x.Gaps text 0 ts

theorem Cut.isToken (h : x.Cut text p t q) : x.IsToken text p t ∧ q = p + t.text.length := by
  obtain ⟨n, takes, piece, rfl⟩ := h.taken
  have le := takes.le
  have length : t.text.length = n := by
    rw [piece, String.length_ofList, List.length_take, List.length_drop]
    omega
  have list : t.text.toList = (text.drop p).take t.text.length := by
    rw [length, piece, String.toList_ofList]
  refine ⟨⟨h.offset, ?_, list, h.rests, length ▸ takes, ?_⟩, by rw [length]⟩
  · rintro empty
    rw [empty] at length
    exact absurd length takes.1.ne
  · rw [h.line, h.column]
    exact located_place (Nat.le_of_add_right_le le)

/-- A token of a run was cut at a position that the lexer came to, in front of the one where it stops. -/
theorem Run.isToken (run : x.Run text p ts e) (reached : x.Reaches text p) (mem : t ∈ ts) :
    ∃ q, x.Reaches text q ∧ x.IsToken text q t ∧ q + t.text.length ≤ e := by
  induction run with
  | nil => cases mem
  | @cons p q r e u us skips cut rest ih =>
    obtain ⟨token, rfl⟩ := cut.isToken
    have here := reached.skips skips
    have behind := here.cut token.rests token.takes
    rcases List.mem_cons.1 mem with rfl | later
    · exact ⟨q, here, token, Nat.le_of_add_right_le rest.length_le⟩
    · exact ih behind later

theorem Run.le_offset (h : x.Run text p ts e) : ∀ t ∈ ts, (p : Int) ≤ t.offset := by
  induction h with
  | nil => exact nofun
  | cons skips cut _ ih =>
    have := skips.le
    obtain ⟨token, rfl⟩ := cut.isToken
    refine List.forall_mem_cons.2 ⟨by rw [cut.offset]; omega, fun u mem => ?_⟩
    have := ih u mem
    omega

theorem Run.gaps (h : x.Run text p ts e) (last : e = text.length) : x.Gaps text p ts := by
  induction h with
  | nil skips _ =>
    subst last
    exact skips
  | cons skips cut _ ih =>
    obtain ⟨-, rfl⟩ := cut.isToken
    exact ⟨_, cut.offset, skips, ih last⟩

theorem Run.increasing (h : x.Run text p ts e) : ts.Pairwise (·.offset < ·.offset) := by
  induction h with
  | nil => exact .nil
  | cons skips cut rest ih =>
    obtain ⟨token, rfl⟩ := cut.isToken
    refine List.pairwise_cons.2 ⟨fun u mem => ?_, ih⟩
    have := rest.le_offset u mem
    have := token.takes.1
    rw [cut.offset]
    omega

/-- The tokens of a run to the end of a text. -/
theorem Run.tokenised (h : x.Run text 0 ts text.length) : x.Tokenised text ts where
  tokens t mem := by
    obtain ⟨q, -, token, -⟩ := h.isToken .start mem
    exact ⟨q, token⟩
  increasing := h.increasing
  gaps := h.gaps rfl

/-! ## Lexers that were used before -/

/-- The lexer of a lexicon. -/
def lexer (x : Lexicon) : Lexer := Lexer.ofRulesBy x.property x.rules x.ignored

end Lexicon

namespace Lexer

/-- What can be called on a lexer. -/
inductive Call where
  | reset (text : List Char)
  | peek | next
  | tokens (text : List Char)

/-- The lexer behind an operation, also behind one that fails. -/
def leaves {α : Type} (m : Lexing α) (l : Lexer) : Lexer :=
  match m l with
  | .ok _ l' => l'
  | .error _ l' => l'

/-- The lexer behind a call. -/
def after (l : Lexer) : Call → Lexer
  | .reset text => l.reset text
  | .peek => leaves peek l
  | .next => leaves next l
  | .tokens text => leaves (tokens text) l

theorem tokens_eq {l : Lexer} {text : List Char} :
    tokens text l = take (text.length + 1) [] (l.reset text) := rfl

end Lexer

namespace Lexicon

variable {x : Lexicon} {text : List Char} {p e : Nat} {ts : List Token} {l : Lexer}

theorem stands_lexer : x.Stands x.lexer [] 0 where
  sound := Nfa.sound_ofRulesBy
  below := rfl
  ignored := List.forall₂_map_left_iff.2 (List.forall₂_same.2 fun _ _ => ⟨Nfa.sound_ofRegexBy, rfl⟩)
  whole := rfl
  inside := Nat.le_refl 0
  rest := rfl
  offset := rfl
  position := rfl

theorem Stands.reset (h : x.Stands l text p) (text' : List Char) : x.Stands (l.reset text') text' 0 :=
  ⟨h.sound, h.below, h.ignored, rfl, Nat.zero_le _, rfl, rfl, rfl⟩

/-- Set to a text, a lexer yields the tokens of a run through it. -/
theorem Stands.exists_yields (h : x.Stands l text p) (text' : List Char) :
    ∃ ts e, x.Run text' 0 ts e ∧ x.Yields (l.reset text') text' ts e := by
  obtain ⟨ts, e, run⟩ := (h.reset text').exists_run
  exact ⟨ts, e, run, (h.reset text').yields run rfl⟩

/-- All tokens of a text are taken, or its failure is told. -/
theorem Yields.tokens (run : x.Run text 0 ts e) (h : x.Yields (l.reset text) text ts e) :
    ∃ l' p, x.Stands l' text p ∧ Lexer.tokens text l =
      match failureAt text e with
      | none => .ok ts l'
      | some error => .error error l' := by
  have length := run.length_le
  have inside : e ≤ text.length := by
    rcases run.halt with rfl | fails
    · exact Nat.le_refl _
    · exact fails.1.le
  rw [Lexer.tokens_eq]
  exact h.take (by omega)

/-- A lexer that was called still stands somewhere. -/
theorem Stands.after (h : x.Stands l text p) (call : Lexer.Call) :
    ∃ text' p', x.Stands (l.after call) text' p' := by
  obtain ⟨ts, e, run⟩ := h.exists_run
  have peeked := (h.yields run rfl).peek
  cases call with
  | reset text' => exact ⟨text', 0, h.reset text'⟩
  | peek =>
    rw [Lexer.after, Lexer.leaves]
    generalize Lexer.peek l = result at peeked
    obtain ⟨p', stands⟩ := peeked.stands
    cases result <;> exact ⟨text, p', stands⟩
  | next =>
    rw [Lexer.after, Lexer.leaves, next_eq]
    generalize Lexer.peek l = result at peeked
    obtain ⟨p', stands⟩ := peeked.stands
    cases result with
    | ok t l' => exact ⟨text, p', stands.withPending none⟩
    | error e l' => exact ⟨text, p', stands⟩
  | tokens text' =>
    obtain ⟨ts', e', run', yields⟩ := h.exists_yields text'
    obtain ⟨l', p', stands, same⟩ := yields.tokens run'
    rw [Lexer.after, Lexer.leaves, same]
    cases failureAt text' e' <;> exact ⟨text', p', stands⟩

/-- Whatever was called before, the lexer stands somewhere. -/
theorem stands_foldl_after (x : Lexicon) (calls : List Lexer.Call) :
    ∃ text p, x.Stands (calls.foldl Lexer.after x.lexer) text p := by
  induction calls using List.reverseRecOn with
  | nil => exact ⟨[], 0, stands_lexer⟩
  | append_singleton calls call ih =>
    obtain ⟨text, p, stands⟩ := ih
    rw [List.foldl_append]
    exact stands.after call

/-! ## Tokens and failures of a text -/

/-- The failure at a position where the process stops, told with its line, its column and the character
there. -/
structure Stuck (x : Lexicon) (text : List Char) (error : Error) (p : Nat) : Prop where
  reached : x.Reaches text p
  fails : x.Fails text p
  told : ∃ position c, Located text p position.line position.column ∧ text[p]? = some c ∧
    error = .source (.unmatchedInput c (Place.within text position p))

theorem failureAt_eq_some_iff {error : Error} : failureAt text p = some error ↔
    ∃ position c, Located text p position.line position.column ∧ text[p]? = some c ∧
      error = .source (.unmatchedInput c (Place.within text position p)) := by
  unfold failureAt
  constructor
  · intro failure
    obtain ⟨c, at_p, rfl⟩ := Option.map_eq_some_iff.1 failure
    exact ⟨place text p, c, located_place (List.getElem?_eq_some_iff.1 at_p).1.le, at_p, rfl⟩
  · rintro ⟨position, c, located, at_p, rfl⟩
    obtain ⟨line, column⟩ :=
      located.unique (located_place (List.getElem?_eq_some_iff.1 at_p).1.le)
    have same : position = place text p := by
      cases position
      rw [Position.mk.injEq]
      exact ⟨Int.ofNat_inj.1 line, Int.ofNat_inj.1 column⟩
    rw [at_p, same]
    rfl

theorem Run.stuck {error : Error} (h : x.Run text 0 ts e) (failure : failureAt text e = some error) :
    x.Stuck text error e := by
  refine ⟨h.reaches .start, h.halt.resolve_left ?_, Lexicon.failureAt_eq_some_iff.1 failure⟩
  rintro rfl
  rw [failureAt_length] at failure
  cases failure

/-- A run ends with a failure exactly if the process gets stuck with it. -/
theorem Run.failureAt_eq_some_iff {error : Error} (h : x.Run text 0 ts e) :
    failureAt text e = some error ↔ ∃ p, x.Stuck text error p := by
  constructor
  · exact fun failure => ⟨e, h.stuck failure⟩
  · rintro ⟨p, reached, fails, told⟩
    rw [← reached.eq_of_fails fails h]
    exact Lexicon.failureAt_eq_some_iff.2 told

theorem Run.eq_length (h : x.Run text 0 ts e) (none : failureAt text e = none) : e = text.length := by
  rcases h.halt with last | ⟨inside, -⟩
  · exact last
  · rw [failureAt, List.getElem?_eq_getElem inside] at none
    cases none

/-- A lexer tokenises: whatever was done with it before, the tokens of a text are its longest matches, with
nothing but what is ignored between them and each with its line and column; it refuses the text exactly if
it gets stuck, with the position where it does; and looks and takes in any order hand out the same tokens. -/
theorem tokens_exact (x : Lexicon) (calls : List Lexer.Call) (text : List Char) :
    (∀ ts l, Lexer.tokens text (calls.foldl Lexer.after x.lexer) = .ok ts l → x.Tokenised text ts) ∧
      (∀ error, (∃ l, Lexer.tokens text (calls.foldl Lexer.after x.lexer) = .error error l) ↔
        ∃ p, x.Stuck text error p) ∧
      ∃ ts failure,
        (match Lexer.tokens text (calls.foldl Lexer.after x.lexer) with
          | .ok all _ => all = ts ∧ failure = none
          | .error error _ => failure = some error) ∧
        ∀ ops, ((calls.foldl Lexer.after x.lexer).reset text).answers ops =
          Lexer.handed failure ts ops := by
  obtain ⟨before, p, stands⟩ := x.stands_foldl_after calls
  generalize calls.foldl Lexer.after x.lexer = l at stands
  obtain ⟨ts, e, run, yields⟩ := stands.exists_yields text
  obtain ⟨l', q, -, tokens⟩ := yields.tokens run
  have stuck (error : Error) : failureAt text e = some error ↔ ∃ p, x.Stuck text error p :=
    run.failureAt_eq_some_iff
  have answers := yields.answers
  rw [tokens]
  cases failure : failureAt text e with
  | none =>
    simp only [failure, reduceCtorEq, false_iff] at stuck
    rw [failure] at answers
    obtain rfl := run.eq_length failure
    refine ⟨fun ts' l'' same => ?_, fun error => ?_, ts, none, ⟨rfl, rfl⟩, answers⟩
    · cases same
      exact run.tokenised
    · simp [stuck error]
  | some error =>
    rw [failure] at answers
    refine ⟨fun ts' l'' same => ?_, fun error' => ?_, ts, some error, rfl, answers⟩
    · cases same
    · rw [← stuck error', failure]
      simp

end Lexicon

end ParserGenerator
