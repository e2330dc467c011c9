import ParserGenerator.Proofs.Collection.Attempt
import ParserGenerator.Proofs.Description.Blocks
import ParserGenerator.Proofs.Description.Rendering
import ParserGenerator.Proofs.Lexer.Tokenised

/-!
# Tokens tile the text

The tokens of a written grammar are pieces of its text, one behind the other, and between them stand only
blanks, line feeds and comments. The line and the column are counted on over all that is passed, so each token
has those of the place where it begins.
-/

namespace ParserGenerator.Description

open Lexicon (place place_add located_place)

variable {text rest cs w gap behind : List Char} {c : Char} {offset n : Nat} {position : Position} {t : Token}
  {ts : List Token} {k : TokenKind}

/-! ## What stands between tokens -/

/-- A blank, a line feed or a comment in front of a text. A comment behind two slashes goes to the end of its
line, one behind a slash and a star to the first star that has a slash behind it. -/
inductive Separator (behind : List Char) : List Char → Prop
  | blank {c : Char} (blank : isBlank c = true) : Separator behind [c]
  | feed : Separator behind ['\n']
  | line {comment : List Char} (inside : '\n' ∉ comment) (ends : ∀ c ∈ behind.head?, c = '\n') :
      Separator behind ('/' :: '/' :: comment)
  | block {comment : List Char} (inside : ¬ ['*', '/'] <:+: comment ++ ['*']) :
      Separator behind ('/' :: '*' :: (comment ++ ['*', '/']))

/-- Separators in a row, in front of a text. -/
inductive Gap (behind : List Char) : List Char → Prop
  | nil : Gap behind []
  | cons {w gap : List Char} (first : Separator (gap ++ behind) w) (others : Gap behind gap) :
      Gap behind (w ++ gap)

theorem Gap.blanks (all : ∀ c ∈ w, isBlank c = true) (h : Gap behind gap) : Gap behind (w ++ gap) := by
  induction w with
  | nil => exact h
  | cons c w ih =>
    obtain ⟨first, others⟩ := List.forall_mem_cons.1 all
    rw [List.cons_append, ← List.singleton_append]
    exact .cons (.blank first) (ih others)

/-- A comment ends at the first place where it can. -/
theorem exists_comment (h : commentLength? cs = some n) : ∃ comment rest, cs = comment ++ '*' :: '/' :: rest ∧
    n = comment.length + 2 ∧ ¬ ['*', '/'] <:+: comment ++ ['*'] := by
  fun_induction commentLength? cs generalizing n with
  | case1 rest =>
    cases h
    refine ⟨[], rest, rfl, rfl, fun inside => ?_⟩
    exact absurd inside.length_le (by decide)
  | case2 c cs apart ih =>
    obtain ⟨m, inner, rfl⟩ := Option.map_eq_some_iff.1 h
    obtain ⟨comment, rest, rfl, rfl, first⟩ := ih inner
    refine ⟨c :: comment, rest, rfl, rfl, fun inside => ?_⟩
    rcases List.infix_cons_iff.1 inside with ⟨more, same⟩ | later
    · obtain ⟨star, same⟩ := List.cons.inj same
      cases comment with
      | nil => cases same
      | cons d comment =>
        obtain ⟨slash, -⟩ := List.cons.inj same
        exact apart _ star.symm (congrArg (· :: _) slash.symm)
    · exact first later
  | case3 => cases h

/-- What is skipped is a part of the text that separates tokens there. -/
structure Skipped (cs : List Char) (n : Nat) : Prop where
  filled : 0 < n
  inside : n ≤ cs.length
  gap : ∀ {gap behind}, cs.drop n = gap ++ behind → Gap behind gap → Gap behind (cs.take n ++ gap)

theorem skipped_append (w rest : List Char) (some : w ≠ [])
    (gap : ∀ {gap behind}, rest = gap ++ behind → Gap behind gap → Gap behind (w ++ gap)) :
    Skipped (w ++ rest) w.length := by
  refine ⟨List.length_pos_iff.2 some, ?_, fun {_ _} same others => ?_⟩
  · rw [List.length_append]
    exact Nat.le_add_right _ _
  · rw [List.drop_left] at same
    rw [List.take_left]
    exact gap same others

theorem skipped_blanks (blank : isBlank c = true) :
    Skipped (c :: cs) (1 + (cs.takeWhile isBlank).length) := by
  have run := skipped_append (c :: cs.takeWhile isBlank) (cs.dropWhile isBlank)
    (List.cons_ne_nil _ _) fun _ => Gap.blanks fun d mem => by
      rcases List.mem_cons.1 mem with rfl | later
      · exact blank
      · exact List.mem_takeWhile_imp later
  rwa [List.cons_append, List.takeWhile_append_dropWhile, List.length_cons, Nat.add_comm] at run

theorem skipped_feed : Skipped ('\n' :: cs) 1 :=
  skipped_append ['\n'] cs (List.cons_ne_nil _ _) fun _ => Gap.cons .feed

theorem skipped_line : Skipped ('/' :: '/' :: cs) (2 + (cs.takeWhile (· ≠ '\n')).length) := by
  have run := skipped_append ('/' :: '/' :: cs.takeWhile (· ≠ '\n')) (cs.dropWhile (· ≠ '\n'))
    (List.cons_ne_nil _ _) fun {gap behind} same others => by
      refine .cons (.line (fun mem => ?_) fun d mem => ?_) others
      · have other := List.mem_takeWhile_imp mem
        exact of_decide_eq_true other rfl
      · have first := List.head?_dropWhile_not (· ≠ '\n') cs
        rw [same, Option.mem_def.1 mem] at first
        exact Decidable.not_not.1 (of_decide_eq_false first)
  rwa [List.cons_append, List.cons_append, List.takeWhile_append_dropWhile, List.length_cons, List.length_cons,
    Nat.add_comm _ 1, Nat.add_comm _ 1, ← Nat.add_assoc] at run

theorem skipped_block (h : commentLength? cs = some n) : Skipped ('/' :: '*' :: cs) (2 + n) := by
  obtain ⟨comment, rest, rfl, rfl, first⟩ := exists_comment h
  have run := skipped_append ('/' :: '*' :: (comment ++ ['*', '/'])) rest
    (List.cons_ne_nil _ _) fun _ => Gap.cons (.block first)
  rw [List.cons_append, List.cons_append, List.append_assoc, List.length_cons, List.length_cons,
    List.length_append] at run
  rwa [Nat.add_comm 2]

/-! ## What is cut -/

theorem patternLengths_le (cs : List Char) : (∀ n, (patternLengths cs).1 = some n → n ≤ cs.length) ∧
    ∀ n, (patternLengths cs).2 = some n → n + 1 ≤ cs.length := by
  induction cs with
  | nil => exact ⟨nofun, nofun⟩
  | cons c cs ih =>
    obtain ⟨one, two⟩ := ih
    refine ⟨fun n found => ?_, fun n found => Nat.succ_le_succ (one n found)⟩
    have through : ∀ n, (patternLengths cs).1.map (· + 1) = some n → n ≤ cs.length + 1 := by
      intro n found
      obtain ⟨m, inner, rfl⟩ := Option.map_eq_some_iff.1 found
      exact Nat.succ_le_succ (one m inner)
    rw [patternLengths] at found
    dsimp only at found
    rw [List.length_cons]
    split at found
    · rcases (Option.orElse_eq_some _ _ _).1 found with pair | ⟨-, alone⟩
      · obtain ⟨m, inner, rfl⟩ := Option.map_eq_some_iff.1 pair
        exact Nat.succ_le_succ (two m inner)
      · exact through n alone
    · split at found
      · cases found
        exact Nat.le_add_left 1 _
      · split at found
        · cases found
        · exact through n found

theorem patternLength?_le (h : patternLength? cs = some n) : n ≤ cs.length := by
  rw [patternLength?] at h
  split at h
  · cases h
  · exact (patternLengths_le cs).1 n h

theorem literalLength?_le (h : literalLength? cs = some n) : n ≤ cs.length := by
  fun_induction literalLength? cs generalizing n with
  | case1 =>
    cases h
    exact Nat.le_add_left 1 _
  | case2 c cs ih =>
    obtain ⟨m, inner, rfl⟩ := Option.map_eq_some_iff.1 h
    exact Nat.add_le_add_right (ih inner) 2
  | case3 => cases h
  | case4 c cs _ _ _ ih =>
    obtain ⟨m, inner, rfl⟩ := Option.map_eq_some_iff.1 h
    exact Nat.succ_le_succ (ih inner)
  | case5 => cases h

/-- The text is cut off as a token of the kind, which is neither a block nor the end of the text. -/
structure CutOff (k : TokenKind) (cs : List Char) (n : Nat) : Prop where
  filled : 0 < n
  inside : n ≤ cs.length
  other : k ≠ .action
  goes_on : k ≠ .finish

/-- The tokens of a single character. -/
def singles : List (Char × TokenKind) :=
  [('%', .percent), (':', .colon), (';', .semicolon), ('|', .bar), ('(', .openGroup), (')', .closeGroup),
    ('?', .question), ('*', .star), ('+', .plus)]

theorem lexeme?_single : ∀ s ∈ singles, ∀ cs, lexeme? s.1 cs = some (some s.2, 1) := by
  simp only [singles, List.forall_mem_cons, List.not_mem_nil, false_implies, implies_true, and_true]
  exact ⟨fun _ => rfl, fun _ => rfl, fun _ => rfl, fun _ => rfl, fun _ => rfl, fun _ => rfl, fun _ => rfl,
    fun _ => rfl, fun _ => rfl⟩

theorem lexeme?_other (blank : isBlank c = false) (feed : c ≠ '\n') (slash : c ≠ '/')
    (single : c ∉ singles.map Prod.fst) : lexeme? c cs =
      if c = '"' then (literalLength? cs).bind fun n => some (some .literal, 1 + n)
      else if isIdentStart c then some (some .ident, 1 + (cs.takeWhile isIdentPart).length)
      else none := by
  simp only [singles, List.map_cons, List.map_nil, List.mem_cons, List.not_mem_nil, or_false, not_or] at single
  unfold lexeme?
  simp only [blank, feed, slash, single, if_false, Bool.false_eq_true]

theorem lexeme?_block (found : commentLength? cs = some n) :
    lexeme? '/' ('*' :: cs) = some (none, 2 + n) := by
  unfold lexeme?
  rw [if_neg (by decide), if_neg (by decide), if_pos rfl]
  simp only [found]

theorem lexeme?_slash (line : ∀ r, cs ≠ '/' :: r) (block : ∀ r, cs = '*' :: r → commentLength? r = none) :
    lexeme? '/' cs = (patternLength? cs).bind fun n => some (some .pattern, 1 + n) := by
  unfold lexeme?
  rw [if_neg (by decide), if_neg (by decide), if_pos rfl]
  split
  · exact absurd rfl (line _)
  · rw [block _ rfl]
  · rfl

theorem CutOff.of_le (le : n ≤ cs.length) (other : k ≠ .action) (goes_on : k ≠ .finish) :
    CutOff k (c :: cs) (1 + n) := by
  refine ⟨Nat.add_pos_left Nat.one_pos n, ?_, other, goes_on⟩
  rw [Nat.add_comm]
  exact Nat.succ_le_succ le

theorem lexeme?_cases {o : Option TokenKind} (h : lexeme? c cs = some (o, n)) :
    o = none ∧ Skipped (c :: cs) n ∨ ∃ k, o = some k ∧ CutOff k (c :: cs) n := by
  by_cases blank : isBlank c = true
  · unfold lexeme? at h
    rw [if_pos blank] at h
    cases h
    exact .inl ⟨rfl, skipped_blanks blank⟩
  by_cases feed : c = '\n'
  · subst feed
    obtain ⟨rfl, rfl⟩ := Prod.mk.inj (Option.some.inj h)
    exact .inl ⟨rfl, skipped_feed⟩
  -- A length that is found behind the first character is one of what is left.
  have found : ∀ {found : Option Nat} (k : TokenKind), (∀ m, found = some m → m ≤ cs.length) → k ≠ .action →
      k ≠ .finish → (found.bind fun m => some (some k, 1 + m)) = some (o, n) →
        ∃ k, o = some k ∧ CutOff k (c :: cs) n := by
    intro found k le other goes_on h
    obtain ⟨m, same, h⟩ := Option.bind_eq_some_iff.1 h
    cases h
    exact ⟨k, rfl, .of_le (le m same) other goes_on⟩
  by_cases slash : c = '/'
  · subst slash
    by_cases line : ∃ r, cs = '/' :: r
    · obtain ⟨r, rfl⟩ := line
      obtain ⟨rfl, rfl⟩ := Prod.mk.inj (Option.some.inj h)
      exact .inl ⟨rfl, skipped_line⟩
    by_cases block : ∃ r m, cs = '*' :: r ∧ commentLength? r = some m
    · obtain ⟨r, m, rfl, comment⟩ := block
      rw [lexeme?_block comment] at h
      cases h
      exact .inl ⟨rfl, skipped_block comment⟩
    rw [lexeme?_slash (fun r same => line ⟨r, same⟩) fun r same => Option.eq_none_iff_forall_ne_some.2
      fun m comment => block ⟨r, m, same, comment⟩] at h
    exact .inr (found .pattern (fun _ => patternLength?_le) nofun nofun h)
  by_cases single : c ∈ singles.map Prod.fst
  · obtain ⟨⟨c, k⟩, mem, rfl⟩ := List.mem_map.1 single
    rw [lexeme?_single _ mem] at h
    cases h
    have kinds : ∀ s ∈ singles, s.2 ≠ .action ∧ s.2 ≠ .finish := by decide
    exact .inr ⟨k, rfl, .of_le (Nat.zero_le _) (kinds _ mem).1 (kinds _ mem).2⟩
  rw [lexeme?_other (Bool.eq_false_iff.2 blank) feed slash single] at h
  split at h
  · exact .inr (found .literal (fun _ => literalLength?_le) nofun nofun h)
  · split at h
    · cases h
      exact .inr ⟨.ident, rfl, .of_le (List.takeWhile_sublist _).length_le nofun nofun⟩
    · cases h

/-! ## Tokens of a text -/

/-- The token is a piece of the text, a block of action code with the braces around it, and its line and its
column are those of the place where it begins. -/
structure IsToken (text : List Char) (t : Token) : Prop where
  ordered : t.start ≤ t.stop
  inside : t.stop ≤ text.length
  piece : text.extract t.start t.stop = t.word.spelling
  located : Located text t.start t.position.line t.position.column

/-- The tokens are pieces of the text, one behind the other, with separators in front of the first one and
between each two of them; the last one is empty and marks the end of the text. -/
structure Tiled (text : List Char) (ts : List Token) : Prop where
  pieces : ∀ t ∈ ts, IsToken text t
  increasing : ts.Pairwise fun t u => t.start < t.stop ∧ t.stop ≤ u.start
  front : ∀ t ∈ ts.head?, Gap (text.drop t.start) (text.take t.start)
  between : ts.IsChain fun t u => Gap (text.drop u.start) (text.extract t.stop u.start)
  last : ∃ others, (∀ t ∈ others, t.kind ≠ .finish) ∧ ∃ position,
    ts = others ++ [⟨.finish, [], text.length, text.length, position⟩]

/-- The tokens of a text from an offset on. -/
inductive Tiles (text : List Char) : Nat → List Token → Prop
  | finish {p : Nat} (inside : p ≤ text.length) (gap : Gap [] (text.drop p)) :
      Tiles text p [⟨.finish, [], text.length, text.length, place text text.length⟩]
  | cons {p : Nat} {t : Token} {ts : List Token} (before : p ≤ t.start)
      (gap : Gap (text.drop t.start) (text.extract p t.start)) (piece : IsToken text t)
      (filled : t.start < t.stop) (goes_on : t.kind ≠ .finish) (others : Tiles text t.stop ts) :
      Tiles text p (t :: ts)

variable {p q : Nat}

theorem extract_append_drop (le : p ≤ q) : text.extract p q ++ text.drop q = text.drop p := by
  have parts := List.take_append_drop (q - p) (text.drop p)
  rwa [List.drop_drop, Nat.add_sub_cancel' le] at parts

theorem take_append_extract (le : p + n ≤ q) :
    (text.drop p).take n ++ text.extract (p + n) q = text.extract p q := by
  show _ ++ ((text.drop (p + n)).take (q - (p + n))) = (text.drop p).take (q - p)
  rw [← List.drop_drop, ← List.take_add, show n + (q - (p + n)) = q - p by omega]

/-- What is skipped in front of tokens belongs to the gap before them. -/
theorem Tiles.skip (h : Tiles text (p + n) ts) (skipped : Skipped (text.drop p) n) : Tiles text p ts := by
  cases h with
  | finish inside gap =>
    refine .finish (Nat.le_of_add_right_le inside) ?_
    have whole := skipped.gap (by rw [List.drop_drop, List.append_nil]) gap
    rwa [← List.drop_drop, List.take_append_drop] at whole
  | cons before gap piece filled goes_on others =>
    refine .cons (Nat.le_of_add_right_le before) ?_ piece filled goes_on others
    have whole := skipped.gap (by rw [List.drop_drop, extract_append_drop before]) gap
    rwa [take_append_extract before] at whole

/-- A token that is cut off at a place stands there without a gap. -/
theorem Tiles.cut (h : Tiles text (p + n) ts) (inside : p + n ≤ text.length) (filled : 0 < n)
    (goes_on : k ≠ .finish) (piece : (text.drop p).take n = Word.spelling ⟨k, w⟩) :
    Tiles text p (⟨k, w, p, p + n, place text p⟩ :: ts) := by
  have le : p ≤ p + n := Nat.le_add_right p n
  have extracted : text.extract p (p + n) = (text.drop p).take n := by
    show (text.drop p).take (p + n - p) = _
    rw [Nat.add_sub_cancel_left]
  refine .cons (Nat.le_refl p) ?_ ⟨le, inside, extracted.trans piece, ?_⟩ (Nat.lt_add_of_pos_right filled)
    goes_on h
  · have none : text.extract p p = [] := by
      show (text.drop p).take (p - p) = []
      rw [Nat.sub_self, List.take_zero]
    rw [none]
    exact .nil
  · exact located_place (le.trans inside)

/-- What is left of a text begins with what is cut off. -/
theorem take_cons_of_le (c : Char) (cs : List Char) (filled : 0 < n) :
    ∃ m, n = m + 1 ∧ (c :: cs).take n = c :: cs.take m ∧ (c :: cs).drop n = cs.drop m := by
  obtain ⟨m, rfl⟩ := Nat.exists_eq_succ_of_ne_zero filled.ne'
  exact ⟨m, rfl, rfl, rfl⟩

section Steps

-- The text is read on behind what was cut off, with the place that belongs there.
variable (others : ∀ {n ts}, 0 < n → p + n ≤ text.length → scanFrom text (p + n)
  ((place text p).afterAll ((text.drop p).take n)) ((text.drop p).drop n) = .ok ts → Tiles text (p + n) ts)
include others

theorem tiles_of_block (rest : text.drop p = '\x7b' :: cs)
    (h : scanFrom text p (place text p) ('\x7b' :: cs) = .ok ts) : Tiles text p ts := by
  cases found : blockBody? {} cs with
  | none =>
    rw [scanFrom_unterminated found] at h
    cases h
  | some body =>
    obtain ⟨-, behind, rfl⟩ := blockBody?_eq_some.1 found
    have whole : text.drop p = ('\x7b' :: (body ++ ['\x7d'])) ++ behind := rest
    have length_block : ('\x7b' :: (body ++ ['\x7d'])).length = body.length + 2 := by simp
    rw [List.append_assoc, List.singleton_append] at h found
    rw [scanFrom_block found] at h
    obtain ⟨us, read, rfl⟩ := Attempt.map_eq_ok.1 h
    have filled : 0 < body.length + 2 := Nat.succ_pos _
    have within : p + (body.length + 2) ≤ text.length := by
      have length := congrArg List.length whole
      rw [List.length_drop, List.length_append, length_block] at length
      omega
    refine Tiles.cut (others filled within ?_) within filled nofun ?_
    · rw [whole, List.take_left' length_block, List.drop_left' length_block]
      exact read
    · rw [whole, List.take_left' length_block]
      rfl

theorem tiles_of_lexeme (brace : c ≠ '\x7b') (rest : text.drop p = c :: cs)
    (h : scanFrom text p (place text p) (c :: cs) = .ok ts) : Tiles text p ts := by
  have length : text.length - p = (c :: cs).length := by rw [← rest, List.length_drop]
  cases cut : lexeme? c cs with
  | none =>
    rw [scanFrom_stuck brace cut] at h
    cases h
  | some found =>
    obtain ⟨o, n⟩ := found
    rcases lexeme?_cases cut with ⟨rfl, skipped⟩ | ⟨k, rfl, cutOff⟩
    · have within : p + n ≤ text.length := by
        have filled := skipped.filled
        have inside := skipped.inside
        omega
      obtain ⟨m, rfl, taken, dropped⟩ := take_cons_of_le c cs skipped.filled
      rw [scanFrom_skipped brace cut] at h
      rw [← rest] at skipped taken dropped
      refine Tiles.skip (others skipped.filled within ?_) skipped
      rwa [taken, dropped]
    · have within : p + n ≤ text.length := by
        have filled := cutOff.filled
        have inside := cutOff.inside
        omega
      obtain ⟨m, rfl, taken, dropped⟩ := take_cons_of_le c cs cutOff.filled
      rw [scanFrom_token brace cut] at h
      obtain ⟨us, read, rfl⟩ := Attempt.map_eq_ok.1 h
      rw [← rest] at taken dropped
      refine Tiles.cut (others cutOff.filled within ?_) within cutOff.filled cutOff.goes_on ?_
      · rwa [taken, dropped]
      · rw [taken]
        exact (if_neg cutOff.other).symm

end Steps

theorem tiles_of_scanFrom (inside : p ≤ text.length)
    (h : scanFrom text p (place text p) (text.drop p) = .ok ts) : Tiles text p ts := by
  generalize left : text.length - p = m
  induction m using Nat.strongRecOn generalizing p ts with
  | ind m ih =>
    have others : ∀ {n ts}, 0 < n → p + n ≤ text.length → scanFrom text (p + n)
        ((place text p).afterAll ((text.drop p).take n)) ((text.drop p).drop n) = .ok ts →
          Tiles text (p + n) ts := by
      intro n ts filled within read
      rw [← place_add, List.drop_drop] at read
      exact ih _ (by omega) within read rfl
    cases rest : text.drop p with
    | nil =>
      rw [rest, scanFrom_nil] at h
      cases h
      have ended : p = text.length := Nat.le_antisymm inside (List.drop_eq_nil_iff.1 rest)
      subst ended
      exact .finish inside (by rw [rest]; exact .nil)
    | cons c cs =>
      rw [rest] at h
      by_cases brace : c = '\x7b'
      · subst brace
        exact tiles_of_block others rest h
      · exact tiles_of_lexeme others brace rest h

/-! ## Texts that are cut into tokens -/

namespace Tiles

theorem head (h : Tiles text p ts) : ∀ t ∈ ts.head?,
    p ≤ t.start ∧ Gap (text.drop t.start) (text.extract p t.start) := by
  cases h with
  | finish inside gap =>
    rintro _ ⟨⟩
    refine ⟨inside, ?_⟩
    have whole : text.extract p text.length = text.drop p :=
      List.take_of_length_le (by rw [List.length_drop])
    dsimp only
    rwa [List.drop_length, whole]
  | cons before gap =>
    rintro _ ⟨⟩
    exact ⟨before, gap⟩

theorem le_start (h : Tiles text p ts) : ∀ t ∈ ts, p ≤ t.start := by
  induction h with
  | finish inside _ => exact List.forall_mem_singleton.2 inside
  | cons before _ _ filled _ _ ih =>
    exact List.forall_mem_cons.2 ⟨before, fun u mem => by have := ih u mem; omega⟩

theorem pieces (h : Tiles text p ts) : ∀ t ∈ ts, IsToken text t := by
  induction h with
  | finish inside _ =>
    refine List.forall_mem_singleton.2 ⟨Nat.le_refl _, Nat.le_refl _, ?_, located_place (Nat.le_refl _)⟩
    show (text.drop text.length).take _ = []
    rw [List.drop_length, List.take_nil]
  | cons _ _ piece _ _ _ ih => exact List.forall_mem_cons.2 ⟨piece, ih⟩

theorem increasing (h : Tiles text p ts) : ts.Pairwise fun t u => t.start < t.stop ∧ t.stop ≤ u.start := by
  induction h with
  | finish => exact List.pairwise_singleton _ _
  | cons _ _ _ filled _ others ih =>
    exact List.pairwise_cons.2 ⟨fun u mem => ⟨filled, others.le_start u mem⟩, ih⟩

theorem between (h : Tiles text p ts) :
    ts.IsChain fun t u => Gap (text.drop u.start) (text.extract t.stop u.start) := by
  induction h with
  | finish => exact List.isChain_singleton _
  | cons _ _ _ _ _ others ih => exact List.isChain_cons.2 ⟨fun u mem => (others.head u mem).2, ih⟩

theorem last (h : Tiles text p ts) : ∃ others, (∀ t ∈ others, t.kind ≠ .finish) ∧ ∃ position,
    ts = others ++ [⟨.finish, [], text.length, text.length, position⟩] := by
  induction h with
  | finish => exact ⟨[], nofun, _, rfl⟩
  | @cons p t ts _ _ _ _ goes_on _ ih =>
    obtain ⟨others, plain, position, rfl⟩ := ih
    exact ⟨t :: others, List.forall_mem_cons.2 ⟨goes_on, plain⟩, position, rfl⟩

end Tiles

/-- A text that is scanned is tiled by its tokens. -/
theorem scan_tiles {source : String} (h : scan source = .ok ts) : Tiled source.toList ts := by
  have tiles : Tiles source.toList 0 ts := tiles_of_scanFrom (Nat.zero_le _) h
  exact {
    pieces := tiles.pieces
    increasing := tiles.increasing
    front := fun t mem => (tiles.head t mem).2
    between := tiles.between
    last := tiles.last }

/-- A rule with comments of both forms, and with line feeds in a comment and in a block of action code. -/
theorem scan_tiles_commented : ∃ ts, scan "S // a rule\n : /* of\none */ \"a\" \x7b \"\\\n\x7d\" \x7d ;" = .ok ts ∧
    ts.length = 6 ∧
    Tiled "S // a rule\n : /* of\none */ \"a\" \x7b \"\\\n\x7d\" \x7d ;".toList ts := by
  obtain ⟨ts, scanned, length⟩ : ∃ ts, scan "S // a rule\n : /* of\none */ \"a\" \x7b \"\\\n\x7d\" \x7d ;" = .ok ts ∧
    ts.length = 6 := ⟨_, by with_unfolding_all rfl, rfl⟩
  exact ⟨ts, scanned, length, scan_tiles scanned⟩

end ParserGenerator.Description
