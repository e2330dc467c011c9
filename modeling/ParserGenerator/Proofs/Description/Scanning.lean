import ParserGenerator.Proofs.Description.Blocks
import ParserGenerator.Proofs.Description.Lowering
import ParserGenerator.Proofs.Description.Rendering

/-!
# Written words are cut apart again

In front of a blank or of the end of a text each word of a written grammar is cut off as it is. So a row of words
with blanks between them is cut into these words. What is in quotes is decoded to the text that was quoted.
-/

namespace ParserGenerator.Description

variable {text rest cs body : List Char} {offset : Nat} {position : Position} {c : Char} {s : BlockState}
  {k : TokenKind} {w : Word}

/-- Nothing follows, or a blank does. -/
def Apart (rest : List Char) : Prop := ∀ c ∈ rest.head?, c = ' '

theorem apart_nil : Apart [] := nofun

theorem apart_blank : Apart (' ' :: rest) := by
  rintro _ ⟨⟩
  rfl

/-- The word does not begin with a blank, and where it stands apart it is what is cut off. -/
structure Word.Lexes (w : Word) : Prop where
  opens : ∃ c cs, w.spelling = c :: cs ∧ isBlank c = false
  cuts : ∀ text offset position rest, Apart rest → ∃ t offset' position', Token.word t = w ∧
    scanFrom text offset position (w.spelling ++ rest) =
      (scanFrom text offset' position' rest).map (t :: ·)

theorem lexes_of_lexeme? (open_ : c ≠ '\x7b') (blank : isBlank c = false) (other : k ≠ .action)
    (cut : ∀ rest, Apart rest → lexeme? c (cs ++ rest) = some (some k, cs.length + 1)) :
    Word.Lexes ⟨k, c :: cs⟩ := by
  have spelling : Word.spelling ⟨k, c :: cs⟩ = c :: cs := if_neg other
  refine ⟨⟨c, cs, spelling, blank⟩, fun text offset position rest apart => ?_⟩
  refine ⟨⟨k, c :: cs, offset, offset + (cs.length + 1), position⟩, offset + (cs.length + 1),
    position.afterAll (c :: cs), rfl, ?_⟩
  rw [spelling, List.cons_append, scanFrom_token open_ (cut rest apart), List.take_left, List.drop_left]

/-! ## Single characters, identifiers and patterns -/

/-- The words of a single character. -/
def marks : List Word :=
  [.percent, .colon, .semicolon, .bar, .openGroup, .closeGroup, ⟨.question, ['?']⟩, ⟨.star, ['*']⟩,
    ⟨.plus, ['+']⟩]

theorem lexes_of_mem_marks : ∀ w ∈ marks, w.Lexes := by
  simp only [marks, List.forall_mem_cons, List.not_mem_nil, false_implies, implies_true, and_true]
  refine ⟨?_, ?_, ?_, ?_, ?_, ?_, ?_, ?_, ?_⟩
  all_goals exact lexes_of_lexeme? (by decide) rfl nofun fun _ _ => rfl

theorem takeWhile_apart {p : Char → Bool} (all : cs.all p = true) (stops : p ' ' = false)
    (apart : Apart rest) : (cs ++ rest).takeWhile p = cs := by
  rw [List.takeWhile_append_of_pos (List.all_eq_true.1 all)]
  cases rest with
  | nil => exact List.append_nil cs
  | cons c rest =>
    obtain rfl : c = ' ' := apart c rfl
    rw [List.takeWhile_cons_of_neg (by rw [stops]; exact Bool.false_ne_true), List.append_nil]

/-- What begins an identifier begins no other token. -/
theorem ne_of_isIdentStart {d : Char} (start : isIdentStart c = true) (other : isIdentStart d = false) :
    c ≠ d := by
  rintro rfl
  rw [start] at other
  cases other

theorem lexes_ident {name : String} (ident : isIdent name.toList = true) : (Word.ident name).Lexes := by
  rw [Word.ident]
  cases chars : name.toList with
  | nil =>
    rw [chars] at ident
    cases ident
  | cons c cs =>
    rw [chars, isIdent, Bool.and_eq_true] at ident
    obtain ⟨start, all⟩ := ident
    have ne {d : Char} (other : isIdentStart d = false) : c ≠ d := ne_of_isIdentStart start other
    have blank : isBlank c = false := by
      simp only [isBlank, ne (d := ' ') rfl, ne (d := '\t') rfl, ne (d := '\x0c') rfl, decide_false,
        Bool.or_self]
    refine lexes_of_lexeme? (ne rfl) blank (by decide) fun rest apart => ?_
    simp only [lexeme?, blank, ne (d := '\n') rfl, ne (d := '/') rfl, ne (d := '%') rfl, ne (d := ':') rfl,
      ne (d := ';') rfl, ne (d := '|') rfl, ne (d := '(') rfl, ne (d := ')') rfl, ne (d := '?') rfl,
      ne (d := '*') rfl, ne (d := '+') rfl, ne (d := '"') rfl, start, if_true, if_false, Bool.false_eq_true,
      takeWhile_apart all rfl apart, Nat.add_comm]

theorem patternLengths_body (body : isPatternBody cs = true) (rest : List Char) :
    (patternLengths (cs ++ '/' :: rest)).1 = some (cs.length + 1) := by
  induction cs using isPatternBody.induct with
  | case1 => rfl
  | case2 => cases body
  | case3 c cs ih =>
    have last := ih body
    simp only [List.cons_append, patternLengths, if_true, last]
    rfl
  | case4 c cs single pair ih =>
    rw [isPatternBody] at body
    · simp only [Bool.and_eq_true, decide_eq_true_eq] at body
      have escape : c ≠ '\\' := by
        rintro rfl
        cases cs with
        | nil => exact single rfl rfl
        | cons d cs => exact pair _ _ rfl rfl
      simp only [List.cons_append, patternLengths, escape, body.1.1, body.1.2, if_false, ih body.2]
      rfl
    · exact single
    · exact pair

theorem lexes_pattern {p : String} (pattern : isPattern p.toList = true) : (Word.pattern p).Lexes := by
  simp only [isPattern, Bool.and_eq_true, decide_eq_true_eq] at pattern
  obtain ⟨⟨filled, star⟩, body⟩ := pattern
  refine lexes_of_lexeme? (by decide) rfl nofun fun rest _ => ?_
  have length := patternLengths_body body rest
  rw [List.append_assoc, List.singleton_append, List.length_append, List.length_singleton, Nat.add_comm]
  generalize p.toList = cs at filled star body length
  cases cs with
  | nil => exact absurd rfl filled
  | cons c cs =>
    have slash : c ≠ '/' := by
      rintro rfl
      cases body
    have pattern : patternLength? (c :: cs ++ '/' :: rest) = some ((c :: cs).length + 1) := by
      rw [patternLength?, if_neg (by simpa using slash), length]
    have comment : c ≠ '*' := by
      rintro rfl
      exact star rfl
    unfold lexeme?
    rw [if_neg (by decide), if_neg (by decide), if_pos rfl]
    split
    · rename_i same
      exact absurd (List.cons.inj same).1 slash
    · rename_i same
      exact absurd (List.cons.inj same).1 comment
    · rw [pattern]
      rfl

/-! ## Blocks of action code -/

theorem lexes_action {code : String} (balanced : isBalanced code.toList = true) :
    (Word.action code).Lexes := by
  have spelling : (Word.action code).spelling = '\x7b' :: (code.toList ++ ['\x7d']) := rfl
  refine ⟨⟨_, _, spelling, rfl⟩, fun text offset position rest _ => ?_⟩
  have body := (blockBody?_eq_some.1 (of_decide_eq_true balanced)).1.blockBody?_eq rest
  refine ⟨⟨.action, code.toList, offset, offset + code.toList.length + 2, position⟩,
    offset + code.toList.length + 2, position.afterAll ('\x7b' :: (code.toList ++ ['\x7d'])), rfl, ?_⟩
  rw [spelling, List.cons_append, List.append_assoc, List.singleton_append]
  exact scanFrom_block body

/-! ## Quoted literals -/

theorem literalLength?_escaped (c : Char) (cs : List Char) :
    literalLength? (escaped c ++ cs) = (literalLength? cs).map (· + (escaped c).length) := by
  unfold escaped
  split
  case h_6 quote backslash _ _ _ => 
    rw [List.singleton_append, literalLength?]
    · rfl
    · exact quote
    · exact fun _ _ same _ => backslash same
    · exact fun same _ => backslash same
  case h_5 =>
    cases h : literalLength? cs <;> simp [literalLength?, h]
  all_goals rfl

theorem literalLength?_flatMap (cs rest : List Char) :
    literalLength? (cs.flatMap escaped ++ '"' :: rest) = some ((cs.flatMap escaped).length + 1) := by
  induction cs with
  | nil => rfl
  | cons c cs ih =>
    rw [List.flatMap_cons, List.append_assoc, literalLength?_escaped, ih, Option.map_some, List.length_append]
    congr 1
    omega

theorem lexes_literal (text : String) : (Word.literal text).Lexes := by
  refine lexes_of_lexeme? (by decide) rfl nofun fun rest _ => ?_
  have length := literalLength?_flatMap text.toList rest
  rw [List.append_assoc, List.singleton_append, List.length_append, List.length_singleton, Nat.add_comm]
  unfold lexeme?
  simp only [length]
  rfl

theorem decode_letter {d : Char} (letter : letterEscape? c = some d) :
    decode ('\\' :: c :: cs) = (decode cs).map (d :: ·) := by
  rw [decode, letter]
  · cases decode cs <;> rfl
  · rintro r rfl
    cases letter
  · rintro rfl
    cases letter
  · rintro rfl
    cases letter

/-- What stands for a character is decoded to it. -/
theorem decode_escaped (c : Char) (cs : List Char) :
    decode (escaped c ++ cs) = (decode cs).map (c :: ·) := by
  unfold escaped
  split
  case h_5 =>
    have digits : ¬ (('0' :: '0' :: cs).length < 2 ∨ 0x10ffff < 0) := by simp
    have number : decode ('\\' :: 'x' :: '0' :: '0' :: cs) =
        if ('0' :: '0' :: cs).length < 2 ∨ 0x10ffff < 0 then .error (.source .malformedLiteral)
        else (do return charOfCode 0 :: (← decode cs)) := by
      rw [decode]
      · rfl
      all_goals simp
    refine number.trans ?_
    rw [if_neg digits]
    cases decode cs <;> rfl
  case h_6 quote backslash feed return_ _ =>
    rw [List.singleton_append, decode]
    · cases decode cs <;> rfl
    · exact feed
    · exact return_
    · exact fun _ same _ => backslash same
    · exact fun _ same _ => backslash same
    · exact fun _ same _ => backslash same
    · exact fun _ _ same _ => backslash same
  all_goals exact decode_letter rfl

theorem decode_flatMap (cs : List Char) : decode (cs.flatMap escaped) = .ok cs := by
  induction cs with
  | nil => rw [List.flatMap_nil, decode]
  | cons c cs ih =>
    rw [List.flatMap_cons, decode_escaped, ih]
    rfl

theorem nul_not_mem_escaped (c : Char) : '\x00' ∉ escaped c := by
  unfold escaped
  split
  case h_6 nul => exact fun mem => nul (List.mem_singleton.1 mem).symm
  all_goals decide

theorem literalText_literal (text : String) : literalText (Word.literal text).lexeme = .ok text := by
  have clear : ¬ (Word.literal text).lexeme.contains '\x00' = true := by
    rw [List.contains_iff_mem, Word.literal, List.mem_cons, List.mem_append, List.mem_flatMap]
    rintro (same | ⟨c, -, mem⟩ | mem)
    · exact absurd same (by decide)
    · exact nul_not_mem_escaped c mem
    · exact absurd mem (by decide)
  rw [literalText, if_neg clear, Word.literal, List.drop_succ_cons, List.drop_zero, List.dropLast_concat,
    decode_flatMap]
  exact congrArg Except.ok String.ofList_toList

/-! ## Rows of words -/

/-- A blank between two words is left out. -/
theorem scanFrom_blank (next : ∀ c ∈ rest.head?, isBlank c = false) :
    scanFrom text offset position (' ' :: rest) =
      scanFrom text (offset + 1) (position.afterAll [' ']) rest := by
  have alone : rest.takeWhile isBlank = [] := by
    cases rest with
    | nil => rfl
    | cons c cs => exact List.takeWhile_cons_of_neg (by rw [next c rfl]; exact Bool.false_ne_true)
  have skipped : lexeme? ' ' rest = some (none, 1) := by
    show some (none, 1 + (rest.takeWhile isBlank).length) = _
    rw [alone]
    rfl
  exact scanFrom_skipped (by decide) skipped

theorem spaced_cons (w : Word) (ws : List Word) :
    spaced (w :: ws) = w.spelling ++ if ws = [] then [] else ' ' :: spaced ws := by
  cases ws with
  | nil => simp [spaced]
  | cons w' ws => simp [spaced, List.intercalate_cons_cons]

/-- A row of words is cut into these words, with the end of the text behind them. -/
theorem scanFrom_spaced : ∀ {ws : List Word}, (∀ w ∈ ws, w.Lexes) → ∀ text offset position,
    ∃ ts, scanFrom text offset position (spaced ws) = .ok ts ∧ ts.map Token.word = ws ++ [.finish]
  | [], _, text, offset, position => by
    exact ⟨[⟨.finish, [], offset, offset, position⟩], scanFrom_nil, rfl⟩
  | w :: ws, lexes, text, offset, position => by
    obtain ⟨first, later⟩ := List.forall_mem_cons.1 lexes
    have scans : ∀ offset position, ∃ ts,
        scanFrom text offset position (if ws = [] then [] else ' ' :: spaced ws) = .ok ts ∧
          ts.map Token.word = ws ++ [.finish] := by
      intro offset position
      cases ws with
      | nil => exact scanFrom_spaced later text offset position
      | cons w' ws =>
        rw [if_neg (List.cons_ne_nil w' ws), scanFrom_blank]
        · exact scanFrom_spaced later text _ _
        · obtain ⟨c, cs, spelling, blank⟩ := (later w' List.mem_cons_self).opens
          rw [spaced_cons, spelling]
          rintro _ ⟨⟩
          exact blank
    have apart : Apart (if ws = [] then [] else ' ' :: spaced ws) := by
      split
      · exact apart_nil
      · exact apart_blank
    obtain ⟨t, offset', position', word, cut⟩ := first.cuts text offset position _ apart
    obtain ⟨ts, scanned, words⟩ := scans offset' position'
    refine ⟨t :: ts, ?_, ?_⟩
    · rw [spaced_cons, cut, scanned]
      rfl
    · rw [List.map_cons, words, word]
      rfl

/-! ## The words of a description -/

theorem lexes_suffix (s : Suffix) : ∀ w ∈ s.words, w.Lexes := by
  cases s with
  | once => exact nofun
  | opt | star | plus => exact fun w mem => lexes_of_mem_marks w (List.mem_singleton.1 mem ▸ by decide)

theorem lexes_labelWords (label : Option String) : ∀ w ∈ labelWords label, w.Lexes := by
  cases label with
  | none => exact nofun
  | some label =>
    exact List.forall_mem_cons.2 ⟨lexes_of_mem_marks _ (by decide),
      List.forall_mem_cons.2 ⟨lexes_ident (by decide), List.forall_mem_singleton.2 (lexes_literal label)⟩⟩

mutual

theorem lexes_atom : ∀ a : Atom, a.isWritable = true → ∀ w ∈ a.words, w.Lexes
  | .name ident suffix span, writable => List.forall_mem_cons.2 ⟨lexes_ident writable, lexes_suffix suffix⟩
  | .literal text suffix span, writable => List.forall_mem_cons.2 ⟨lexes_literal text, lexes_suffix suffix⟩
  | .group as suffix span, writable => by
    rw [Atom.isWritable, Bool.and_eq_true] at writable
    refine List.forall_mem_cons.2 ⟨lexes_of_mem_marks _ (by decide), List.forall_mem_append.2 ⟨?_, ?_⟩⟩
    · exact lexes_alternatives as writable.2
    · exact List.forall_mem_cons.2 ⟨lexes_of_mem_marks _ (by decide), lexes_suffix suffix⟩
  | .action code span, writable => List.forall_mem_singleton.2 (lexes_action writable)

theorem lexes_atoms (label : Option String) : ∀ as : List Atom, Atom.areWritable as = true →
    ∀ w ∈ Atom.wordsOfAll as label, w.Lexes
  | [], _ => lexes_labelWords label
  | a :: as, writable => by
    rw [Atom.areWritable, Bool.and_eq_true] at writable
    rcases a.trailing_cases as with ⟨code, span, rfl, rfl⟩ | other
    · exact List.forall_mem_append.2 ⟨lexes_labelWords label, lexes_atom _ writable.1⟩
    · rw [Atom.wordsOfAll]
      · exact List.forall_mem_append.2 ⟨lexes_atom a writable.1, lexes_atoms label as writable.2⟩
      · exact other

theorem lexes_alternatives : ∀ as : List Alternative, Alternative.areWritable as = true →
    ∀ w ∈ Alternative.wordsOfAll as, w.Lexes
  | [], _ => nofun
  | [.mk items label], writable => by
    rw [Alternative.areWritable, Bool.and_eq_true] at writable
    exact lexes_atoms label items writable.1
  | .mk items label :: b :: as, writable => by
    rw [Alternative.areWritable, Bool.and_eq_true] at writable
    refine List.forall_mem_append.2 ⟨lexes_atoms label items writable.1, ?_⟩
    exact List.forall_mem_cons.2 ⟨lexes_of_mem_marks _ (by decide), lexes_alternatives (b :: as) writable.2⟩

end

theorem lexes_rule {r : Rule} (writable : r.isWritable = true) : ∀ w ∈ r.words, w.Lexes := by
  rw [Rule.isWritable, Bool.and_eq_true, Bool.and_eq_true] at writable
  refine List.forall_mem_cons.2 ⟨lexes_ident writable.1.1,
    List.forall_mem_cons.2 ⟨lexes_of_mem_marks _ (by decide), List.forall_mem_append.2 ⟨?_, ?_⟩⟩⟩
  · exact lexes_alternatives r.alternatives writable.2
  · exact List.forall_mem_singleton.2 (lexes_of_mem_marks _ (by decide))

theorem lexes_directive {name : String} {ws : List Word} (known : isIdent name.toList = true)
    (inside : ∀ w ∈ ws, w.Lexes) : ∀ w ∈ Word.percent :: .ident name :: (ws ++ [.semicolon]), w.Lexes := by
  refine List.forall_mem_cons.2 ⟨lexes_of_mem_marks _ (by decide),
    List.forall_mem_cons.2 ⟨lexes_ident known, List.forall_mem_append.2 ⟨inside, ?_⟩⟩⟩
  exact List.forall_mem_singleton.2 (lexes_of_mem_marks _ (by decide))

theorem lexes_declaration {x : Declaration} (writable : x.isWritable = true) : ∀ w ∈ x.words, w.Lexes := by
  cases x with
  | token t =>
    rw [Declaration.isWritable, Bool.and_eq_true] at writable
    refine lexes_directive (by decide) (List.forall_mem_cons.2 ⟨lexes_ident writable.1, ?_⟩)
    cases pattern : t.pattern with
    | none => exact nofun
    | some p =>
      rw [pattern] at writable
      exact List.forall_mem_singleton.2 (lexes_pattern writable.2)
  | ignored i => exact lexes_directive (by decide) (List.forall_mem_singleton.2 (lexes_pattern writable))
  | definition n =>
    rw [Declaration.isWritable, Bool.and_eq_true] at writable
    exact lexes_directive (by decide)
      (List.forall_mem_cons.2 ⟨lexes_ident writable.1, List.forall_mem_singleton.2 (lexes_pattern writable.2)⟩)
  | keyword k =>
    have colon : Word.colon.Lexes := lexes_of_mem_marks _ (by decide)
    have semicolon : Word.semicolon.Lexes := lexes_of_mem_marks _ (by decide)
    simp only [Declaration.words, List.forall_mem_cons]
    exact ⟨lexes_literal k.text, colon, lexes_literal k.text, semicolon, nofun⟩
  | symbol s =>
    rw [Declaration.isWritable, Bool.and_eq_true, Bool.and_eq_true] at writable
    refine lexes_directive (by decide) (List.forall_mem_cons.2 ⟨lexes_ident writable.1.1, ?_⟩)
    split
    · exact nofun
    · exact List.forall_mem_singleton.2 (lexes_action writable.1.2)
  | precedence p =>
    rw [Declaration.isWritable, Bool.and_eq_true, decide_eq_true_eq] at writable
    have known : ∀ name ∈ ["left", "right", "nonassoc"], isIdent name.toList = true := by decide
    exact lexes_directive (known _ writable.1) (List.forall_mem_map.2 fun label _ => lexes_literal label)
  | start name => exact lexes_directive (by decide) (List.forall_mem_singleton.2 (lexes_ident writable))

theorem lexes_wording {d : Description} (writable : d.isWritable = true) : ∀ w ∈ d.wording, w.Lexes := by
  simp only [Description.isWritable, Bool.and_eq_true, List.all_eq_true] at writable
  simp only [wording, List.mem_append, List.mem_flatMap]
  rintro w (⟨x, mem, within⟩ | ⟨r, mem, within⟩)
  · exact lexes_declaration (writable.1.2 x mem) w within
  · exact lexes_rule (writable.2 r mem) w within

end ParserGenerator.Description
