import ParserGenerator.Proofs.Description.Lowering
import ParserGenerator.Proofs.Description.Scanning

/-!
# Written grammars are read back

Each part of a written description is read up to the word behind it, and nothing further. A part is told apart
from what comes next by the kind of that next word alone.
-/

namespace ParserGenerator.Description

/-- The words from the current one on. -/
def Cursor.words (c : Cursor) : List Word := c.current.word :: c.rest.map Token.word

namespace Reading

variable {α β : Type} {m : Reading α} {f : α → Reading β} {good : α → Prop} {good' : β → Prop}
  {before between after ws : List Word} {w w' : Word} {t : Token} {k : TokenKind} {text : String}

/-- In front of some words a good value is read, and other words are left. -/
def Reads (m : Reading α) (before : List Word) (good : α → Prop) (after : List Word) : Prop :=
  ∀ c : Cursor, c.words = before → ∃ a c', m c = .ok a c' ∧ good a ∧ c'.words = after

theorem reads_pure {a : α} (h : good a) : Reads (pure a) ws good ws :=
  fun c words => ⟨a, c, rfl, h, words⟩

theorem reads_bind (first : Reads m before good between)
    (second : ∀ a, good a → Reads (f a) between good' after) : Reads (m >>= f) before good' after := by
  intro c words
  obtain ⟨a, c₁, read, h, words₁⟩ := first c words
  obtain ⟨b, c₂, read', h', words₂⟩ := second a h c₁ words₁
  refine ⟨b, c₂, ?_, h', words₂⟩
  show EStateM.bind m f c = _
  rw [EStateM.bind, read]
  exact read'

theorem reads_map {g : α → β} (first : Reads m before good after) (each : ∀ a, good a → good' (g a)) :
    Reads (g <$> m) before good' after := by
  intro c words
  obtain ⟨a, c', read, h, words'⟩ := first c words
  refine ⟨g a, c', ?_, each a h, words'⟩
  show EStateM.map g m c = _
  rw [EStateM.map, read]

theorem Reads.mono {good₂ : α → Prop} (h : Reads m before good after) (weaker : ∀ a, good a → good₂ a) :
    Reads m before good₂ after := by
  intro c words
  obtain ⟨a, c', read, good, words'⟩ := h c words
  exact ⟨a, c', read, weaker a good, words'⟩

/-! ## Single words -/

theorem reads_current : Reads current (w :: ws) (fun t => t.word = w) (w :: ws) :=
  fun c words => ⟨c.current, c, rfl, (List.cons.inj words).1, words⟩

theorem reads_kind : Reads kind (w :: ws) (· = w.kind) (w :: ws) :=
  fun c words => ⟨c.current.kind, c, rfl, congrArg Word.kind (List.cons.inj words).1, words⟩

/-- The last word is never taken. -/
theorem reads_advance (more : ws ≠ []) : Reads advance (w :: ws) (fun t => t.word = w) ws := by
  rintro ⟨text, previous, t, rest⟩ words
  obtain ⟨first, rest_eq⟩ := List.cons.inj words
  cases rest with
  | nil => exact absurd rest_eq.symm more
  | cons t' rest => exact ⟨t, _, rfl, first, rest_eq⟩

theorem reads_expect (same : w.kind = k) (more : ws ≠ []) :
    Reads (expect k) (w :: ws) (fun t => t.word = w) ws := by
  refine reads_bind reads_current fun t word => ?_
  have kind : t.kind = k := (congrArg Word.kind word).trans same
  rw [if_pos kind]
  exact reads_advance more

theorem reads_accept? (same : w.kind = k) (more : ws ≠ []) :
    Reads (accept? k) (w :: ws) (fun t => ∃ t', t = some t' ∧ t'.word = w) ws := by
  refine reads_bind reads_kind fun k' kind => ?_
  rw [if_pos (kind.trans same)]
  exact reads_map (reads_advance more) fun t word => ⟨t, rfl, word⟩

theorem reads_accept?_none (other : w.kind ≠ k) : Reads (accept? k) (w :: ws) (· = none) (w :: ws) := by
  refine reads_bind reads_kind fun k' kind => ?_
  rw [if_neg (kind ▸ other)]
  exact reads_pure rfl

theorem identOf_eq {name : String} (word : t.word = .ident name) : identOf t = name := by
  have lexeme : t.lexeme = name.toList := congrArg Word.lexeme word
  rw [identOf, lexeme, String.ofList_toList]

theorem reads_literalOf (word : t.word = .literal text) : Reads (literalOf t) ws (· = text) ws := by
  have lexeme : t.lexeme = (Word.literal text).lexeme := congrArg Word.lexeme word
  rw [literalOf, lexeme, literalText_literal]
  exact reads_pure rfl

theorem reads_semicolon {after sample : String} (more : ws ≠ []) :
    Reads (semicolon after sample) (.semicolon :: ws) (fun _ => True) ws := by
  refine reads_bind (reads_accept? rfl more) fun t found => ?_
  obtain ⟨t', rfl, -⟩ := found
  exact reads_pure trivial

theorem reads_label (more : ws ≠ []) : Reads label (.literal text :: ws) (· = text) ws := by
  refine reads_bind reads_current fun t word => ?_
  rw [show t.kind = .literal from congrArg Word.kind word]
  exact reads_bind (reads_advance more) fun t' word' => reads_literalOf word'

theorem reads_labels (ends : w.kind = .semicolon) :
    ∀ (labels : List String) (bound : Nat) (before : List String), labels.length ≤ bound →
      Reads (Reading.labels bound before) (labels.map .literal ++ w :: ws)
        (· = before.reverse ++ labels) (w :: ws)
  | [], 0, before, _ => reads_pure (List.append_nil _).symm
  | [], bound + 1, before, _ => by
    rw [Reading.labels]
    refine reads_bind reads_kind fun k kind => ?_
    rw [kind, ends]
    exact reads_pure (List.append_nil _).symm
  | label :: labels, bound + 1, before, fits => by
    rw [Reading.labels]
    refine reads_bind reads_kind fun k kind => ?_
    rw [kind]
    refine reads_bind (reads_label (by simp)) fun l same => ?_
    subst same
    have rest := reads_labels ends labels bound (l :: before) (Nat.le_of_succ_le_succ fits)
    rwa [List.reverse_cons, List.append_assoc] at rest

theorem reads_pattern {p : String} (more : ws ≠ []) :
    Reads pattern (.pattern p :: ws) (fun r => r.2 = p) ws := by
  refine reads_bind (reads_expect rfl more) fun t word => reads_pure ?_
  have lexeme : t.lexeme = '/' :: (p.toList ++ ['/']) := congrArg Word.lexeme word
  rw [lexeme, List.drop_succ_cons, List.drop_zero, List.dropLast_concat]
  exact String.ofList_toList

/-- A bound is three times the number of words and more. -/
theorem reads_bound : Reads bound ws (· = 3 * (ws.length + 1)) ws := by
  rintro c rfl
  refine ⟨_, c, rfl, ?_, rfl⟩
  simp only [Cursor.words, List.length_cons, List.length_map]

/-! ## Alternatives -/

/-- The kinds of words that stand behind an alternative. -/
def ends : TokenKind → Bool
  | .bar | .closeGroup | .semicolon => true
  | _ => false

/-- The kinds of words that say how often an atom may stand. -/
def repeats : TokenKind → Bool
  | .question | .star | .plus => true
  | _ => false

theorem reads_suffix (other : repeats w.kind = false) :
    ∀ s : Suffix, Reads suffix (s.words ++ w :: ws) (· = s) (w :: ws)
  | .once => by
    refine reads_bind reads_kind fun k kind => ?_
    subst kind
    generalize w.kind = k at other
    cases k <;> first | exact reads_pure rfl | cases other
  | .opt | .star | .plus => by
    refine reads_bind reads_kind fun k kind => ?_
    subst kind
    exact reads_bind (reads_advance (by simp)) fun _ _ => reads_pure rfl

/-- The kinds of words that begin an atom. -/
def begins : TokenKind → Bool
  | .ident | .literal | .openGroup | .action => true
  | _ => false

theorem words_begin (a : Atom) : ∃ w ws, a.words = w :: ws ∧ begins w.kind = true := by
  cases a <;> exact ⟨_, _, rfl, rfl⟩

/-- An alternative goes on with an atom. -/
theorem reads_alternative_atom {a : Atom} {bound : Nat} {items : List Atom} {read : Atom → Prop}
    {done : Alternative → Prop} (first : Reads (atom bound) (a.words ++ between) read between)
    (second : ∀ b, read b → Reads (alternative bound (b :: items)) between done after) :
    Reads (alternative (bound + 1) items) (a.words ++ between) done after := by
  obtain ⟨w, ws, words, front⟩ := words_begin a
  rw [words] at first ⊢
  rw [alternative]
  refine reads_bind reads_kind fun k kind => ?_
  subst kind
  generalize w.kind = k at front
  cases k <;> first | exact reads_bind first second | cases front

/-- Behind a label there may be a block of action code. -/
theorem reads_alternative_prec {bound : Nat} {items : List Atom} {label : String}
    {done : Alternative → Prop} (more : between ≠ [])
    (behind : Reads (do
        if (← kind) = .action then
          let a ← atom bound
          return .mk (a :: items).reverse (some label)
        else return .mk items.reverse (some label)) between done after) :
    Reads (alternative (bound + 1) items) (labelWords (some label) ++ between) done after := by
  rw [alternative]
  refine reads_bind reads_kind fun k kind => ?_
  subst kind
  refine reads_bind (reads_advance (by simp)) fun _ _ => ?_
  refine reads_bind (reads_expect rfl (by simp)) fun t word => ?_
  rw [identOf_eq word]
  refine reads_bind (reads_label more) fun l same => ?_
  subst same
  exact behind

/-- An alternative ends with its label, or without one. -/
theorem reads_alternative_label {bound : Nat} {items : List Atom} (ended : ends w.kind = true) :
    ∀ label : Option String, Reads (alternative (bound + 1) items) (labelWords label ++ w :: ws)
      (· = .mk items.reverse label) (w :: ws)
  | none => by
    rw [alternative]
    refine reads_bind reads_kind fun k kind => ?_
    subst kind
    generalize w.kind = k at ended
    cases k <;> first | exact reads_pure rfl | cases ended
  | some label => by
    refine reads_alternative_prec (by simp) (reads_bind reads_kind fun k kind => ?_)
    rw [if_neg]
    · exact reads_pure rfl
    · rw [kind]
      intro action
      rw [action] at ended
      cases ended

theorem not_repeats_of_ends (h : ends k = true) : repeats k = false := by
  cases k <;> first | rfl | cases h

/-- What stands behind an atom does not repeat it. -/
theorem wordsOfAll_append (label : Option String) (ws : List Word) (ended : ends w.kind = true) (as : List Atom) :
    ∃ w' ws', Atom.wordsOfAll as label ++ w :: ws = w' :: ws' ∧ repeats w'.kind = false := by
  cases as with
  | nil =>
    cases label with
    | none => exact ⟨w, ws, rfl, not_repeats_of_ends ended⟩
    | some label => exact ⟨_, _, rfl, rfl⟩
  | cons a as =>
    rcases a.trailing_cases as with ⟨code, span, rfl, rfl⟩ | other
    · cases label <;> exact ⟨_, _, rfl, rfl⟩
    · obtain ⟨w', ws', words, front⟩ := words_begin a
      rw [Atom.wordsOfAll]
      · refine ⟨w', ws' ++ Atom.wordsOfAll as label ++ w :: ws, ?_, ?_⟩
        · rw [words]
          rfl
        · generalize w'.kind = k at front
          cases k <;> first | rfl | cases front
      · exact other

mutual

theorem reads_atom : ∀ (a : Atom) (bound : Nat) (w : Word) (ws : List Word), a.isWritable = true →
    3 * a.words.length ≤ bound → repeats w.kind = false →
    Reads (atom bound) (a.words ++ w :: ws) (fun b => b.unplaced = a.unplaced) (w :: ws)
  | .name ident suffix span, bound + 1, w, ws, writable, fits, other => by
    rw [atom]
    refine reads_bind (reads_advance (by simp)) fun t word => ?_
    rw [show t.kind = .ident from congrArg Word.kind word, identOf_eq word]
    refine reads_bind (reads_suffix other suffix) fun s same => reads_pure ?_
    rw [same]
    rfl
  | .literal text suffix span, bound + 1, w, ws, writable, fits, other => by
    rw [atom]
    refine reads_bind (reads_advance (by simp)) fun t word => ?_
    rw [show t.kind = .literal from congrArg Word.kind word]
    refine reads_bind (reads_literalOf word) fun text' same' => ?_
    refine reads_bind (reads_suffix other suffix) fun s same => reads_pure ?_
    rw [same, same']
    rfl
  | .group as suffix span, bound + 1, w, ws, writable, fits, other => by
    rw [Atom.isWritable, Bool.and_eq_true, Bool.not_eq_true', List.isEmpty_eq_false_iff] at writable
    rw [Atom.words, List.length_cons, List.length_append, List.length_cons] at fits
    rw [atom, Atom.words, List.cons_append, List.append_assoc, List.cons_append]
    refine reads_bind (reads_advance (by simp)) fun t word => ?_
    rw [show t.kind = .openGroup from congrArg Word.kind word]
    refine reads_bind (reads_alternatives as bound [] _ _ writable.1 writable.2 (by omega) (.inl rfl)) fun as' same' => ?_
    refine reads_bind (reads_expect rfl (by simp)) fun _ _ => ?_
    refine reads_bind (reads_suffix other suffix) fun s same => reads_pure ?_
    rw [same, Atom.unplaced, Atom.unplaced, Alternative.allUnplaced_eq, Alternative.allUnplaced_eq, same']
    rfl
  | .action code span, bound + 1, w, ws, writable, fits, other => by
    rw [atom]
    refine reads_bind (reads_advance (by simp)) fun t word => ?_
    rw [show t.kind = .action from congrArg Word.kind word]
    refine reads_pure ?_
    rw [show t.lexeme = code.toList from congrArg Word.lexeme word, String.ofList_toList]
    rfl

theorem reads_atoms (label : Option String) : ∀ (as : List Atom) (bound : Nat) (items : List Atom) (w : Word)
    (ws : List Word), Atom.areWritable as = true → 3 * (Atom.wordsOfAll as label).length + 1 ≤ bound →
    ends w.kind = true →
    Reads (alternative bound items) (Atom.wordsOfAll as label ++ w :: ws)
      (fun a => a.unplaced = .mk (items.reverse.map Atom.unplaced ++ as.map Atom.unplaced) label) (w :: ws)
  | as, 0, items, w, ws, writable, fits, ended => by omega
  | [], bound + 1, items, w, ws, writable, fits, ended => by
    refine (reads_alternative_label ended label).mono ?_
    rintro _ rfl
    rw [Alternative.unplaced, Atom.allUnplaced_eq, List.map_nil, List.append_nil]
  | a :: as, bound + 1, items, w, ws, writable, fits, ended => by
    rw [Atom.areWritable, Bool.and_eq_true] at writable
    -- A block of action code at the end stands behind the label, if there is one.
    by_cases trailing : (∃ code span, a = .action code span ∧ as = []) ∧ label.isSome
    · obtain ⟨⟨code, span, rfl, rfl⟩, some⟩ := trailing
      obtain ⟨label, rfl⟩ := Option.isSome_iff_exists.1 some
      have within : 3 * 1 ≤ bound := by
        simp only [Atom.wordsOfAll, labelWords, List.length_append, List.length_cons] at fits
        omega
      have block := reads_atom (.action code span) bound w ws writable.1 within (not_repeats_of_ends ended)
      rw [Atom.wordsOfAll, List.append_assoc]
      refine reads_alternative_prec (by simp) (reads_bind reads_kind fun k kind => ?_)
      rw [if_pos (show k = .action from kind)]
      refine reads_bind block fun b same => reads_pure ?_
      rw [Alternative.unplaced, Atom.allUnplaced_eq, List.reverse_cons, List.map_append, List.map_cons, same]
      rfl
    · have words : Atom.wordsOfAll (a :: as) label = a.words ++ Atom.wordsOfAll as label := by
        rcases a.trailing_cases as with ⟨code, span, rfl, rfl⟩ | other
        · cases label with
          | none => rfl
          | some label => exact absurd ⟨⟨code, span, rfl, rfl⟩, rfl⟩ trailing
        · rw [Atom.wordsOfAll]
          exact other
      rw [words, List.length_append] at fits
      have filled : 0 < a.words.length := by
        obtain ⟨w', ws', words', -⟩ := words_begin a
        rw [words']
        exact Nat.succ_pos _
      obtain ⟨w', ws', behind, other⟩ := wordsOfAll_append label ws ended as
      rw [words, List.append_assoc]
      have first := reads_atom a bound w' ws' writable.1 (by omega) other
      rw [← behind] at first
      refine reads_alternative_atom first fun b same => ?_
      have rest := reads_atoms label as bound (b :: items) w ws writable.2 (by omega) ended
      rw [List.reverse_cons, List.map_append, List.append_assoc, List.map_cons, same] at rest
      exact rest

theorem reads_alternatives : ∀ (as : List Alternative) (bound : Nat) (before : List Alternative) (w : Word)
    (ws : List Word), as ≠ [] → Alternative.areWritable as = true →
    3 * (Alternative.wordsOfAll as).length + 2 ≤ bound → w.kind = .closeGroup ∨ w.kind = .semicolon →
    Reads (alternatives bound before) (Alternative.wordsOfAll as ++ w :: ws)
      (fun as' => as'.map Alternative.unplaced =
        before.reverse.map Alternative.unplaced ++ as.map Alternative.unplaced) (w :: ws)
  | [], bound, before, w, ws, filled, writable, fits, last => absurd rfl filled
  | [.mk items label], bound + 1, before, w, ws, filled, writable, fits, last => by
    rw [Alternative.areWritable, Bool.and_eq_true] at writable
    rw [alternatives]
    have ended : ends w.kind = true ∧ w.kind ≠ .bar := by
      rcases last with kind | kind <;> rw [kind] <;> exact ⟨rfl, nofun⟩
    have within : 3 * (Atom.wordsOfAll items label).length + 1 ≤ bound := Nat.le_of_succ_le_succ fits
    refine reads_bind (reads_atoms label items bound [] w ws writable.1 within ended.1) fun a same => ?_
    refine reads_bind (reads_accept?_none ended.2) fun t none => ?_
    subst none
    refine reads_pure ?_
    rw [List.reverse_cons, List.map_append, List.map_singleton, List.map_singleton, same, Alternative.unplaced,
      Atom.allUnplaced_eq]
    rfl
  | .mk items label :: b :: as, bound + 1, before, w, ws, filled, writable, fits, last => by
    rw [Alternative.areWritable, Bool.and_eq_true] at writable
    rw [Alternative.wordsOfAll, List.length_append, List.length_cons, Alternative.words] at fits
    rw [alternatives, Alternative.wordsOfAll, List.append_assoc, List.cons_append]
    have within : 3 * (Atom.wordsOfAll items label).length + 1 ≤ bound := by omega
    refine reads_bind (reads_atoms label items bound [] _ _ writable.1 within rfl) fun a same => ?_
    refine reads_bind (reads_accept? rfl (by simp)) fun t found => ?_
    obtain ⟨t', rfl, -⟩ := found
    have rest := reads_alternatives (b :: as) bound (a :: before) w ws nofun writable.2 (by omega) last
    rw [List.reverse_cons, List.map_append, List.append_assoc, List.map_singleton, same] at rest
    rw [List.map_cons, Alternative.unplaced, Atom.allUnplaced_eq]
    exact rest
  | _ :: _, 0, before, w, ws, filled, writable, fits, last => by omega

end

/-! ## Declarations -/

variable {d : Description} {x : Declaration} {name : String}

theorem unplaced_declare (d : Description) (x : Declaration) :
    (d.declare x).unplaced = d.unplaced.declare x.unplaced := by
  cases x <;> simp [declare, Description.unplaced, Declaration.unplaced]

/-- The reading adds the declaration to the description, wherever it may have stood. -/
def Adds (x : Declaration) (d d' : Description) : Prop := d'.unplaced = d.unplaced.declare x.unplaced

/-- A directive is read by its name. -/
theorem reads_named {read : Token → Reading β} (more : between ≠ [])
    (behind : ∀ t : Token, identOf t = name → Reads (read t) between good' after) :
    Reads (do
      let t ← current
      if t.kind ≠ .ident then fail t (.directiveName t.kind.name)
      let _ ← advance
      read t) (.ident name :: between) good' after := by
  refine reads_bind reads_current fun t word => ?_
  have kind : t.kind = .ident := congrArg Word.kind word
  rw [if_neg (not_not_intro kind)]
  exact reads_bind (reads_advance more) fun _ _ => behind t (identOf_eq word)

theorem reads_tokenDecl (t : TokenDecl) (more : ws ≠ []) :
    Reads (tokenDecl d) (.ident t.name :: ((t.pattern.map .pattern).toList ++ .semicolon :: ws))
      (Adds (.token t) d) ws := by
  refine reads_bind (reads_expect rfl (by simp)) fun u word => ?_
  have adds : Adds (.token t) d (d.declare (.token ⟨identOf u, t.pattern, u.span⟩)) := by
    rw [identOf_eq word]
    exact unplaced_declare d _
  cases pattern : t.pattern with
  | none =>
    rw [pattern] at adds
    refine reads_bind reads_kind fun k kind => ?_
    rw [if_neg (by rw [kind]; exact nofun)]
    refine reads_bind (reads_pure rfl) fun p same => reads_bind (reads_semicolon more) fun _ _ => ?_
    exact reads_pure (same ▸ adds)
  | some p =>
    rw [pattern] at adds
    refine reads_bind reads_kind fun k kind => ?_
    rw [if_pos (show k = .pattern from kind)]
    have given : Reads ((some ·.2) <$> Reading.pattern) (.pattern p :: .semicolon :: ws) (· = some p)
        (.semicolon :: ws) := reads_map (reads_pattern (by simp)) fun r same => congrArg some same
    refine reads_bind given fun p' same => reads_bind (reads_semicolon more) fun _ _ => ?_
    exact reads_pure (same ▸ adds)

theorem reads_ignoreDecl (i : IgnoreDecl) (more : ws ≠ []) :
    Reads (ignoreDecl d) (.pattern i.pattern :: .semicolon :: ws) (Adds (.ignored i) d) ws := by
  refine reads_bind (reads_pattern (by simp)) fun r same => reads_bind (reads_semicolon more) fun _ _ => ?_
  obtain ⟨t, p⟩ := r
  obtain rfl : p = i.pattern := same
  exact reads_pure (unplaced_declare d (.ignored ⟨i.pattern, t.span⟩))

theorem reads_defineDecl (n : DefineDecl) (more : ws ≠ []) :
    Reads (defineDecl d) (.ident n.name :: .pattern n.pattern :: .semicolon :: ws)
      (Adds (.definition n) d) ws := by
  refine reads_bind (reads_expect rfl (by simp)) fun t word => ?_
  refine reads_bind (reads_pattern (by simp)) fun r same => reads_bind (reads_semicolon more) fun _ _ => ?_
  rw [identOf_eq word, same]
  exact reads_pure (unplaced_declare d (.definition ⟨n.name, n.pattern, t.span⟩))

theorem reads_symbolDecl (s : SymbolDecl) (trimmed : trimBlanks s.initialiser.toList = s.initialiser.toList)
    (more : ws ≠ []) :
    Reads (symbolDecl d) (.ident s.name ::
        ((if s.initialiser = "" then [] else [.action s.initialiser]) ++ .semicolon :: ws))
      (Adds (.symbol s) d) ws := by
  refine reads_bind (reads_expect rfl (by simp)) fun u word => ?_
  have code : Reads (accept? .action)
      ((if s.initialiser = "" then [] else [.action s.initialiser]) ++ .semicolon :: ws)
      (fun t => (t.map fun t => String.ofList (trimBlanks t.lexeme)).getD "" = s.initialiser)
      (.semicolon :: ws) := by
    split
    · rename_i empty
      have none : Reads (accept? .action) (.semicolon :: ws) (· = none) (.semicolon :: ws) :=
        reads_accept?_none nofun
      exact none.mono fun t same => same ▸ empty.symm
    · refine (reads_accept? rfl (by simp)).mono ?_
      rintro _ ⟨t, rfl, word⟩
      have lexeme : t.lexeme = s.initialiser.toList := congrArg Word.lexeme word
      rw [Option.map_some, Option.getD_some, lexeme, trimmed, String.ofList_toList]
  refine reads_bind code fun t same => reads_bind (reads_semicolon more) fun _ _ => ?_
  rw [identOf_eq word, same]
  exact reads_pure (unplaced_declare d (.symbol ⟨s.name, s.initialiser, u.span⟩))

theorem reads_startDecl (more : ws ≠ []) :
    Reads (startDecl d) (.ident name :: .semicolon :: ws) (Adds (.start name) d) ws := by
  refine reads_bind (reads_expect rfl (by simp)) fun u word => reads_bind (reads_semicolon more) fun _ _ => ?_
  rw [identOf_eq word]
  exact reads_pure (unplaced_declare d (.start name))

theorem reads_precedenceDecl (p : PrecedenceDecl) (filled : p.labels ≠ []) (place : Token) (more : ws ≠ []) :
    Reads (precedenceDecl p.associativity place d) (p.labels.map .literal ++ .semicolon :: ws)
      (Adds (.precedence p) d) ws := by
  refine reads_bind reads_bound fun n bound => ?_
  refine reads_bind (reads_labels rfl p.labels n [] ?_) fun ls same => ?_
  · rw [bound, List.length_append, List.length_map]
    omega
  obtain rfl : ls = p.labels := same
  rw [if_neg]
  · refine reads_bind (reads_semicolon more) fun _ _ => ?_
    exact reads_pure (unplaced_declare d (.precedence ⟨p.associativity, p.labels, place.span⟩))
  · rw [List.isEmpty_iff]
    exact filled

theorem reads_keyword (y : KeywordDecl) (more : ws ≠ []) :
    Reads (keyword d) (Declaration.words (.keyword y) ++ ws) (Adds (.keyword y) d) ws := by
  refine reads_bind (reads_expect rfl (by simp)) fun left word => ?_
  refine reads_bind (reads_expect rfl (by simp)) fun _ _ => ?_
  refine reads_bind (reads_expect rfl (by simp)) fun right word' => ?_
  refine reads_bind (reads_literalOf word) fun a same => reads_bind (reads_literalOf word') fun b same' => ?_
  rw [if_neg (not_not_intro (same.trans same'.symm)), same]
  refine reads_bind (reads_semicolon more) fun _ _ => ?_
  exact reads_pure (unplaced_declare d (.keyword ⟨y.text, left.span⟩))

/-- Behind the percent sign of a declaration its directive is read. -/
theorem reads_directive (writable : x.isWritable = true) (directed : ∀ k, x ≠ .keyword k) (more : ws ≠ []) :
    ∃ between, x.words ++ ws = .percent :: between ∧ between ≠ [] ∧ Reads (directive d) between (Adds x d) ws := by
  cases x with
  | keyword k => exact absurd rfl (directed k)
  | token t =>
    refine ⟨_, rfl, by simp, reads_named (by simp) fun u named => ?_⟩
    rw [named, List.append_eq, List.cons_append, List.append_assoc]
    exact reads_tokenDecl t more
  | ignored i =>
    refine ⟨_, rfl, by simp, reads_named (by simp) fun u named => ?_⟩
    rw [named]
    exact reads_ignoreDecl i more
  | definition n =>
    refine ⟨_, rfl, by simp, reads_named (by simp) fun u named => ?_⟩
    rw [named]
    exact reads_defineDecl n more
  | symbol s =>
    refine ⟨_, rfl, by simp, reads_named (by simp) fun u named => ?_⟩
    rw [Declaration.isWritable, Bool.and_eq_true, decide_eq_true_eq] at writable
    rw [named, List.append_eq, List.cons_append, List.append_assoc]
    exact reads_symbolDecl s writable.2 more
  | precedence p =>
    refine ⟨_, rfl, by simp, reads_named (by simp) fun u named => ?_⟩
    rw [Declaration.isWritable, Bool.and_eq_true, decide_eq_true_eq, Bool.not_eq_true',
      List.isEmpty_eq_false_iff] at writable
    have reads := reads_precedenceDecl (d := d) p writable.2 u more
    rw [named, List.append_eq, List.append_assoc]
    obtain ⟨associativity, labels, span⟩ := p
    have known := writable.1
    simp only [List.mem_cons, List.not_mem_nil, or_false] at known
    obtain rfl | rfl | rfl := known
    · exact reads
    · exact reads
    · exact reads
  | start name =>
    refine ⟨_, rfl, by simp, reads_named (by simp) fun u named => ?_⟩
    rw [named]
    exact reads_startDecl more

/-- One declaration is read, then the others. -/
theorem reads_declarations_cons {bound : Nat} {done : Description → Prop} (writable : x.isWritable = true)
    (more : between ≠ []) (others : ∀ d', Adds x d d' → Reads (declarations bound d') between done after) :
    Reads (declarations (bound + 1) d) (x.words ++ between) done after := by
  rw [declarations]
  by_cases keyword : ∃ k, x = .keyword k
  · obtain ⟨k, rfl⟩ := keyword
    refine reads_bind reads_kind fun k' kind => ?_
    subst kind
    exact reads_bind (reads_keyword k more) others
  · obtain ⟨rest, words, more', reads⟩ := reads_directive writable (fun k same => keyword ⟨k, same⟩) more
    rw [words]
    refine reads_bind reads_kind fun k' kind => ?_
    subst kind
    exact reads_bind (reads_advance more') fun _ _ => reads_bind reads others

theorem reads_declarations (last : w.kind = .ident ∨ w.kind = .finish) :
    ∀ (xs : List Declaration) {bound : Nat} {d : Description}, (∀ x ∈ xs, x.isWritable = true) →
      xs.length ≤ bound → Reads (declarations bound d) (xs.flatMap Declaration.words ++ w :: ws)
        (fun d' => d'.unplaced = (xs.map Declaration.unplaced).foldl declare d.unplaced) (w :: ws)
  | [], 0, d, _, _ => reads_pure rfl
  | [], bound + 1, d, _, _ => by
    rw [declarations]
    refine reads_bind reads_kind fun k kind => ?_
    rcases last with ident | finish
    · rw [kind, ident]
      exact reads_pure rfl
    · rw [kind, finish]
      exact reads_pure rfl
  | x :: xs, bound + 1, d, writable, fits => by
    obtain ⟨first, later⟩ := List.forall_mem_cons.1 writable
    rw [List.flatMap_cons, List.append_assoc]
    refine reads_declarations_cons first (by simp) fun d' adds => ?_
    rw [List.map_cons, List.foldl_cons, ← adds]
    exact reads_declarations last xs later (Nat.le_of_succ_le_succ fits)

/-! ## Rules -/

/-- The description with more rules at its end. -/
def withRules (d : Description) (rs : List Rule) : Description := { d with rules := d.rules ++ rs }

theorem unplaced_withRules (d : Description) (rs : List Rule) :
    (withRules d rs).unplaced = withRules d.unplaced (rs.map Rule.unplaced) := by
  simp [withRules, Description.unplaced]

theorem reads_rule {r : Rule} (writable : r.isWritable = true) (more : ws ≠ []) :
    Reads (rule d) (r.words ++ ws) (fun d' => d'.unplaced = withRules d.unplaced [r.unplaced]) ws := by
  rw [Rule.isWritable, Bool.and_eq_true, Bool.and_eq_true, Bool.not_eq_true', List.isEmpty_eq_false_iff]
    at writable
  have words : r.words ++ ws =
      .ident r.name :: .colon :: (Alternative.wordsOfAll r.alternatives ++ .semicolon :: ws) := by
    simp [Rule.words]
  rw [words]
  refine reads_bind (reads_expect rfl (by simp)) fun t word => ?_
  refine reads_bind (reads_expect rfl (by simp)) fun _ _ => ?_
  refine reads_bind reads_bound fun n bound => ?_
  refine reads_bind (reads_alternatives r.alternatives n [] .semicolon _ writable.1.2 writable.2 ?_ (.inr rfl))
    fun as same => reads_bind (reads_semicolon more) fun _ _ => reads_pure ?_
  · rw [bound, List.length_append, List.length_cons]
    omega
  · have read : (⟨r.name, as, t.span⟩ : Rule).unplaced = r.unplaced := by
      rw [Rule.unplaced, Rule.unplaced, Alternative.allUnplaced_eq, Alternative.allUnplaced_eq, same]
      rfl
    rw [identOf_eq word, ← read]
    exact unplaced_withRules d [⟨r.name, as, t.span⟩]

theorem reads_rules : ∀ (rs : List Rule) {bound : Nat} {d : Description}, (∀ r ∈ rs, r.isWritable = true) →
    rs.length ≤ bound → Reads (rules bound d) (rs.flatMap Rule.words ++ [.finish])
      (fun d' => d'.unplaced = withRules d.unplaced (rs.map Rule.unplaced)) [.finish]
  | [], 0, d, _, _ => reads_pure (by simp [withRules])
  | [], bound + 1, d, _, _ => by
    rw [rules]
    refine reads_bind reads_kind fun k kind => ?_
    rw [if_pos (show k = .finish from kind)]
    exact reads_pure (by simp [withRules])
  | r :: rs, bound + 1, d, writable, fits => by
    obtain ⟨first, later⟩ := List.forall_mem_cons.1 writable
    rw [List.flatMap_cons, List.append_assoc, rules]
    refine reads_bind reads_kind fun k kind => ?_
    rw [if_neg (show ¬ k = .finish by rw [kind]; exact nofun)]
    refine reads_bind (reads_rule first (by simp)) fun d' same => ?_
    have rest := reads_rules rs (d := d') later (Nat.le_of_succ_le_succ fits)
    rw [same] at rest
    simpa [withRules] using rest

/-! ## Whole descriptions -/

theorem length_le_flatMap {f : α → List β} (as : List α) (filled : ∀ a, f a ≠ []) :
    as.length ≤ (as.flatMap f).length := by
  induction as with
  | nil => exact Nat.le_refl 0
  | cons a as ih =>
    have := List.length_pos_iff.2 (filled a)
    rw [List.flatMap_cons, List.length_append, List.length_cons]
    omega

theorem words_ne_nil (x : Declaration) : x.words ≠ [] := by
  cases x <;> exact nofun

theorem rule_words_ne_nil (r : Rule) : r.words ≠ [] := nofun

/-- Declarations of one kind are entered in their list one after the other. -/
theorem foldl_declare_map (make : α → Declaration) (put : Description → List α → Description)
    (none : ∀ d, put d [] = d) (next : ∀ d a as, put (d.declare (make a)) as = put d (a :: as)) (as : List α)
    (d : Description) : (as.map make).foldl declare d = put d as := by
  induction as generalizing d with
  | nil => exact (none d).symm
  | cons a as ih => rw [List.map_cons, List.foldl_cons, ih, next]

/-- The declarations make up the description but for its rules. -/
theorem foldl_declarations (d : Description) : d.declarations.foldl declare {} = { d with rules := [] } := by
  simp only [Description.declarations, List.foldl_append]
  rw [foldl_declare_map .token (fun d as => { d with tokens := d.tokens ++ as }) (by simp) (by simp [declare]),
    foldl_declare_map .ignored (fun d as => { d with ignored := d.ignored ++ as }) (by simp)
      (by simp [declare]),
    foldl_declare_map .definition (fun d as => { d with definitions := d.definitions ++ as }) (by simp)
      (by simp [declare]),
    foldl_declare_map .keyword (fun d as => { d with keywords := d.keywords ++ as }) (by simp)
      (by simp [declare]),
    foldl_declare_map .symbol (fun d as => { d with symbols := d.symbols ++ as }) (by simp)
      (by simp [declare]),
    foldl_declare_map .precedence (fun d as => { d with precedences := d.precedences ++ as }) (by simp)
      (by simp [declare])]
  cases start : d.start <;> simp [declare]

theorem declarations_unplaced (d : Description) :
    d.unplaced.declarations = d.declarations.map Declaration.unplaced := by
  cases start : d.start <;>
    simp [Description.declarations, Description.unplaced, Function.comp_def, Declaration.unplaced, start]

theorem reads_description {d : Description} (writable : d.isWritable = true) :
    Reads description (d.wording ++ [.finish]) (fun d' => d'.unplaced = d.unplaced) [.finish] := by
  simp only [isWritable, Bool.and_eq_true, List.all_eq_true] at writable
  obtain ⟨⟨started, declared⟩, ruled⟩ := writable
  have front : ∃ w ws, d.rules.flatMap Rule.words ++ [.finish] = w :: ws ∧
      (w.kind = .ident ∨ w.kind = .finish) := by
    cases d.rules with
    | nil => exact ⟨_, _, rfl, .inr rfl⟩
    | cons r rs => exact ⟨_, _, rfl, .inl rfl⟩
  obtain ⟨w, ws, behind, last⟩ := front
  refine reads_bind reads_bound fun n bound => ?_
  have within : d.declarations.length ≤ n := by
    have := length_le_flatMap d.declarations words_ne_nil
    rw [bound, wording, List.length_append, List.length_append]
    omega
  rw [wording, List.append_assoc, behind]
  refine reads_bind (reads_declarations last d.declarations declared within) fun d₁ same₁ => ?_
  rw [← behind]
  refine reads_bind reads_bound fun n' bound' => ?_
  have within' : d.rules.length ≤ n' := by
    have := length_le_flatMap d.rules rule_words_ne_nil
    rw [bound', List.length_append]
    omega
  refine reads_bind (reads_rules d.rules ruled within') fun d₂ same₂ => reads_pure ?_
  have all : d₂.unplaced = d.unplaced := by
    have empty : ({} : Description).unplaced = {} := rfl
    rw [same₂, same₁, ← declarations_unplaced, empty, foldl_declarations]
    rfl
  have kept : d₂.unplaced.start = d.unplaced.start := by rw [all]
  obtain ⟨name, given⟩ := Option.isSome_iff_exists.1 started
  have start : (d₂.start <|> d₂.rules.head?.map Rule.name) = d₂.start := by
    rw [show d₂.start = d.start from kept, given]
    rfl
  rw [start]
  exact all

end Reading

/-- What was written is read back as it was, but for the places of its parts. -/
theorem parse_rendered {d : Description} (writable : d.isWritable = true) :
    (parse d.render).map unplaced = .ok d.unplaced := by
  obtain ⟨ts, scanned, words⟩ := scanFrom_spaced (lexes_wording writable) (spaced d.wording) 0 .start
  have scan : scan d.render = .ok ts := by
    rw [Description.scan, render, String.toList_ofList]
    exact scanned
  cases ts with
  | nil =>
    rw [List.map_nil] at words
    simp at words
  | cons t ts =>
    obtain ⟨d', c, read, same, -⟩ := Reading.reads_description writable ⟨d.render.toList, none, t, ts⟩ words
    simp only [parse, scan, read, bind, Except.bind]
    exact congrArg Except.ok same

/-- Each kind of declaration, with a slash in a pattern, a quote in a literal and braces in code; a group inside
a group, and a label before the last block of code. -/
def assignments : Description where
  start := some "S"
  tokens := [⟨"ID", some "[a-z]|\\/", .nowhere⟩, ⟨"NUM", none, .nowhere⟩]
  ignored := [⟨"[ ]+", .nowhere⟩]
  definitions := [⟨"Digit", "[0-9]", .nowhere⟩]
  keywords := [⟨"\"", .nowhere⟩]
  symbols := [⟨"S", "\x7b\x7d", .nowhere⟩, ⟨"T", "", .nowhere⟩]
  precedences := [⟨"right", ["="], .nowhere⟩]
  rules := [⟨"S", [.mk [.name "ID" .plus .nowhere, .action "f();" .nowhere,
      .group [.mk [.literal "=" .once .nowhere, .group [.mk [] none, .mk [.name "T" .once .nowhere] none] .opt
        .nowhere] none] .star .nowhere, .action "g();" .nowhere] (some "=")], .nowhere⟩,
    ⟨"T", [.mk [.name "NUM" .once .nowhere] none], .nowhere⟩]

theorem parse_rendered_assignments : assignments.isWritable = true ∧
    assignments.render = "% token ID /[a-z]|\\// ; % token NUM ; % ignore /[ ]+/ ; % define Digit /[0-9]/ ; " ++
      "\"\\\"\" : \"\\\"\" ; % symbol S \x7b\x7b\x7d\x7d ; % symbol T ; % right \"=\" ; % start S ; " ++
      "S : ID + \x7bf();\x7d ( \"=\" ( | T ) ? ) * % prec \"=\" \x7bg();\x7d ; T : NUM ;" ∧
    (parse assignments.render).map unplaced = .ok assignments := by
  have writable : assignments.isWritable = true := by decide +kernel
  exact ⟨writable, by decide +kernel, parse_rendered writable⟩

end ParserGenerator.Description
