import ParserGenerator.Proofs.Regex.Language
import ParserGenerator.Proofs.Regex.Reading

/-!
# Composed expressions

Expressions that are put together as texts stand for the languages that the operators name. Where two of
them are written in a row, this needs that neither has a bar outside of groups, quotes, classes, braces and
escapes.
-/

namespace ParserGenerator.Regex

open Computability

variable {c : Char} {w cs ds : List Char} {t : Token} {ts us : List Token} {ls ls' : Levels}
  {value : String → Option Regex} {meaning : Meaning} {u v : String} {p q : Regex}

/-! ## Bars that no group and nothing else encloses -/

/-- What the characters at a place in a text belong to. -/
inductive Enclosure where
  | nothing | escape | bracket | escapeInBracket | brace
  | quote (mark : Char)
  | escapeInQuote (mark : Char)
  deriving DecidableEq

/-- What a character opens outside of any enclosure. -/
def Enclosure.opened (c : Char) : Enclosure :=
  if c = '\\' then .escape
  else if c = '[' then .bracket
  else if c = '\x7b' then .brace
  else if c = '\x27' ∨ c = '"' then .quote c
  else .nothing

def Enclosure.next : Enclosure → Char → Enclosure
  | .nothing, c => .opened c
  | .escape, _ => .nothing
  | .bracket, c => if c = '\\' then .escapeInBracket else if c = ']' then .nothing else .bracket
  | .escapeInBracket, _ => .bracket
  | .brace, c => if c = '\x7d' then .nothing else .brace
  | .quote mark, c => if c = '\\' then .escapeInQuote mark else if c = mark then .nothing else .quote mark
  | .escapeInQuote mark, _ => .quote mark

/-- The number of groups that are open at a place, and the enclosure. -/
structure Place where
  depth : Nat := 0
  enclosure : Enclosure := .nothing
  deriving DecidableEq

/-- The place behind a character. -/
def Place.next (p : Place) (c : Char) : Place where
  depth :=
    if p.enclosure ≠ .nothing then p.depth
    else if c = '(' then p.depth + 1
    else if c = ')' then p.depth - 1
    else p.depth
  enclosure := p.enclosure.next c

/-- Whether a text that begins at a place has a bar outside of all groups and enclosures. -/
def hasTopBar : Place → List Char → Bool
  | _, [] => false
  | p, c :: cs => decide (p = {} ∧ c = '|') || hasTopBar (p.next c) cs

theorem hasTopBar_append {place : Place} :
    hasTopBar place (cs ++ ds) = (hasTopBar place cs || hasTopBar (cs.foldl Place.next place) ds) := by
  induction cs generalizing place with
  | nil => rfl
  | cons c cs ih => rw [List.cons_append, hasTopBar, hasTopBar, ih, Bool.or_assoc, List.foldl_cons]

/-- The number of open groups behind a token. -/
def Token.depth (d : Nat) : Token → Nat
  | openGroup => d + 1
  | closeGroup => d - 1
  | _ => d

theorem next_bracket {d : Nat} (escape : c ≠ '\\') (closing : c ≠ ']') :
    Place.next ⟨d, .bracket⟩ c = ⟨d, .bracket⟩ := by
  simp [Place.next, Enclosure.next, escape, closing]

theorem foldl_next_bracket {d : Nat} (plain : ∀ x ∈ cs, x ≠ '\\' ∧ x ≠ ']') :
    cs.foldl Place.next ⟨d, .bracket⟩ = ⟨d, .bracket⟩ := by
  induction cs with
  | nil => rfl
  | cons c cs ih =>
    obtain ⟨first, others⟩ := List.forall_mem_cons.1 plain
    rw [List.foldl_cons, next_bracket first.1 first.2, ih others]

theorem place_of_members {d : Nat} (h : (members cs).2 = some []) :
    cs.foldl Place.next ⟨d, .bracket⟩ = ⟨d, .nothing⟩ := by
  fun_induction members cs with
  | case1 => cases h
  | case2 r =>
    cases h
    rfl
  | case3 x r octal found ih =>
    have digits : ∀ y ∈ r.takeWhile isOctal, y ≠ '\\' ∧ y ≠ ']' := by
      intro y mem
      have digit := List.mem_takeWhile_imp mem
      constructor <;> (rintro rfl; exact absurd digit (by decide))
    rw [← List.takeWhile_append_dropWhile (p := isOctal) (l := r)]
    change (r.takeWhile isOctal ++ r.dropWhile isOctal).foldl Place.next ⟨d, .bracket⟩ = _
    rw [List.foldl_append, foldl_next_bracket digits, ih h]
  | case4 x r other found ih => exact ih h
  | case5 x r closing escape found ih =>
    have plain : x ≠ '\\' := ne_backslash (fun _ => ne_nil_of_members h) escape
    rw [List.foldl_cons, next_bracket plain closing, ih h]

theorem place_of_quotedText {d : Nat} {quote : Char} {text : List Char}
    (h : quotedText quote cs = some (text, [])) :
    cs.foldl Place.next ⟨d, .quote quote⟩ = ⟨d, .nothing⟩ := by
  fun_induction quotedText quote cs generalizing text with
  | case1 => cases h
  | case2 => cases h
  | case3 x r ih =>
    obtain ⟨⟨inner, _⟩, found, same⟩ := Option.map_eq_some_iff.1 h
    obtain ⟨rfl, rfl⟩ := Prod.mk.inj same
    exact ih found
  | case4 r alone escape =>
    cases h
    simp [Place.next, Enclosure.next, ne_backslash alone escape]
  | case5 x r alone escape other ih =>
    obtain ⟨⟨inner, _⟩, found, same⟩ := Option.map_eq_some_iff.1 h
    obtain ⟨rfl, rfl⟩ := Prod.mk.inj same
    have step : Place.next ⟨d, .quote quote⟩ x = ⟨d, .quote quote⟩ := by
      simp [Place.next, Enclosure.next, ne_backslash alone escape, other]
    rw [List.foldl_cons, step, ih found]

theorem place_of_name {d : Nat} (apart : '\x7d' ∉ cs) :
    (cs ++ ['\x7d']).foldl Place.next ⟨d, .brace⟩ = ⟨d, .nothing⟩ := by
  induction cs with
  | nil => rfl
  | cons c cs ih =>
    rw [List.mem_cons, not_or] at apart
    have step : Place.next ⟨d, .brace⟩ c = ⟨d, .brace⟩ := by
      simp [Place.next, Enclosure.next, Ne.symm apart.1]
    rw [List.cons_append, List.foldl_cons, step, ih apart.2]

theorem place_of_plain {d : Nat} (unmarked : c ∉ marks) :
    Place.next ⟨d, .nothing⟩ c = ⟨(plain c).depth d, .nothing⟩ := by
  simp only [marks, List.mem_cons, List.not_mem_nil, or_false, not_or] at unmarked
  have level : (plain c).depth d = d := by
    rw [plain]
    cases Repetition.ofChar? c <;> rfl
  simp [Place.next, Enclosure.next, Enclosure.opened, unmarked, level]

/-- A token leaves no enclosure behind it, and only parentheses change the number of open groups. -/
theorem Spells.place (h : Spells c w t) (d : Nat) :
    (c :: w).foldl Place.next ⟨d, .nothing⟩ = ⟨t.depth d, .nothing⟩ := by
  cases h with
  | openGroup | closeGroup | bar | dot | escape => rfl
  | bracketed taken =>
    obtain ⟨inverted, ms, ss, mark, found, -, -, rfl⟩ := bracketed_eq_ok.1 (taken 0 [])
    rw [List.append_nil] at mark found
    cases inverted with
    | false => exact place_of_members (congrArg Prod.snd found)
    | true =>
      obtain ⟨r, rfl⟩ := List.head?_eq_some_iff.1 (eq_of_beq mark)
      change r.foldl Place.next ⟨d, .bracket⟩ = _
      exact place_of_members (congrArg Prod.snd found)
  | quoted mark taken =>
    have found := taken []
    rw [List.append_nil] at found
    have opened : Place.next ⟨d, .nothing⟩ c = ⟨d, .quote c⟩ := by
      obtain rfl | rfl := mark <;> rfl
    rw [List.foldl_cons, opened]
    exact place_of_quotedText found
  | reference named apart => exact place_of_name apart
  | plain unmarked => exact place_of_plain unmarked

theorem Spells.eq_bar (h : Spells c w t) (bar : t = .bar) : c = '|' := by
  cases h with
  | bar => rfl
  | openGroup | closeGroup | dot | quoted | escape | reference => cases bar
  | bracketed taken =>
    obtain ⟨_, _, _, -, -, -, -, rfl⟩ := bracketed_eq_ok.1 (taken 0 [])
    cases bar
  | plain unmarked =>
    rw [Regex.plain] at bar
    cases found : Repetition.ofChar? c <;> (rw [found] at bar; cases bar)

/-- The level that the levels stand on. -/
def Levels.bottom (ls : Levels) : Level := ls.outer.getLastD ls.inner

theorem Takes.depth (h : Takes value ls t ls') : t.depth ls.outer.length = ls'.outer.length := by
  cases h <;> rfl

/-- Only a bar outside of all groups ends an option of the lowest level. -/
theorem Takes.options_bottom (h : Takes value ls t ls') (inside : t = .bar → ls.outer ≠ []) :
    ls'.bottom.options = ls.bottom.options := by
  cases h with
  | openGroup i os => cases os <;> rfl
  | closeGroup i o os => cases os <;> rfl
  | bar i os =>
    cases os with
    | nil => exact absurd rfl (inside rfl)
    | cons o os => rfl
  | repeated op options r rs os => cases os <;> rfl
  | atom r i os => cases os <;> rfl
  | reference known i os => cases os <;> rfl

/-- A text without such a bar is one option. -/
theorem Runs.options_bottom (h : Runs value ls ts ls') (cut : Cuts cs ts)
    (none : hasTopBar ⟨ls.outer.length, .nothing⟩ cs = false) : ls'.bottom.options = ls.bottom.options := by
  induction h generalizing cs with
  | nil => rfl
  | @cons ls ls₁ ls' t ts first others ih =>
    cases cut with
    | cons spelled cut =>
      rename_i c w rest
      rw [← List.cons_append, hasTopBar_append, Bool.or_eq_false_iff, spelled.place, first.depth] at none
      rw [ih cut none.2]
      refine first.options_bottom ?_
      rintro rfl empty
      rw [spelled.eq_bar rfl, empty] at none
      exact Bool.noConfusion none.1

/-! ## Languages of levels -/

variable {property : PropertyTest} {l l' : Level} {r : Regex}

theorem languages_eq_map (rs : List Regex) : languages property rs = rs.map (language property) := by
  induction rs with
  | nil => rfl
  | cons r rs ih => rw [languages, ih, List.map_cons]

/-- The texts of the parts in a row. -/
def Level.row (property : PropertyTest) (l : Level) : Language Char :=
  (l.parts.reverse.map (language property)).prod

theorem Level.language_option (l : Level) : l.option.language property = l.row property := by
  obtain ⟨options, parts⟩ := l
  rw [Level.option, Level.row]
  cases parts with
  | nil => exact language.eq_1 property
  | cons r rs =>
    cases rs with
    | nil => exact (mul_one _).symm
    | cons r' rs => rw [language, languages_eq_map]

theorem Level.language_choice (l : Level) : l.choice.language property =
    (l.options.map (language property)).sum + l.row property := by
  obtain ⟨options, parts⟩ := l
  rw [← Level.language_option, Level.choice]
  cases options with
  | nil => exact (zero_add _).symm
  | cons r rs =>
    rw [language, languages_eq_map, List.map_reverse, List.sum_reverse, List.map_cons, List.sum_cons, add_comm]

/-! ## Texts put together -/

/-- Under the definitions a text is accepted, and it stands for a language. -/
def Denotes (definitions : OrderedMap String String) (property : PropertyTest) (source : String)
    (L : Language Char) : Prop :=
  ∃ r, parse definitions source = .ok r ∧ r.language property = L

variable {definitions : OrderedMap String String} {source : String} {K L : Language Char}

theorem denotes_iff : Denotes definitions property source L ↔ ∃ ts l, Cuts source.toList ts ∧
    Runs (referent definitions definitions.size []) {} ts ⟨l, []⟩ ∧ l.choice.language property = L := by
  constructor
  · rintro ⟨r, h, rfl⟩
    obtain ⟨ts, l, cut, runs, rfl⟩ := exists_cuts_of_parse h
    exact ⟨ts, l, cut, runs, rfl⟩
  · rintro ⟨ts, l, cut, runs, rfl⟩
    exact ⟨l.choice, parse_of_cuts cut runs, rfl⟩

theorem Denotes.alternatives (hu : Denotes definitions property u K) (hv : Denotes definitions property v L) :
    Denotes definitions property (u ++ "|" ++ v) (K + L) := by
  obtain ⟨ts, l, cut, runs, rfl⟩ := denotes_iff.1 hu
  obtain ⟨us, l', cut', runs', rfl⟩ := denotes_iff.1 hv
  obtain ⟨m, read, behind⟩ := runs'.behind l.nextOption []
  refine denotes_iff.2 ⟨ts ++ [.bar] ++ us, m, ?_, ?_, ?_⟩
  · rw [String.toList_append, String.toList_append]
    exact (cut.append Spells.bar.cuts).append cut'
  · exact (runs.append (Takes.bar l []).runs).append read
  · rw [behind.fresh rfl, Level.language_choice, Level.language_choice, Level.language_choice]
    simp only [Level.nextOption, Level.row, List.map_append, List.map_cons, List.sum_append, List.sum_cons,
      Level.language_option]
    abel

/-- A group and what stands behind it. -/
theorem Denotes.exists_group (hu : Denotes definitions property u K) : ∃ ts r,
    Cuts ("(" ++ u ++ ")").toList ts ∧ r.language property = K ∧
      ∀ base, Runs (referent definitions definitions.size []) ⟨base, []⟩ ts ⟨base.add r, []⟩ := by
  obtain ⟨ts, l, cut, runs, rfl⟩ := denotes_iff.1 hu
  refine ⟨_, l.choice, ?_, rfl, fun base => runs.group base []⟩
  rw [String.toList_append, String.toList_append]
  exact cut.group

theorem Denotes.groups (hu : Denotes definitions property u K) (hv : Denotes definitions property v L) :
    Denotes definitions property ("(" ++ u ++ ")" ++ ("(" ++ v ++ ")")) (K * L) := by
  obtain ⟨ts, p, cut, rfl, runs⟩ := hu.exists_group
  obtain ⟨us, q, cut', rfl, runs'⟩ := hv.exists_group
  refine denotes_iff.2 ⟨ts ++ us, _, ?_, (runs {}).append (runs' _), ?_⟩
  · rw [String.toList_append]
    exact cut.append cut'
  · rw [Level.language_choice]
    simp [Level.row, Level.add]

/-- What a repetition makes of a language. -/
def Repetition.denotation (op : Repetition) (L : Language Char) : Language Char :=
  match op with
  | .star => L∗
  | .plus => L * L∗
  | .opt => 1 + L

theorem Denotes.repeated (hu : Denotes definitions property u K) (op : Repetition) :
    Denotes definitions property ("(" ++ u ++ ")" ++ op.char.toString) (op.denotation K) := by
  obtain ⟨ts, p, cut, rfl, runs⟩ := hu.exists_group
  refine denotes_iff.2 ⟨ts ++ [.repeated op], _, ?_,
    (runs {}).append (Takes.repeated op [] p [] []).runs, ?_⟩
  · rw [String.toList_append, Char.toString_eq_singleton, String.toList_singleton]
    exact cut.append (spells_repeated op).cuts
  · cases op <;> exact language.eq_def property _

theorem Denotes.row (hu : Denotes definitions property u K) (hv : Denotes definitions property v L) :
    ∃ M, Denotes definitions property (u ++ v) M ∧
      (hasTopBar {} u.toList = false → hasTopBar {} v.toList = false → M = K * L) := by
  obtain ⟨ts, l, cut, runs, rfl⟩ := denotes_iff.1 hu
  obtain ⟨us, l', cut', runs', rfl⟩ := denotes_iff.1 hv
  obtain ⟨m, read, behind⟩ := runs'.behind l []
  refine ⟨_, denotes_iff.2 ⟨ts ++ us, m, ?_, runs.append read, rfl⟩, fun none none' => ?_⟩
  · rw [String.toList_append]
    exact cut.append cut'
  · have single : l.options = [] := runs.options_bottom cut none
    have single' : l'.options = [] := runs'.options_bottom cut' none'
    rw [behind.first single', Level.language_choice, Level.language_choice, Level.language_choice, single,
      single']
    simp [Level.row]

end ParserGenerator.Regex
