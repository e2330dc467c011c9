import Mathlib.Data.List.TakeWhile
import ParserGenerator.Regex.Reader

/-!
# Spelling of tokens

A token of a regular expression ends by itself: its text is that token at every offset and whatever stands
behind it. So the cuts of two texts make up a cut of the two texts in a row.
-/

namespace ParserGenerator.Regex

variable {c : Char} {w r cs ds rest : List Char} {t : Token} {ts us : List Token} {offset : Nat}

/-! ## What the scanners take -/

theorem quotedText_cons {quote d : Char} (plain : d ≠ '\\') : quotedText quote (d :: r) =
    if d = quote then some ([], r)
    else (quotedText quote r).map fun (cs, rest) => (d :: cs, rest) := by
  rw [quotedText]
  · rintro rfl
    exact absurd rfl plain
  · rintro _ _ rfl
    exact absurd rfl plain

/-- A character is no backslash if it is none in either place. -/
theorem ne_backslash {d : Char} (alone : d = '\\' → r = [] → False)
    (escape : ∀ e r', d = '\\' → r = e :: r' → False) : d ≠ '\\' := by
  intro same
  cases r with
  | nil => exact alone same rfl
  | cons e r' => exact escape e r' same rfl

/-- A quoted text ends at its closing quote. -/
theorem take_of_quotedText {quote : Char} {text : List Char}
    (h : quotedText quote cs = some (text, rest)) :
    ∃ w, cs = w ++ rest ∧ ∀ v, quotedText quote (w ++ v) = some (text, v) := by
  fun_induction quotedText quote cs generalizing text with
  | case1 => cases h
  | case2 => cases h
  | case3 d r ih =>
    obtain ⟨⟨inner, _⟩, found, same⟩ := Option.map_eq_some_iff.1 h
    obtain ⟨rfl, rfl⟩ := Prod.mk.inj same
    obtain ⟨w, rfl, taken⟩ := ih found
    refine ⟨'\\' :: d :: w, rfl, fun v => ?_⟩
    rw [List.cons_append, List.cons_append, quotedText, taken]
    rfl
  | case4 r alone escape =>
    cases h
    refine ⟨[quote], rfl, fun v => ?_⟩
    rw [List.singleton_append, quotedText_cons (ne_backslash alone escape), if_pos rfl]
  | case5 d r alone escape other ih =>
    obtain ⟨⟨inner, _⟩, found, same⟩ := Option.map_eq_some_iff.1 h
    obtain ⟨rfl, rfl⟩ := Prod.mk.inj same
    obtain ⟨w, rfl, taken⟩ := ih found
    refine ⟨d :: w, rfl, fun v => ?_⟩
    rw [List.cons_append, quotedText_cons (ne_backslash alone escape), if_neg other, taken]
    rfl

theorem members_cons {d : Char} (plain : d ≠ '\\') (inside : d ≠ ']') :
    members (d :: r) = (⟨d.toNat, false⟩ :: (members r).1, (members r).2) := by
  rw [members]
  · rintro rfl
    exact absurd rfl inside
  · rintro _ _ rfl
    exact absurd rfl plain

/-- A number behind a backslash ends at the first character that is no digit. -/
theorem members_octal {d : Char} {front back : List Char} (octal : isOctal d = true)
    (digits : ∀ x ∈ front, isOctal x = true) (stop : ∀ x ∈ back.head?, isOctal x = false) :
    members ('\\' :: d :: (front ++ back)) =
      (⟨octalValue (d :: front), true⟩ :: (members back).1, (members back).2) := by
  have none : back.takeWhile isOctal = [] ∧ back.dropWhile isOctal = back := by
    cases back with
    | nil => exact ⟨rfl, rfl⟩
    | cons x back =>
      have apart := stop x rfl
      exact ⟨List.takeWhile_cons_of_neg (by rw [apart]; exact Bool.false_ne_true),
        List.dropWhile_cons_of_neg (by rw [apart]; exact Bool.false_ne_true)⟩
  rw [members, if_pos octal, List.takeWhile_append_of_pos digits, List.dropWhile_append_of_pos digits,
    none.1, none.2, List.append_nil]

theorem ne_nil_of_members (h : (members cs).2 = some rest) : cs ≠ [] := by
  rintro rfl
  rw [members] at h
  cases h

/-- The members of a bracket end at the closing one. -/
theorem take_of_members (h : (members cs).2 = some rest) :
    ∃ w, w ≠ [] ∧ cs = w ++ rest ∧ ∀ v, members (w ++ v) = ((members cs).1, some v) := by
  fun_induction members cs with
  | case1 => cases h
  | case2 r =>
    cases h
    exact ⟨[']'], List.cons_ne_nil _ _, rfl, fun v => by rw [List.singleton_append, members]⟩
  | case3 d r octal found ih =>
    obtain ⟨w, some, same, taken⟩ := ih h
    have stop : ∀ v, ∀ x ∈ (w ++ v).head?, isOctal x = false := by
      obtain ⟨x, w, rfl⟩ := List.exists_cons_of_ne_nil some
      rintro v _ ⟨⟩
      have first := List.head?_dropWhile_not isOctal r
      rw [same] at first
      exact first
    refine ⟨'\\' :: d :: (r.takeWhile isOctal ++ w), List.cons_ne_nil _ _, ?_, fun v => ?_⟩
    · rw [List.cons_append, List.cons_append, List.append_assoc, ← same, List.takeWhile_append_dropWhile]
    · rw [List.cons_append, List.cons_append, List.append_assoc,
        members_octal octal (fun x mem => List.mem_takeWhile_imp mem) (stop v), taken]
  | case4 d r other found ih =>
    obtain ⟨w, -, rfl, taken⟩ := ih h
    refine ⟨'\\' :: d :: w, List.cons_ne_nil _ _, rfl, fun v => ?_⟩
    rw [List.cons_append, List.cons_append, members, if_neg other, taken]
  | case5 d r closing escape found ih =>
    have plain : d ≠ '\\' := ne_backslash (fun _ => ne_nil_of_members h) escape
    obtain ⟨w, -, rfl, taken⟩ := ih h
    refine ⟨d :: w, List.cons_ne_nil _ _, rfl, fun v => ?_⟩
    rw [List.cons_append, members_cons plain closing, taken]

/-- When there is a class, without regard to the place where it stands. -/
theorem bracketed_eq_ok : bracketed offset cs = .ok (t, rest) ↔ ∃ inverted ms ss,
    (cs.head? == some '^') = inverted ∧ members (if inverted then cs.drop 1 else cs) = (ms, some rest) ∧
      (ms.forM fun m => (codePoint m.code).map fun _ => ()) = .ok () ∧ spans ms = .ok ss ∧
      t = .atom (.oneOf (.ranges ss inverted)) := by
  constructor
  · intro h
    simp only [bracketed] at h
    split at h
    · cases h
    · cases h
    · rename_i fine found
      split at h
      · rename_i ss joined
        cases h
        exact ⟨_, _, ss, rfl, Prod.ext rfl found, fine, joined, rfl⟩
      · cases h
  · rintro ⟨inverted, ms, ss, mark, found, fine, joined, rfl⟩
    simp only [bracketed, mark, found, fine, joined]

/-- A class ends at its closing bracket. -/
theorem take_of_bracketed (h : bracketed offset cs = .ok (t, rest)) :
    ∃ w, cs = w ++ rest ∧ ∀ offset v, bracketed offset (w ++ v) = .ok (t, v) := by
  obtain ⟨inverted, ms, ss, mark, found, fine, joined, rfl⟩ := bracketed_eq_ok.1 h
  obtain ⟨w, some, same, taken⟩ := take_of_members (congrArg Prod.snd found)
  rw [congrArg Prod.fst found] at taken
  cases inverted with
  | true =>
    obtain ⟨r, rfl⟩ := List.head?_eq_some_iff.1 (eq_of_beq mark)
    refine ⟨'^' :: w, congrArg ('^' :: ·) same, fun offset v => ?_⟩
    exact bracketed_eq_ok.2 ⟨true, ms, ss, rfl, taken v, fine, joined, rfl⟩
  | false =>
    refine ⟨w, same, fun offset v => ?_⟩
    obtain ⟨x, w, rfl⟩ := List.exists_cons_of_ne_nil some
    rw [show cs = x :: w ++ rest from same] at mark
    exact bracketed_eq_ok.2 ⟨false, ms, ss, mark, taken v, fine, joined, rfl⟩

/-- A reference is a name between braces. -/
theorem take_of_braced (h : braced offset cs = .ok (t, rest)) : ∃ name, name ≠ [] ∧ '\x7d' ∉ name ∧
    cs = name ++ '\x7d' :: rest ∧ t = .reference (String.ofList name) := by
  simp only [braced] at h
  split at h
  · cases h
  · rename_i d r dropped
    split at h
    · cases h
    · rename_i named
      cases h
      have parts := List.takeWhile_append_dropWhile (p := fun x => decide (x ≠ '\x7d')) (l := cs)
      have behind : (cs.takeWhile (· ≠ '\x7d') ++ cs.dropWhile (· ≠ '\x7d')).drop
          (cs.takeWhile (· ≠ '\x7d')).length = cs.dropWhile (· ≠ '\x7d') := List.drop_left
      rw [parts, dropped] at behind
      refine ⟨cs.takeWhile (· ≠ '\x7d'), fun none => named (List.isEmpty_iff.2 none), fun mem => ?_, ?_,
        rfl⟩
      · have passes := List.mem_takeWhile_imp mem
        exact of_decide_eq_true passes rfl
      · have closing : d = '\x7d' := by
          have first := List.head?_dropWhile_not (· ≠ '\x7d') cs
          rw [← behind] at first
          exact Decidable.not_not.1 (of_decide_eq_false first)
        rw [closing] at behind
        rw [behind, parts]

theorem braced_append {name : List Char} (named : name ≠ []) (apart : '\x7d' ∉ name) :
    braced offset (name ++ '\x7d' :: rest) = .ok (.reference (String.ofList name), rest) := by
  have taken : (name ++ '\x7d' :: rest).takeWhile (· ≠ '\x7d') = name := by
    rw [List.takeWhile_append_of_pos, List.takeWhile_cons_of_neg, List.append_nil]
    · decide
    · intro x mem
      exact decide_eq_true fun same => apart (same ▸ mem)
  simp only [braced, taken, List.drop_left]
  rw [if_neg (fun none => named (List.isEmpty_iff.1 none))]

/-! ## The texts of the tokens -/

theorem token_quoted {quote : Char} {text : List Char} (mark : quote = '\x27' ∨ quote = '"')
    (found : quotedText quote r = some (text, rest)) :
    token offset quote r = .ok (.atom (.literal (String.ofList text)), rest) := by
  obtain rfl | rfl := mark <;> simp [token, found]

/-- The characters that stand neither for themselves nor for a repetition. -/
def marks : List Char := ['(', ')', '|', '.', '[', '\x27', '"', '\\', '\x7b', ']', '\x7d']

/-- The token of any other character. -/
def plain (c : Char) : Token :=
  match Repetition.ofChar? c with
  | some op => .repeated op
  | none => .atom (.literal c.toString)

theorem token_plain (unmarked : c ∉ marks) : token offset c r = .ok (plain c, r) := by
  simp only [marks, List.mem_cons, List.not_mem_nil, or_false, not_or] at unmarked
  unfold token plain
  simp only [unmarked, if_false, or_false]
  cases Repetition.ofChar? c <;> rfl

/-- The first character of a token, its other ones, and the token. -/
inductive Spells : Char → List Char → Token → Prop
  | openGroup : Spells '(' [] .openGroup
  | closeGroup : Spells ')' [] .closeGroup
  | bar : Spells '|' [] .bar
  | dot : Spells '.' [] (.atom (.oneOf (.ranges [(10, 10)] true)))
  | bracketed {w : List Char} {t : Token} (taken : ∀ offset v, bracketed offset (w ++ v) = .ok (t, v)) :
      Spells '[' w t
  | quoted {quote : Char} {text w : List Char} (mark : quote = '\x27' ∨ quote = '"')
      (taken : ∀ v, quotedText quote (w ++ v) = some (text, v)) :
      Spells quote w (.atom (.literal (String.ofList text)))
  | escape (d : Char) : Spells '\\' [d] (.atom (escapeAtom d))
  | reference {name : List Char} (named : name ≠ []) (apart : '\x7d' ∉ name) :
      Spells '\x7b' (name ++ ['\x7d']) (.reference (String.ofList name))
  | plain {c : Char} (unmarked : c ∉ marks) : Spells c [] (plain c)

theorem spells_repeated (op : Repetition) : Spells op.char [] (.repeated op) := by
  cases op <;> exact .plain (by decide)

/-- The text of a token is that token at every offset, whatever stands behind it. -/
theorem Spells.token (h : Spells c w t) (offset : Nat) (v : List Char) :
    token offset c (w ++ v) = .ok (t, v) := by
  cases h with
  | openGroup | closeGroup | bar | dot | escape => rfl
  | bracketed taken => exact taken offset v
  | quoted mark taken => exact token_quoted mark (taken v)
  | reference named apart =>
    rw [← List.append_cons]
    exact braced_append named apart
  | plain unmarked => exact token_plain unmarked

/-- A token that is found has a text. -/
theorem exists_spells (h : token offset c r = .ok (t, rest)) : ∃ w, r = w ++ rest ∧ Spells c w t := by
  by_cases marked : c ∈ marks
  · simp only [marks, List.mem_cons, List.not_mem_nil, or_false] at marked
    have quoted (mark : c = '\x27' ∨ c = '"') : ∃ w, r = w ++ rest ∧ Spells c w t := by
      cases found : quotedText c r with
      | none => obtain rfl | rfl := mark <;> simp [token, found] at h
      | some x =>
        rw [token_quoted mark found] at h
        cases h
        obtain ⟨w, same, taken⟩ := take_of_quotedText found
        exact ⟨w, same, .quoted mark taken⟩
    rcases marked with rfl | rfl | rfl | rfl | rfl | mark | mark | rfl | rfl | rfl | rfl
    · cases h
      exact ⟨[], rfl, .openGroup⟩
    · cases h
      exact ⟨[], rfl, .closeGroup⟩
    · cases h
      exact ⟨[], rfl, .bar⟩
    · cases h
      exact ⟨[], rfl, .dot⟩
    · obtain ⟨w, same, taken⟩ := take_of_bracketed h
      exact ⟨w, same, .bracketed taken⟩
    · exact quoted (.inl mark)
    · exact quoted (.inr mark)
    · cases r with
      | nil => cases h
      | cons d r =>
        cases h
        exact ⟨[d], rfl, .escape d⟩
    · obtain ⟨name, named, apart, rfl, rfl⟩ := take_of_braced h
      exact ⟨name ++ ['\x7d'], List.append_cons _ _ _, .reference named apart⟩
    · cases h
    · cases h
  · rw [token_plain marked] at h
    cases h
    exact ⟨[], rfl, .plain marked⟩

/-! ## Texts in a row -/

/-- A text is cut into tokens. -/
inductive Cuts : List Char → List Token → Prop
  | nil : Cuts [] []
  | cons {c : Char} {w rest : List Char} {t : Token} {ts : List Token} (first : Spells c w t)
      (others : Cuts rest ts) : Cuts (c :: (w ++ rest)) (t :: ts)

theorem Cuts.append (h : Cuts cs ts) (h' : Cuts ds us) : Cuts (cs ++ ds) (ts ++ us) := by
  induction h with
  | nil => exact h'
  | cons first _ ih =>
    rw [List.cons_append, List.append_assoc]
    exact .cons first ih

theorem Spells.cuts (h : Spells c w t) : Cuts (c :: w) [t] := by
  rw [← List.append_nil w]
  exact .cons h .nil

theorem Cuts.group (h : Cuts cs ts) : Cuts ('(' :: (cs ++ [')'])) (.openGroup :: (ts ++ [.closeGroup])) :=
  Spells.openGroup.cuts.append (h.append Spells.closeGroup.cuts)

/-! ## The scan -/

theorem scan_of_token (h : token offset c r = .ok (t, rest)) : scan offset (c :: r) =
    (⟨t, offset, offset + 1 + (r.length - rest.length)⟩ ::
      (scan (offset + 1 + (r.length - rest.length)) rest).1,
      (scan (offset + 1 + (r.length - rest.length)) rest).2) := by
  rw [scan]
  split
  · rename_i stop found
    rw [found] at h
    cases h
  · rename_i found
    rw [found] at h
    cases h
    rfl

theorem scan_of_stop {stop : Stop} (h : token offset c r = .error stop) :
    scan offset (c :: r) = ([], some stop) := by
  rw [scan]
  split
  · rename_i found
    rw [found] at h
    cases h
    rfl
  · rename_i found
    rw [found] at h
    cases h

/-- A scan passes over what is cut into tokens. -/
theorem Cuts.scan_append (h : Cuts cs ts) (offset : Nat) (rest : List Char) :
    ∃ located, located.map Located.token = ts ∧ scan offset (cs ++ rest) =
      (located ++ (scan (offset + cs.length) rest).1, (scan (offset + cs.length) rest).2) := by
  induction h generalizing offset with
  | nil => exact ⟨[], rfl, rfl⟩
  | @cons c w others t ts first _ ih =>
    have passed : offset + 1 + ((w ++ (others ++ rest)).length - (others ++ rest).length) =
        offset + (c :: w).length := by
      rw [List.length_append, List.length_cons]
      omega
    obtain ⟨located, same, found⟩ := ih (offset + (c :: w).length)
    refine ⟨⟨t, offset, offset + (c :: w).length⟩ :: located, by rw [List.map_cons, same], ?_⟩
    have ended : offset + (c :: (w ++ others)).length = offset + (c :: w).length + others.length := by
      rw [← List.cons_append, List.length_append, Nat.add_assoc]
    rw [List.cons_append, List.append_assoc, scan_of_token (first.token offset (others ++ rest)), passed,
      found, ended]
    rfl

/-- The scan of a text that is cut into tokens. -/
theorem Cuts.scan (h : Cuts cs ts) (offset : Nat) : ∃ located, located.map Located.token = ts ∧
    scan offset cs = (located, none) := by
  obtain ⟨located, same, found⟩ := h.scan_append offset []
  rw [Regex.scan, List.append_nil, List.append_nil] at found
  exact ⟨located, same, found⟩

variable {ended : Option Stop} {l : Located} {front back located : List Located}

theorem nil_of_scan (h : scan offset cs = ([], none)) : cs = [] := by
  cases cs with
  | nil => rfl
  | cons c r =>
    cases found : token offset c r with
    | error stop =>
      rw [scan_of_stop found] at h
      cases h
    | ok x =>
      rw [scan_of_token found] at h
      cases h

/-- The first token of a scan, and the scan of the rest. -/
theorem cons_of_scan (h : scan offset cs = (l :: located, ended)) :
    ∃ c w rest, cs = c :: (w ++ rest) ∧ Spells c w l.token ∧ l.start = offset ∧
      l.stop = offset + (c :: w).length ∧ scan l.stop rest = (located, ended) := by
  cases cs with
  | nil =>
    rw [scan] at h
    cases h
  | cons c r =>
    cases found : token offset c r with
    | error stop =>
      rw [scan_of_stop found] at h
      cases h
    | ok x =>
      obtain ⟨t, rest⟩ := x
      rw [scan_of_token found] at h
      obtain ⟨listed, same⟩ := Prod.mk.inj h
      obtain ⟨rfl, rfl⟩ := List.cons.inj listed
      obtain ⟨w, rfl, spelled⟩ := exists_spells found
      refine ⟨c, w, rest, rfl, spelled, rfl, ?_, Prod.ext rfl same⟩
      change offset + 1 + ((w ++ rest).length - rest.length) = _
      rw [List.length_append, List.length_cons]
      omega

/-- A scan stops at once where there is no token. -/
theorem cons_of_stopped {stop : Stop} (h : scan offset cs = ([], some stop)) :
    ∃ c r, cs = c :: r ∧ token offset c r = .error stop := by
  cases cs with
  | nil =>
    rw [scan] at h
    cases h
  | cons c r =>
    cases found : token offset c r with
    | error stop =>
      rw [scan_of_stop found] at h
      cases h
      exact ⟨c, r, rfl, found⟩
    | ok x =>
      rw [scan_of_token found] at h
      cases h

/-- What a scan has passed over is cut into the tokens that are found there. -/
theorem cuts_front_of_scan (h : scan offset cs = (front ++ back, ended)) : ∃ before rest,
    cs = before ++ rest ∧ Cuts before (front.map Located.token) ∧
      scan (offset + before.length) rest = (back, ended) := by
  induction front generalizing offset cs with
  | nil => exact ⟨[], cs, rfl, .nil, h⟩
  | cons f front ih =>
    obtain ⟨c, w, rest, rfl, spelled, start, stop, others⟩ := cons_of_scan h
    obtain ⟨before, rest, rfl, cut, found⟩ := ih others
    refine ⟨c :: (w ++ before), rest, ?_, .cons spelled cut, ?_⟩
    · rw [List.cons_append, List.append_assoc]
    · rw [← found, stop, ← List.cons_append, List.length_append, Nat.add_assoc]

/-- A text that is scanned to its end is cut into the tokens that are found. -/
theorem cuts_of_scan (h : scan offset cs = (located, none)) : Cuts cs (located.map Located.token) := by
  rw [← List.append_nil located] at h
  obtain ⟨before, rest, rfl, cut, found⟩ := cuts_front_of_scan h
  rw [nil_of_scan found, List.append_nil]
  exact cut

/-- Each token of a scan lies between the offsets that are given with it. -/
theorem exists_cuts_around (h : scan offset cs = (front ++ l :: back, none)) :
    ∃ before text behind, cs = before ++ (text ++ behind) ∧
      Cuts before (front.map Located.token) ∧ Cuts text [l.token] ∧
      Cuts behind (back.map Located.token) ∧
      l.start = offset + before.length ∧ l.stop = l.start + text.length := by
  obtain ⟨before, rest, rfl, cut, found⟩ := cuts_front_of_scan h
  obtain ⟨c, w, rest, rfl, spelled, start, stop, others⟩ := cons_of_scan found
  exact ⟨before, c :: w, rest, rfl, cut, spelled.cuts, cuts_of_scan others, start, by rw [stop, start]⟩

end ParserGenerator.Regex
