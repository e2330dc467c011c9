import Mathlib.Data.Nat.Digits.Defs
import ParserGenerator.Json.Printer
import ParserGenerator.Json.Reader

/-!
# JSON text is read back

A value made of texts, whole numbers, arrays, and objects that name no field twice is read back from its
text, unless a number in it is too long to be read.
-/

namespace ParserGenerator.Json

variable {o : Nat} {rest : List Char}

/-- The reader gives a value for the characters and goes on behind them. -/
def Reads {α : Type} (read : Cursor → Except Failure (α × Cursor)) (text : List Char) (a : α)
    (rest : List Char) : Prop :=
  ∀ o, read ⟨o, text ++ rest⟩ = .ok (a, ⟨o + text.length, rest⟩)

/-! ## Strings -/

theorem number?_padded : ∀ n : Nat, n < 32 → Hex.number? (Hex.padded 4 n) = some n := by decide

theorem unitChar_of_control : ∀ n : Nat, n < 32 → unitChar n = Char.ofNat n := by decide

/-- A control character is read from its number in four digits. -/
theorem stringBody_unit (opened o : Nat) {n : Nat} (low : n < 32) {x : Char} {r acc : List Char} :
    stringBody opened o ('\\' :: 'u' :: Hex.padded 4 n ++ x :: r) acc =
      stringBody opened (o + 6) (x :: r) (Char.ofNat n :: acc) := by
  have digits := number?_padded n low
  have plain : isHighSurrogate n = false := by
    simp only [isHighSurrogate, Bool.and_eq_false_iff, decide_eq_false_iff_not]
    omega
  obtain ⟨a, b, c, d, eq⟩ : ∃ a b c d, Hex.padded 4 n = [a, b, c, d] := by
    simp [Hex.padded]
  rw [eq] at digits
  rw [eq]
  show stringBody opened o ('\\' :: 'u' :: a :: b :: c :: d :: x :: r) acc = _
  -- What follows may look like the second half of a pair; the first half is none.
  by_cases pair : ∃ e f g h y r', x = '\\' ∧ r = 'u' :: e :: f :: g :: h :: y :: r'
  · obtain ⟨e, f, g, h, y, r', rfl, rfl⟩ := pair
    rw [stringBody, digits]
    simp only [plain, Bool.false_eq_true, if_false, unitChar_of_control n low]
  · rw [stringBody.eq_5]
    · simp only [digits, unitChar_of_control n low]
    · exact fun e f g h y r' first later => pair ⟨e, f, g, h, y, r', first, later⟩

/-- A few characters are written as a backslash and a letter, the other control characters by their numbers,
and all others as they are. -/
theorem escape_cases (c : Char) :
    (c = '"' ∨ c = '\\' ∨ c = '\n' ∨ c = '\r' ∨ c = '\t' ∨ c = '\x0c' ∨ c = '\x08') ∨
      c.toNat < 0x20 ∧ escape c = '\\' :: 'u' :: Hex.padded 4 c.toNat ∨
      ¬ c.toNat < 0x20 ∧ c ≠ '"' ∧ c ≠ '\\' ∧ escape c = [c] := by
  by_cases simple : c = '"' ∨ c = '\\' ∨ c = '\n' ∨ c = '\r' ∨ c = '\t' ∨ c = '\x0c' ∨ c = '\x08'
  · exact .inl simple
  · simp only [not_or] at simple
    obtain ⟨quote, backslash, newline, feed, tab, page, back⟩ := simple
    by_cases control : c.toNat < 0x20
    · refine .inr (.inl ⟨control, ?_⟩)
      simp [escape, quote, backslash, newline, feed, tab, page, back, control]
    · refine .inr (.inr ⟨control, quote, backslash, ?_⟩)
      simp [escape, quote, backslash, newline, feed, tab, page, back, control]

/-- Each character is read from what is written for it. -/
theorem stringBody_escape (opened o : Nat) (c x : Char) (r acc : List Char) :
    stringBody opened o (escape c ++ x :: r) acc =
      stringBody opened (o + (escape c).length) (x :: r) (c :: acc) := by
  rcases escape_cases c with simple | ⟨control, escaped⟩ | ⟨high, quote, backslash, plain⟩
  · rcases simple with rfl | rfl | rfl | rfl | rfl | rfl | rfl <;>
      simp [escape, stringBody, simpleEscape?]
  · rw [escaped, stringBody_unit opened o control, Char.ofNat_toNat]
    simp
  · rw [plain, List.singleton_append, stringBody]
    · simp only [if_neg high]
      rfl
    all_goals simp [quote, backslash]

theorem stringBody_eq (opened o : Nat) (cs acc : List Char) (rest : List Char) :
    stringBody opened o (cs.flatMap escape ++ '"' :: rest) acc =
      .ok (String.ofList (acc.reverse ++ cs), ⟨o + (cs.flatMap escape).length + 1, rest⟩) := by
  induction cs generalizing o acc with
  | nil => simp [stringBody]
  | cons c cs ih =>
    obtain ⟨x, r, eq⟩ : ∃ x r, cs.flatMap escape ++ '"' :: rest = x :: r := by
      cases cs.flatMap escape <;> simp
    rw [List.flatMap_cons, List.append_assoc, eq, stringBody_escape, ← eq, ih]
    simp [Nat.add_assoc]

theorem reads_string (s : String) : Reads string (renderString s) s rest := by
  intro o
  rw [string]
  show stringBody o (o + 1) ((s.toList.flatMap escape ++ ['"']) ++ rest) [] = _
  rw [List.append_assoc, List.singleton_append, stringBody_eq]
  simp [renderString]
  omega

/-! ## Numbers -/

/-- What stands behind a value: the end, a comma, or a closing bracket or brace. -/
def Stops : List Char → Prop
  | [] => True
  | c :: _ => c = ',' ∨ c = ']' ∨ c = '\x7d'

theorem toDigits_head {n : Nat} (positive : 0 < n) :
    ∃ d ds, Nat.toDigits 10 n = d :: ds ∧ d ≠ '0' := by
  induction n using Nat.strongRecOn with
  | ind n ih =>
    by_cases small : n < 10
    · have digit : ∀ d < 10, 0 < d → Nat.digitChar d ≠ '0' := by decide
      exact ⟨_, [], Nat.toDigits_of_lt_base small, digit n small positive⟩
    · obtain ⟨d, ds, front, ne⟩ := ih (n / 10) (by omega) (by omega)
      refine ⟨d, ds ++ [Nat.digitChar (n % 10)], ?_, ne⟩
      rw [Nat.toDigits_of_base_le (by omega) (by omega), front]
      rfl

theorem digits_append (n : Nat) (stops : Stops rest) :
    digits (Nat.toDigits 10 n ++ rest) = Nat.toDigits 10 n := by
  have behind : digits rest = [] := by
    cases rest with
    | nil => rfl
    | cons c r => rcases stops with rfl | rfl | rfl <;> rfl
  have inside : ∀ c ∈ Nat.toDigits 10 n, c.isDigit = true :=
    fun c mem => Nat.isDigit_of_mem_toDigits (by decide) (by decide) mem
  rw [digits, List.takeWhile_append_of_pos inside, ← digits, behind, List.append_nil]

theorem places_of_stops (stops : Stops rest) : places rest = [] := by
  cases rest with
  | nil => rfl
  | cons c r => rcases stops with rfl | rfl | rfl <;> rfl

theorem exponent_of_stops (stops : Stops rest) : exponent? rest = none := by
  cases rest with
  | nil => rfl
  | cons c r => rcases stops with rfl | rfl | rfl <;> rfl

/-- The number is not too long to be read. -/
def Short (n : Int) : Prop := (Nat.toDigits 10 n.natAbs).length ≤ digitLimit

instance (n : Int) : Decidable (Short n) :=
  inferInstanceAs (Decidable ((Nat.toDigits 10 n.natAbs).length ≤ digitLimit))

/-- A number is read from its sign and its digits, unless they are too many. -/
theorem number_eq (sign ds : List Char) (signed : sign = [] ∨ sign = ['-'])
    (taken : digits (ds ++ rest) = ds) (ne : ds ≠ []) (zero : ∀ r, ds = '0' :: r → r = [])
    (stops : Stops rest) (o : Nat) :
    number ⟨o, sign ++ (ds ++ rest)⟩ =
      if digitLimit < ds.length then .error (.tooManyDigits ds.length)
      else .ok (.int (if sign = [] then natural ds else -natural ds),
        ⟨o + sign.length + ds.length, rest⟩) := by
  obtain ⟨d, r, rfl⟩ := List.exists_cons_of_ne_nil ne
  have digit : d.isDigit = true := by
    by_contra other
    rw [List.cons_append, digits, List.takeWhile_cons_of_neg other] at taken
    cases taken
  have plain : d ≠ '-' := fun eq => absurd (eq ▸ digit) (by decide)
  rw [List.cons_append] at taken
  by_cases leading : d = '0'
  · subst leading
    obtain rfl := zero r rfl
    rw [List.nil_append] at taken
    rcases signed with rfl | rfl <;>
      simp [number, taken, Cursor.skip, places_of_stops stops, exponent_of_stops stops, digitLimit]
  · rcases signed with rfl | rfl <;>
      simp [number, taken, plain, leading, Cursor.skip, places_of_stops stops, exponent_of_stops stops]

theorem toList_negSucc (m : Nat) :
    (toString (Int.negSucc m)).toList = '-' :: Nat.toDigits 10 (m + 1) := by
  show ("-" ++ Nat.repr (m + 1)).toList = _
  rw [String.toList_append, Nat.toList_repr]
  rfl

theorem number_toDigits (sign : List Char) (signed : sign = [] ∨ sign = ['-']) (n : Nat)
    (stops : Stops rest) (o : Nat) :
    number ⟨o, sign ++ (Nat.toDigits 10 n ++ rest)⟩ =
      if digitLimit < (Nat.toDigits 10 n).length then .error (.tooManyDigits (Nat.toDigits 10 n).length)
      else .ok (.int (if sign = [] then n else -n),
        ⟨o + sign.length + (Nat.toDigits 10 n).length, rest⟩) := by
  have zero : ∀ r, Nat.toDigits 10 n = '0' :: r → r = [] := by
    intro r eq
    by_cases none : n = 0
    · rw [none, Nat.toDigits_zero] at eq
      cases eq
      rfl
    · obtain ⟨d, ds, eq', ne⟩ := toDigits_head (Nat.pos_of_ne_zero none)
      rw [eq'] at eq
      cases eq
      exact absurd rfl ne
  have denoted : natural (Nat.toDigits 10 n) = n := Nat.ofDigitChars_toDigits (by decide) (by decide)
  have read := number_eq sign _ signed (digits_append n stops) Nat.toDigits_ne_nil zero stops o
  rwa [denoted] at read

/-- A number begins with a digit, or with a sign and a digit. -/
theorem toString_head (n : Int) : ∃ d ds, d.isDigit = true ∧
    ((toString n).toList = d :: ds ∨ (toString n).toList = '-' :: d :: ds) := by
  have begins : ∀ m, ∃ d ds, d.isDigit = true ∧ Nat.toDigits 10 m = d :: ds := by
    intro m
    obtain ⟨d, ds, eq⟩ := List.exists_cons_of_ne_nil (Nat.toDigits_ne_nil (n := m) (b := 10))
    have mem : d ∈ Nat.toDigits 10 m := eq ▸ List.mem_cons_self
    exact ⟨d, ds, Nat.isDigit_of_mem_toDigits (by decide) (by decide) mem, eq⟩
  cases n with
  | ofNat m =>
    obtain ⟨d, ds, digit, eq⟩ := begins m
    exact ⟨d, ds, digit, .inl (Nat.toList_repr.trans eq)⟩
  | negSucc m =>
    obtain ⟨d, ds, digit, eq⟩ := begins (m + 1)
    exact ⟨d, ds, digit, .inr ((toList_negSucc m).trans (congrArg _ eq))⟩

theorem number_toString (n : Int) (stops : Stops rest) (o : Nat) :
    number ⟨o, (toString n).toList ++ rest⟩ =
      if digitLimit < (Nat.toDigits 10 n.natAbs).length then
        .error (.tooManyDigits (Nat.toDigits 10 n.natAbs).length)
      else .ok (.int n, ⟨o + (toString n).toList.length, rest⟩) := by
  cases n with
  | ofNat m =>
    have text : (toString (Int.ofNat m)).toList = Nat.toDigits 10 m := Nat.toList_repr
    rw [text]
    exact number_toDigits [] (.inl rfl) m stops o
  | negSucc m =>
    have read := number_toDigits ['-'] (.inr rfl) (m + 1) stops o
    have place : o + ['-'].length + (Nat.toDigits 10 (m + 1)).length =
        o + ('-' :: Nat.toDigits 10 (m + 1)).length := by
      simp only [List.length_cons, List.length_nil]
      omega
    rw [place] at read
    rw [toList_negSucc]
    exact read

/-! ## Values -/

/-- A value of texts and whole numbers in which an object names no field twice. -/
inductive Written : Value → Prop
  | null : Written .null
  | string (s : String) : Written (.string s)
  | int (n : Int) : Written (.int n)
  | array {vs : List Value} : (∀ v ∈ vs, Written v) → Written (.array vs)
  | object {fs : List (String × Value)} : (fs.map Prod.fst).Nodup → (∀ f ∈ fs, Written f.2) →
    Written (.object fs)

/-- A value of which the text can be read: a whole number is not too long, an object names no field twice. -/
inductive Plain : Value → Prop
  | null : Plain .null
  | string (s : String) : Plain (.string s)
  | int {n : Int} : Short n → Plain (.int n)
  | array {vs : List Value} : (∀ v ∈ vs, Plain v) → Plain (.array vs)
  | object {fs : List (String × Value)} : (fs.map Prod.fst).Nodup → (∀ f ∈ fs, Plain f.2) →
    Plain (.object fs)

theorem Plain.written {v : Value} (plain : Plain v) : Written v := by
  induction plain with
  | null => exact .null
  | string s => exact .string s
  | int _ => exact .int _
  | array _ ih => exact .array ih
  | object distinct _ ih => exact .object distinct ih

/-- A value without parts, of which the text can be read. -/
def Scalar : Value → Prop
  | .null | .string _ => True
  | .int n => Short n
  | _ => False

instance : DecidablePred Scalar
  | .null | .string _ => isTrue trivial
  | .int n => inferInstanceAs (Decidable (Short n))
  | .bool _ | .float _ | .array _ | .object _ => isFalse id

theorem Scalar.plain {v : Value} (scalar : Scalar v) : Plain v := by
  cases v with
  | null => exact .null
  | string s => exact .string s
  | int n => exact .int scalar
  | _ => exact scalar.elim

/-- No value begins with a blank, with the bracket that closes an array, or with a byte order mark. -/
theorem Written.exists_head {v : Value} (written : Written v) :
    ∃ c cs, v.chars = c :: cs ∧ Cursor.isBlank c = false ∧ c ≠ ']' ∧ c ≠ '\ufeff' := by
  cases written with
  | null => exact ⟨'n', _, rfl, by decide, by decide, by decide⟩
  | string s => exact ⟨'"', _, rfl, by decide, by decide, by decide⟩
  | array each => exact ⟨'[', _, by rw [Value.chars]; rfl, by decide, by decide, by decide⟩
  | object distinct each => exact ⟨'\x7b', _, by rw [Value.chars]; rfl, by decide, by decide, by decide⟩
  | int n =>
    rw [Value.chars]
    obtain ⟨d, ds, digit, eq | eq⟩ := toString_head n
    · have other : ∀ c : Char, c.isDigit = false → d ≠ c := by
        rintro c none rfl
        rw [none] at digit
        cases digit
      have unblank : Cursor.isBlank d = false := by
        simp [Cursor.isBlank, other ' ' rfl, other '\t' rfl, other '\n' rfl, other '\r' rfl]
      exact ⟨d, ds, eq, unblank, other _ rfl, other _ rfl⟩
    · exact ⟨'-', d :: ds, eq, by decide, by decide, by decide⟩

theorem word?_toString (n : Int) (o : Nat) : word? ⟨o, (toString n).toList ++ rest⟩ = none := by
  obtain ⟨d, ds, digit, eq⟩ := toString_head n
  have other : ∀ c : Char, c.isDigit = false → c ≠ d := by
    rintro c none rfl
    rw [none] at digit
    cases digit
  rcases eq with eq | eq <;> rw [eq] <;>
    simp [word?, words, other 'n' rfl, other 't' rfl, other 'f' rfl, other 'N' rfl, other 'I' rfl,
      other '-' rfl]

theorem skipBlanks_of_head {c : Char} (unblank : Cursor.isBlank c = false) (o : Nat) (r : List Char) :
    Cursor.skipBlanks ⟨o, c :: r⟩ = ⟨o, c :: r⟩ := by
  simp [Cursor.skipBlanks, Cursor.skip, unblank]

theorem skipBlanks_blank {c : Char} (unblank : Cursor.isBlank c = false) (o : Nat) (r : List Char) :
    Cursor.skipBlanks ⟨o, ' ' :: c :: r⟩ = ⟨o + 1, c :: r⟩ := by
  simp [Cursor.skipBlanks, Cursor.skip, unblank, show Cursor.isBlank ' ' = true from rfl]

/-- The reader gives the value for the characters and goes on behind them; if not, it finds a number with
too many digits, and one of the values is not plain. -/
def Told (x : Except Failure (Value × Cursor)) (v : Value) (c : Cursor) (plain : Prop) : Prop :=
  x = .ok (v, c) ∨ ¬ plain ∧ ∃ n, x = .error (.tooManyDigits n)

/-- The value is read with any bound on the nesting that exceeds its length. -/
def Readable (v : Value) : Prop :=
  ∀ bound, v.chars.length < bound → ∀ rest, Stops rest → ∀ o,
    Told (value bound ⟨o, v.chars ++ rest⟩) v ⟨o + v.chars.length, rest⟩ (Plain v)

/-- The first item of an array is read up to what stands behind it. -/
theorem items_step {b o o' : Nat} {cs : List Char} {v : Value} {c : Char} {r : List Char}
    (read : value b ⟨o, cs⟩ = .ok (v, ⟨o', c :: r⟩)) (behind : c = ',' ∨ c = ']')
    (before : List Value) :
    items (b + 1) ⟨o, cs⟩ before =
      if c = ']' then .ok (.array (v :: before).reverse, ⟨o' + 1, r⟩)
      else items b (Cursor.skipBlanks ⟨o' + 1, r⟩) (v :: before) := by
  have unblank : Cursor.isBlank c = false := by rcases behind with rfl | rfl <;> rfl
  rw [items, read]
  simp only [bind, Except.bind, skipBlanks_of_head unblank]
  rcases behind with rfl | rfl
  · rw [if_neg (by decide)]
    rfl
  · rw [if_pos rfl]
    rfl

/-- A number with too many digits stops the reader of an array. -/
theorem items_of_error {b : Nat} {c : Cursor} {e : Failure} (failed : value b c = .error e)
    (before : List Value) : items (b + 1) c before = .error e := by
  rw [items, failed]
  rfl

/-- The items of an array are read one after the other. -/
theorem items_eq {v : Value} {vs : List Value} (written : ∀ x ∈ v :: vs, Written x)
    (readable : ∀ x ∈ v :: vs, Readable x) (bound : Nat)
    (room : (commaSeparated (Value.charsOfAll (v :: vs))).length + 1 < bound) (o : Nat)
    (before : List Value) (rest : List Char) :
    Told (items bound ⟨o, commaSeparated (Value.charsOfAll (v :: vs)) ++ ']' :: rest⟩ before)
      (.array (before.reverse ++ v :: vs))
      ⟨o + (commaSeparated (Value.charsOfAll (v :: vs))).length + 1, rest⟩ (∀ x ∈ v :: vs, Plain x) := by
  obtain ⟨b, rfl⟩ : ∃ b, bound = b + 1 := ⟨bound - 1, by omega⟩
  induction vs generalizing v b o before with
  | nil =>
    simp only [Value.charsOfAll, commaSeparated] at room ⊢
    rcases readable v List.mem_cons_self b (by omega) (']' :: rest) (.inr (.inl rfl)) o with
      read | ⟨long, n, failed⟩
    · left
      rw [items_step read (.inr rfl), if_pos rfl, List.reverse_cons]
    · exact .inr ⟨fun plain => long (plain v List.mem_cons_self), n, items_of_error failed _⟩
  | cons w ws ih =>
    obtain ⟨-, later⟩ := List.forall_mem_cons.1 written
    obtain ⟨first, readable⟩ := List.forall_mem_cons.1 readable
    obtain ⟨c, cs, head, unblank, -, -⟩ := (later w List.mem_cons_self).exists_head
    have split : commaSeparated (Value.charsOfAll (v :: w :: ws)) =
        v.chars ++ ',' :: ' ' :: commaSeparated (Value.charsOfAll (w :: ws)) := rfl
    rw [split, List.length_append, List.length_cons, List.length_cons] at room
    obtain ⟨tail, front⟩ : ∃ tail, commaSeparated (Value.charsOfAll (w :: ws)) ++ ']' :: rest =
        c :: tail := by
      cases ws <;> simp [Value.charsOfAll, commaSeparated, head]
    obtain ⟨b', rfl⟩ : ∃ b', b = b' + 1 := ⟨b - 1, by omega⟩
    have next := ih later readable (o + v.chars.length + 1 + 1) (v :: before) b' (by omega)
    rw [front] at next
    rw [split, List.append_assoc, List.cons_append, List.cons_append, front]
    rcases first (b' + 1) (by omega) (',' :: ' ' :: c :: tail) (.inl rfl) o with read | ⟨long, n, failed⟩
    · rw [items_step read (.inl rfl), if_neg (by decide), skipBlanks_blank unblank]
      have place : o + v.chars.length + 1 + 1 + (commaSeparated (Value.charsOfAll (w :: ws))).length + 1 =
          o + (v.chars ++ ',' :: ' ' :: commaSeparated (Value.charsOfAll (w :: ws))).length + 1 := by
        simp only [List.length_append, List.length_cons]
        omega
      rw [place, List.reverse_cons, List.append_assoc, List.singleton_append] at next
      exact next.imp_right fun ⟨long, stopped⟩ => ⟨fun plain => long (List.forall_mem_cons.1 plain).2, stopped⟩
    · exact .inr ⟨fun plain => long (plain v List.mem_cons_self), n, items_of_error failed _⟩

theorem setField_append {name : String} {v : Value} {fs : List (String × Value)}
    (new : name ∉ fs.map Prod.fst) : Value.setField name v fs = fs ++ [(name, v)] := by
  induction fs with
  | nil => rfl
  | cons f fs ih =>
    rw [List.map_cons, List.mem_cons, not_or] at new
    rw [Value.setField, if_neg fun eq => new.1 eq.symm, ih new.2, List.cons_append]

/-- The first field of an object is read up to what stands behind its value. -/
theorem fields_step {f : String × Value} (written : Written f.2) (readable : Readable f.2) {b : Nat}
    (room : f.2.chars.length < b) {c : Char} {r : List Char} (behind : c = ',' ∨ c = '\x7d') (o : Nat)
    {before : List (String × Value)} (new : f.1 ∉ before.map Prod.fst) :
    fields (b + 1) ⟨o, renderString f.1 ++ ':' :: ' ' :: f.2.chars ++ c :: r⟩ before =
      (if c = '\x7d' then
        .ok (.object (before ++ [f]), ⟨o + (renderString f.1).length + 2 + f.2.chars.length + 1, r⟩)
      else fields b (Cursor.skipBlanks ⟨o + (renderString f.1).length + 2 + f.2.chars.length + 1, r⟩)
        (before ++ [f])) ∨
    ¬ Plain f.2 ∧ ∃ n, fields (b + 1) ⟨o, renderString f.1 ++ ':' :: ' ' :: f.2.chars ++ c :: r⟩ before =
      .error (.tooManyDigits n) := by
  obtain ⟨d, ds, head, unblank, -, -⟩ := written.exists_head
  have text : renderString f.1 ++ ':' :: ' ' :: f.2.chars ++ c :: r =
      renderString f.1 ++ ':' :: ' ' :: d :: (ds ++ c :: r) := by
    rw [List.append_assoc, head]
    rfl
  have quote : (renderString f.1 ++ ':' :: ' ' :: d :: (ds ++ c :: r)).head? = some '"' := rfl
  have named : string ⟨o, renderString f.1 ++ ':' :: ' ' :: d :: (ds ++ c :: r)⟩ =
      .ok (f.1, ⟨o + (renderString f.1).length, ':' :: ' ' :: d :: (ds ++ c :: r)⟩) :=
    reads_string f.1 o
  have stops : Stops (c :: r) := behind.imp id .inr
  have told := readable b room (c :: r) stops (o + (renderString f.1).length + 1 + 1)
  rw [head, List.cons_append, ← head] at told
  have unblank' : Cursor.isBlank c = false := by rcases behind with rfl | rfl <;> rfl
  rw [text, fields, quote]
  simp only [ne_eq, not_true_eq_false, if_false, named, bind, Except.bind,
    skipBlanks_of_head (c := ':') rfl, List.head?_cons, Cursor.skip, List.drop_succ_cons, List.drop_zero,
    skipBlanks_blank unblank]
  rcases told with read | ⟨long, n, failed⟩
  · left
    simp only [read, skipBlanks_of_head unblank', setField_append new]
    rcases behind with rfl | rfl
    · rw [if_neg (by decide)]
      rfl
    · rw [if_pos rfl]
      rfl
  · exact .inr ⟨long, n, by simp only [failed]⟩

/-- The fields of an object are read one after the other. -/
theorem fields_eq {f : String × Value} {fs : List (String × Value)}
    (written : ∀ x ∈ f :: fs, Written x.2) (readable : ∀ x ∈ f :: fs, Readable x.2) (bound : Nat)
    (room : (commaSeparated (Value.charsOfFields (f :: fs))).length + 1 < bound) (o : Nat)
    (before : List (String × Value)) (distinct : ((before ++ f :: fs).map Prod.fst).Nodup)
    (rest : List Char) :
    Told (fields bound ⟨o, commaSeparated (Value.charsOfFields (f :: fs)) ++ '\x7d' :: rest⟩ before)
      (.object (before ++ f :: fs))
      ⟨o + (commaSeparated (Value.charsOfFields (f :: fs))).length + 1, rest⟩
      (∀ x ∈ f :: fs, Plain x.2) := by
  obtain ⟨b, rfl⟩ : ∃ b, bound = b + 1 := ⟨bound - 1, by omega⟩
  induction fs generalizing f b o before with
  | nil =>
    have text : commaSeparated (Value.charsOfFields [f]) = renderString f.1 ++ ':' :: ' ' :: f.2.chars := rfl
    have new : f.1 ∉ before.map Prod.fst := by
      rw [List.map_append, List.nodup_append] at distinct
      exact fun mem => distinct.2.2 _ mem _ List.mem_cons_self rfl
    rw [text, List.length_append, List.length_cons, List.length_cons] at room
    rw [text]
    rcases fields_step (written f List.mem_cons_self) (readable f List.mem_cons_self)
      (b := b) (by omega) (.inr rfl) o new with read | ⟨long, n, failed⟩
    · left
      rw [read, if_pos rfl]
      simp [Nat.add_assoc]
      omega
    · exact .inr ⟨fun plain => long (plain f List.mem_cons_self), n, failed⟩
  | cons e es ih =>
    obtain ⟨first, later⟩ := List.forall_mem_cons.1 written
    obtain ⟨readable₁, readable⟩ := List.forall_mem_cons.1 readable
    have text : commaSeparated (Value.charsOfFields (f :: e :: es)) =
        renderString f.1 ++ ':' :: ' ' :: f.2.chars ++
          ',' :: ' ' :: commaSeparated (Value.charsOfFields (e :: es)) := rfl
    have new : f.1 ∉ before.map Prod.fst := by
      rw [List.map_append, List.nodup_append] at distinct
      exact fun mem => distinct.2.2 _ mem _ List.mem_cons_self rfl
    obtain ⟨tail, front⟩ : ∃ tail, commaSeparated (Value.charsOfFields (e :: es)) ++ '\x7d' :: rest =
        '"' :: tail := by
      cases es <;> exact ⟨_, rfl⟩
    rw [text] at room ⊢
    simp only [List.length_append, List.length_cons] at room
    obtain ⟨b', rfl⟩ : ∃ b', b = b' + 1 := ⟨b - 1, by omega⟩
    rw [List.append_cons before] at distinct ⊢
    have next := ih later readable (o + (renderString f.1).length + 2 + f.2.chars.length + 1 + 1)
      (before ++ [f]) distinct b' (by omega)
    rw [front] at next
    rw [List.append_assoc, List.cons_append, List.cons_append, front]
    rcases fields_step first readable₁ (b := b' + 1) (by omega) (.inl rfl) o new with
      read | ⟨long, n, failed⟩
    · rw [read, if_neg (by decide), skipBlanks_blank rfl]
      have place : o + (renderString f.1).length + 2 + f.2.chars.length + 1 + 1 +
          (commaSeparated (Value.charsOfFields (e :: es))).length + 1 =
          o + (renderString f.1 ++ ':' :: ' ' :: f.2.chars ++
            ',' :: ' ' :: commaSeparated (Value.charsOfFields (e :: es))).length + 1 := by
        simp only [List.length_append, List.length_cons]
        omega
      rw [place] at next
      exact next.imp_right fun ⟨long, stopped⟩ => ⟨fun plain => long (List.forall_mem_cons.1 plain).2, stopped⟩
    · exact .inr ⟨fun plain => long (plain f List.mem_cons_self), n, failed⟩

/-- Which reader takes over is told by the first character. -/
theorem value_string (b o : Nat) (r : List Char) :
    value (b + 1) ⟨o, '"' :: r⟩ = (do
      let (s, c) ← string ⟨o, '"' :: r⟩
      .ok (.string s, c)) := rfl

theorem value_array {c : Char} (unblank : Cursor.isBlank c = false) (b o : Nat) (r : List Char) :
    value (b + 1) ⟨o, '[' :: c :: r⟩ =
      if c = ']' then .ok (.array [], ⟨o + 2, r⟩) else items b ⟨o + 1, c :: r⟩ [] := by
  have inside : (Cursor.skip ⟨o, '[' :: c :: r⟩ 1).skipBlanks = ⟨o + 1, c :: r⟩ :=
    skipBlanks_of_head unblank _ _
  rw [value]
  simp only [inside, List.head?_cons, Option.some_inj]
  rfl

theorem value_object {c : Char} (unblank : Cursor.isBlank c = false) (b o : Nat) (r : List Char) :
    value (b + 1) ⟨o, '\x7b' :: c :: r⟩ =
      if c = '\x7d' then .ok (.object [], ⟨o + 2, r⟩) else fields b ⟨o + 1, c :: r⟩ [] := by
  have inside : (Cursor.skip ⟨o, '\x7b' :: c :: r⟩ 1).skipBlanks = ⟨o + 1, c :: r⟩ :=
    skipBlanks_of_head unblank _ _
  rw [value]
  simp only [inside, List.head?_cons, Option.some_inj]
  rfl

theorem value_number (b o : Nat) (n : Int) :
    value (b + 1) ⟨o, (toString n).toList ++ rest⟩ = number ⟨o, (toString n).toList ++ rest⟩ := by
  have unworded : word? ⟨o, (toString n).toList ++ rest⟩ = none := word?_toString n o
  obtain ⟨d, ds, digit, eq⟩ := toString_head n
  have other : ∀ c : Char, c.isDigit = false → d ≠ c := by
    rintro c none rfl
    rw [none] at digit
    cases digit
  obtain ⟨c, cs, text, quote, bracket, brace⟩ : ∃ c cs, (toString n).toList ++ rest = c :: cs ∧
      c ≠ '"' ∧ c ≠ '[' ∧ c ≠ '\x7b' := by
    rcases eq with eq | eq
    · exact ⟨d, ds ++ rest, by rw [eq]; rfl, other _ rfl, other _ rfl, other _ rfl⟩
    · exact ⟨'-', d :: ds ++ rest, by rw [eq]; rfl, by decide, by decide, by decide⟩
  rw [text] at unworded ⊢
  rw [value, unworded]
  split
  · rename_i none
    cases none
  · rename_i first
    exact absurd (List.cons.inj first).1 quote
  · rename_i first
    exact absurd (List.cons.inj first).1 bracket
  · rename_i first
    exact absurd (List.cons.inj first).1 brace
  · rfl

theorem readable_of_succ {v : Value} (read : ∀ b, v.chars.length ≤ b → ∀ rest, Stops rest → ∀ o,
    Told (value (b + 1) ⟨o, v.chars ++ rest⟩) v ⟨o + v.chars.length, rest⟩ (Plain v)) : Readable v := by
  intro bound room
  obtain ⟨b, rfl⟩ : ∃ b, bound = b + 1 := ⟨bound - 1, by omega⟩
  exact read b (Nat.le_of_lt_succ room)

theorem readable_array {vs : List Value} (each : ∀ v ∈ vs, Written v) (readable : ∀ v ∈ vs, Readable v) :
    Readable (.array vs) := by
  refine readable_of_succ fun b room rest _ o => ?_
  rw [Value.chars] at room ⊢
  cases vs with
  | nil => exact .inl rfl
  | cons v vs =>
    simp only [List.length_append, List.length_cons, List.length_nil] at room
    obtain ⟨c, cs, head, unblank, open_, -⟩ := (each v List.mem_cons_self).exists_head
    obtain ⟨tail, front⟩ : ∃ tail, commaSeparated (Value.charsOfAll (v :: vs)) ++ ']' :: rest =
        c :: tail := by
      cases vs <;> simp [Value.charsOfAll, commaSeparated, head]
    have read := items_eq each readable b (by omega) (o + 1) [] rest
    rw [front] at read
    have text : '[' :: commaSeparated (Value.charsOfAll (v :: vs)) ++ [']'] ++ rest = '[' :: c :: tail := by
      rw [← front]
      simp
    have place : o + 1 + (commaSeparated (Value.charsOfAll (v :: vs))).length + 1 =
        o + ('[' :: commaSeparated (Value.charsOfAll (v :: vs)) ++ [']']).length := by
      simp only [List.length_append, List.length_cons, List.length_nil]
      omega
    rw [place] at read
    rw [text, value_array unblank, if_neg open_]
    exact read.imp_right fun ⟨long, stopped⟩ => ⟨fun | .array plain => long plain, stopped⟩

theorem readable_object {fs : List (String × Value)} (distinct : (fs.map Prod.fst).Nodup)
    (each : ∀ f ∈ fs, Written f.2) (readable : ∀ f ∈ fs, Readable f.2) : Readable (.object fs) := by
  refine readable_of_succ fun b room rest _ o => ?_
  rw [Value.chars] at room ⊢
  cases fs with
  | nil => exact .inl rfl
  | cons f fs =>
    simp only [List.length_append, List.length_cons, List.length_nil] at room
    obtain ⟨tail, front⟩ : ∃ tail, commaSeparated (Value.charsOfFields (f :: fs)) ++ '\x7d' :: rest =
        '"' :: tail := by
      cases fs <;> exact ⟨_, rfl⟩
    have read := fields_eq each readable b (by omega) (o + 1) [] distinct rest
    rw [front] at read
    have text : '\x7b' :: commaSeparated (Value.charsOfFields (f :: fs)) ++ ['\x7d'] ++ rest =
        '\x7b' :: '"' :: tail := by
      rw [← front]
      simp
    have place : o + 1 + (commaSeparated (Value.charsOfFields (f :: fs))).length + 1 =
        o + ('\x7b' :: commaSeparated (Value.charsOfFields (f :: fs)) ++ ['\x7d']).length := by
      simp only [List.length_append, List.length_cons, List.length_nil]
      omega
    rw [place] at read
    rw [text, value_object rfl, if_neg (by decide)]
    exact read.imp_right fun ⟨long, stopped⟩ => ⟨fun | .object _ plain => long plain, stopped⟩

theorem Written.readable {v : Value} (written : Written v) : Readable v := by
  induction written with
  | null => exact readable_of_succ fun _ _ _ _ _ => .inl rfl
  | string s =>
    refine readable_of_succ fun b _ rest _ o => .inl ((value_string b o _).trans ?_)
    have read : Json.string ⟨o, renderString s ++ rest⟩ = _ := reads_string s o
    show (Json.string ⟨o, renderString s ++ rest⟩ >>= _) = _
    rw [read]
    rfl
  | int n =>
    refine readable_of_succ fun b _ rest stops o => ?_
    rw [Value.chars, Told, value_number, number_toString n stops]
    split
    · rename_i long
      exact .inr ⟨fun | .int short => Nat.not_lt.2 short long, _, rfl⟩
    · exact .inl rfl
  | array each ih => exact readable_array each ih
  | object distinct each ih => exact readable_object distinct each ih

/-- The text of a value gives the value back, unless a number has too many digits. -/
theorem Written.parse_render {v : Value} (written : Written v) :
    parse v.render = .ok v ∨ ¬ Plain v ∧ ∃ n, parse v.render = .error (.tooManyDigits n) := by
  obtain ⟨c, cs, head, unblank, -, mark⟩ := written.exists_head
  have told := written.readable (v.chars.length + 1) (Nat.lt_succ_self _) [] trivial 0
  rw [List.append_nil] at told
  have text : v.render.toList = v.chars := String.toList_ofList
  have start : Cursor.skipBlanks ⟨0, v.chars⟩ = ⟨0, v.chars⟩ := by
    rw [head]
    exact skipBlanks_of_head unblank 0 cs
  have marked : ¬ v.chars.head? = some '\ufeff' := by
    rw [head]
    exact fun eq => mark (Option.some.inj eq)
  rw [parse, text, if_neg marked, start]
  rcases told with read | ⟨long, n, failed⟩
  · rw [read]
    exact .inl rfl
  · rw [failed]
    exact .inr ⟨long, n, rfl⟩

/-- The value is read back from its text. -/
theorem parse_render {v : Value} (plain : Plain v) : parse v.render = .ok v :=
  plain.written.parse_render.resolve_right fun long => long.1 plain

/-! ## Carriage returns -/

theorem return_notMem_padded : ∀ n : Nat, n < 32 → '\r' ∉ Hex.padded 4 n := by decide

theorem return_notMem_escape (c : Char) : '\r' ∉ escape c := by
  rcases escape_cases c with simple | ⟨control, escaped⟩ | ⟨high, -, -, plain⟩
  · rcases simple with rfl | rfl | rfl | rfl | rfl | rfl | rfl <;> decide
  · rw [escaped]
    exact List.not_mem_cons_of_ne_of_not_mem (by decide)
      (List.not_mem_cons_of_ne_of_not_mem (by decide) (return_notMem_padded _ control))
  · rw [plain, List.mem_singleton]
    rintro rfl
    exact high (by decide)

theorem return_notMem_renderString (s : String) : '\r' ∉ renderString s := by
  simp only [renderString, List.mem_append, List.mem_cons, List.mem_flatMap, List.not_mem_nil, or_false]
  rintro ((quote | ⟨d, -, mem⟩) | quote)
  · exact absurd quote (by decide)
  · exact return_notMem_escape d mem
  · exact absurd quote (by decide)

theorem return_notMem_toString (n : Int) : '\r' ∉ (toString n).toList := by
  have digits : ∀ m, '\r' ∉ Nat.toDigits 10 m := by
    intro m mem
    cases Nat.isDigit_of_mem_toDigits (by decide) (by decide) mem
  cases n with
  | ofNat m =>
    have text : (toString (Int.ofNat m)).toList = Nat.toDigits 10 m := Nat.toList_repr
    rw [text]
    exact digits m
  | negSucc m =>
    rw [toList_negSucc]
    exact List.not_mem_cons_of_ne_of_not_mem (by decide) (digits _)

theorem return_notMem_commaSeparated {ts : List (List Char)} (each : ∀ t ∈ ts, '\r' ∉ t) :
    '\r' ∉ commaSeparated ts := by
  induction ts with
  | nil => exact List.not_mem_nil
  | cons t ts ih =>
    obtain ⟨first, later⟩ := List.forall_mem_cons.1 each
    cases ts with
    | nil => exact first
    | cons u us =>
      rw [commaSeparated, List.mem_append, List.mem_cons, List.mem_cons, not_or, not_or, not_or]
      · exact ⟨first, by decide, by decide, ih later⟩
      · exact nofun

theorem charsOfAll_eq (vs : List Value) : Value.charsOfAll vs = vs.map Value.chars := by
  induction vs with
  | nil => rfl
  | cons v vs ih => rw [Value.charsOfAll, ih, List.map_cons]

theorem charsOfFields_eq (fs : List (String × Value)) :
    Value.charsOfFields fs = fs.map fun f => renderString f.1 ++ ':' :: ' ' :: f.2.chars := by
  induction fs with
  | nil => rfl
  | cons f fs ih => rw [Value.charsOfFields, ih, List.map_cons]

/-- There is no carriage return in the text of a value. -/
theorem Written.return_notMem {v : Value} (written : Written v) : '\r' ∉ v.chars := by
  induction written with
  | null => decide
  | string s => exact return_notMem_renderString s
  | int n =>
    rw [Value.chars]
    exact return_notMem_toString n
  | @array vs _ ih =>
    rw [Value.chars, charsOfAll_eq, List.mem_append, List.mem_cons, not_or, not_or]
    refine ⟨⟨by decide, return_notMem_commaSeparated ?_⟩, by decide⟩
    rw [List.forall_mem_map]
    exact ih
  | @object fs _ _ ih =>
    rw [Value.chars, charsOfFields_eq, List.mem_append, List.mem_cons, not_or, not_or]
    refine ⟨⟨by decide, return_notMem_commaSeparated ?_⟩, by decide⟩
    rw [List.forall_mem_map]
    intro f mem
    rw [List.mem_append, List.mem_cons, List.mem_cons, not_or, not_or, not_or]
    exact ⟨return_notMem_renderString f.1, by decide, by decide, ih f mem⟩

end ParserGenerator.Json
