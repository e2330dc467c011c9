import ParserGenerator.Proofs.Regex.Expansion

/-!
# Outcomes of reading

A text is read, or a fault of it is told, but for two refusals that are passed on as they are: a number in a
class may be no character, and the pattern that a property makes up may hold a number that cannot be read.
A text comes to such a refusal exactly if all that stands before it is read, in the text itself and in each
definition that is being expanded.
-/

namespace ParserGenerator.Regex

variable {definitions : OrderedMap String String} {names : List String} {source name : String}
  {value : String → Option Regex} {meaning : Meaning} {cs r behind ds : List Char} {offset depth n : Nat}
  {c : Char} {e : Error}

/-! ## Numbers that are no characters -/

/-- How a number is refused that is no character. -/
def numberError (n : Nat) : Error := if n < 0x80000000 then .value .codePoint else .overflow

theorem codePoint_of_lt (small : n < 0x110000) : codePoint n = .ok n := by
  rw [codePoint, if_neg (by omega), if_pos (by omega), Int.toNat_natCast]

theorem codePoint_of_le (large : 0x110000 ≤ n) : codePoint n = .error (numberError n) := by
  rw [codePoint, numberError]
  by_cases wide : n < 0x80000000
  · rw [if_neg (by omega), if_neg (by omega), if_pos wide]
  · rw [if_pos (by omega), if_neg wide]

theorem lt_of_codePoint (h : ((codePoint n).map fun _ => ()) = .ok ()) : n < 0x110000 := by
  by_contra large
  rw [codePoint_of_le (Nat.le_of_not_lt large)] at h
  cases h

theorem toNat_lt (c : Char) : c.toNat < 0x110000 := by
  rcases c.valid with low | high
  · exact Nat.lt_of_lt_of_le low (by decide)
  · exact high.2

/-- The text of a class, without the circumflex that inverts it. -/
def classText (cs : List Char) : List Char := if cs.head? == some '^' then cs.drop 1 else cs

/-- The members of a class, read from behind its opening bracket, are characters up to a number that is
written in octal digits behind a backslash. -/
def Oversized (cs ds : List Char) : Prop :=
  (∀ d ∈ ds, isOctal d = true) ∧ '\\' :: ds <:+: cs ∧ 0x110000 ≤ octalValue ds ∧
    ∃ front m back, (members (classText cs)).1 = front ++ m :: back ∧
      (∀ x ∈ front, x.code < 0x110000) ∧ m.code = octalValue ds

/-- Only octal digits make a member that is no character. -/
theorem exists_digits {m : Member} (mem : m ∈ (members cs).1) (large : 0x110000 ≤ m.code) :
    ∃ ds, (∀ d ∈ ds, isOctal d = true) ∧ '\\' :: ds <:+: cs ∧ octalValue ds = m.code := by
  have no_character {c : Char} {b : Bool} (same : m = ⟨c.toNat, b⟩) : False := by
    rw [same] at large
    exact absurd (toNat_lt c) (Nat.not_lt.2 large)
  fun_induction members cs with
  | case1 => cases mem
  | case2 => cases mem
  | case3 c r octal rest ih =>
    have parts : '\\' :: c :: r.takeWhile isOctal ++ r.dropWhile isOctal = '\\' :: c :: r := by
      rw [List.cons_append, List.cons_append, List.takeWhile_append_dropWhile]
    rcases List.mem_cons.1 mem with rfl | mem
    · refine ⟨c :: r.takeWhile isOctal, ?_, ?_, rfl⟩
      · exact List.forall_mem_cons.2 ⟨octal, fun x mem => List.mem_takeWhile_imp mem⟩
      · exact parts ▸ (List.prefix_append _ _).isInfix
    · obtain ⟨ds, digits, inside, same⟩ := ih mem
      exact ⟨ds, digits, inside.trans (parts ▸ (List.suffix_append _ _).isInfix), same⟩
  | case4 c r other rest ih =>
    rcases List.mem_cons.1 mem with same | mem
    · exact (no_character same).elim
    · obtain ⟨ds, digits, inside, same⟩ := ih mem
      exact ⟨ds, digits, inside.trans (List.suffix_append ['\\', c] r).isInfix, same⟩
  | case5 c r _ _ rest ih =>
    rcases List.mem_cons.1 mem with same | mem
    · exact (no_character same).elim
    · obtain ⟨ds, digits, inside, same⟩ := ih mem
      exact ⟨ds, digits, inside.trans (List.suffix_cons c r).isInfix, same⟩

theorem classText_suffix (cs : List Char) : classText cs <:+ cs := by
  rw [classText]
  split
  · exact List.drop_suffix 1 cs
  · exact List.suffix_refl cs

/-- A class is refused for a number exactly if it has one that is no character. -/
theorem bracketed_eq_failure : bracketed offset cs = .error (.failure e) ↔
    ∃ ds, Oversized cs ds ∧ e = numberError (octalValue ds) := by
  have checked : bracketed offset cs = .error (.failure e) ↔
      ((members (classText cs)).1.forM fun m => (codePoint m.code).map fun _ => ()) = .error e := by
    simp only [bracketed, classText]
    split
    · rename_i refused
      rw [refused]
      exact ⟨by rintro ⟨⟩; rfl, by rintro ⟨⟩; rfl⟩
    · rename_i fine _
      rw [fine]
      exact ⟨by rintro ⟨⟩, by rintro ⟨⟩⟩
    · rename_i fine _
      rw [fine]
      refine ⟨fun h => ?_, by rintro ⟨⟩⟩
      split at h <;> cases h
  rw [checked, Attempt.forM_eq_error]
  constructor
  · rintro ⟨front, m, back, listed, fine, failed⟩
    have large : 0x110000 ≤ m.code := by
      by_contra small
      rw [codePoint_of_lt (Nat.lt_of_not_le small)] at failed
      cases failed
    rw [codePoint_of_le large] at failed
    obtain ⟨ds, digits, inside, same⟩ := exists_digits (by rw [listed]; simp) large
    refine ⟨ds, ⟨digits, inside.trans (classText_suffix cs).isInfix, same ▸ large, front, m, back, listed,
      fun x mem => lt_of_codePoint (fine x mem), same.symm⟩, ?_⟩
    rw [same]
    cases failed
    rfl
  · rintro ⟨ds, ⟨-, -, large, front, m, back, listed, fine, same⟩, rfl⟩
    refine ⟨front, m, back, listed, fun x mem => ?_, ?_⟩
    · rw [codePoint_of_lt (fine x mem)]
      rfl
    · rw [same, codePoint_of_le large]
      rfl

/-- Only a class is refused for a number. -/
theorem token_eq_failure : token offset c r = .error (.failure e) ↔
    c = '[' ∧ ∃ ds, Oversized r ds ∧ e = numberError (octalValue ds) := by
  have opens : token offset c r = .error (.failure e) ↔
      c = '[' ∧ bracketed offset r = .error (.failure e) := by
    refine ⟨fun h => ?_, by rintro ⟨rfl, h⟩; exact h⟩
    unfold token at h
    split_ifs at h with opening closing bar bracket quote escape brace dot stray
    · exact ⟨bracket, h⟩
    · split at h <;> cases h
    · split at h <;> cases h
    · simp only [braced] at h
      split at h
      · cases h
      · split at h <;> cases h
    · cases h
    · split at h <;> cases h
  rw [opens, bracketed_eq_failure]

/-! ## One text -/

/-- A text is read up to what stands behind. -/
def ReadUpTo (value : String → Option Regex) (source : String) (behind : List Char) : Prop :=
  ∃ before ts ls, source.toList = before ++ behind ∧ Cuts before ts ∧ Runs value {} ts ls

/-- A text is read up to a reference. -/
def Meets (value : String → Option Regex) (source name : String) : Prop :=
  ∃ c w rest, Spells c w (.reference name) ∧ ReadUpTo value source (c :: (w ++ rest))

/-- A token is refused with a fault, or with what a reference fails with. -/
theorem take_eq_error {fault : Nat → RegexFault → Error} {ls : Levels} {l : Located}
    (refused : ls.take fault meaning l = .error e) : (∃ offset f, e = fault offset f) ∨
      ∃ name, l.token = .reference name ∧ meaning name (fault l.stop) = .error e := by
  obtain ⟨t, start, stop⟩ := l
  obtain ⟨⟨options, parts⟩, os⟩ := ls
  cases t with
  | openGroup | bar | atom => cases refused
  | closeGroup =>
    cases os with
    | nil =>
      cases refused
      exact .inl ⟨_, _, rfl⟩
    | cons o os => cases refused
  | repeated op =>
    cases parts with
    | nil =>
      cases refused
      exact .inl ⟨_, _, rfl⟩
    | cons r rs => cases refused
  | reference name =>
    simp only [Levels.take] at refused
    cases meant : meaning name (fault stop) with
    | error e' =>
      rw [meant] at refused
      cases refused
      exact .inr ⟨name, rfl, meant⟩
    | ok r =>
      rw [meant] at refused
      cases refused

/-- What a text fails with is a fault of it, the refusal of a number in it, or what a reference fails
with. -/
theorem parseWith_error_cases (gives : meaning.Gives value) (failed : parseWith meaning source = .error e) :
    (∃ f, e = .source f) ∨
    (∃ behind ds, ReadUpTo value source ('[' :: behind) ∧ Oversized behind ds ∧
      e = numberError (octalValue ds)) ∨
    ∃ name offset, Meets value source name ∧
      meaning name (fun f => .source (.illFormedRegex source offset f)) = .error e := by
  simp only [parseWith] at failed
  cases folded : (scan 0 source.toList).1.foldlM
      (Levels.take (fun offset f => .source (.illFormedRegex source offset f)) meaning) {} with
  | error e' =>
    rw [folded] at failed
    cases failed
    obtain ⟨front, l, back, ls, listed, read, refused⟩ := Attempt.exists_foldlM_error folded
    obtain ⟨before, rest, same, cut, found⟩ := cuts_front_of_scan (Prod.ext listed rfl)
    obtain ⟨c, w, rest, rfl, spelled, -⟩ := cons_of_scan found
    rcases take_eq_error refused with ⟨offset, f, rfl⟩ | ⟨name, reference, meant⟩
    · exact .inl ⟨_, rfl⟩
    · exact .inr (.inr ⟨name, l.stop, ⟨c, w, rest, reference ▸ spelled, before, _, ls, same, cut,
        (foldlM_take_eq_ok gives).1 read⟩, meant⟩)
  | ok ls =>
    rw [folded] at failed
    cases ended : (scan 0 source.toList).2 with
    | none =>
      rw [ended] at failed
      obtain ⟨i, os⟩ := ls
      cases os with
      | nil => cases failed
      | cons o os =>
        cases failed
        exact .inl ⟨_, rfl⟩
    | some stop =>
      rw [ended] at failed
      cases stop with
      | fault offset f =>
        cases failed
        exact .inl ⟨_, rfl⟩
      | failure e' =>
        cases failed
        obtain ⟨before, rest, same, cut, found⟩ :=
          cuts_front_of_scan (Prod.ext (List.append_nil _).symm ended)
        obtain ⟨c, r, rfl, refused⟩ := cons_of_stopped found
        obtain ⟨rfl, ds, first, rfl⟩ := token_eq_failure.1 refused
        exact .inr (.inl ⟨r, ds, ⟨before, _, ls, same, cut, (foldlM_take_eq_ok gives).1 folded⟩, first, rfl⟩)

/-- A text that is read up to a number that is no character is refused for it. -/
theorem ReadUpTo.parseWith_number (gives : meaning.Gives value) (h : ReadUpTo value source ('[' :: behind))
    (first : Oversized behind ds) : parseWith meaning source = .error (numberError (octalValue ds)) := by
  obtain ⟨before, ts, ls, same, cut, runs⟩ := h
  obtain ⟨located, rfl, scanned⟩ := cut.scan_append 0 ('[' :: behind)
  have refused : token (0 + before.length) '[' behind = .error (.failure (numberError (octalValue ds))) :=
    token_eq_failure.2 ⟨rfl, ds, first, rfl⟩
  rw [scan_of_stop refused, List.append_nil] at scanned
  simp only [parseWith, same, scanned]
  rw [(foldlM_take_eq_ok gives).2 runs]
  rfl

/-- A text that is read up to a reference fails with what the reference fails with. -/
theorem Meets.parseWith_error (gives : meaning.Gives value) (h : Meets value source name)
    (failed : ∀ fault, meaning name fault = .error e) : parseWith meaning source = .error e := by
  obtain ⟨c, w, rest, spelled, before, ts, ls, same, cut, runs⟩ := h
  obtain ⟨located, rfl, scanned⟩ := cut.scan_append 0 (c :: (w ++ rest))
  rw [scan_of_token (spelled.token (0 + before.length) rest)] at scanned
  simp only [parseWith, same, scanned]
  rw [List.foldlM_append, (foldlM_take_eq_ok gives).2 runs]
  change (List.foldlM _ _ (_ :: _) >>= _) = _
  rw [List.foldlM_cons]
  simp only [Levels.take, failed]
  rfl

/-! ## Definitions -/

/-- A text under named definitions comes to a refusal that is not told as a fault of a text, while the given
names are being expanded. -/
inductive Escapes (definitions : OrderedMap String String) : List String → String → Error → Prop
  | number {names : List String} {source : String} {behind ds : List Char}
      (read : ReadUpTo (referent definitions definitions.size names) source ('[' :: behind))
      (first : Oversized behind ds) : Escapes definitions names source (numberError (octalValue ds))
  | property {names : List String} {source name : String} {e : ValueError}
      (meets : Meets (referent definitions definitions.size names) source name)
      (undefined : definitions.get? name = none) (refused : Pattern.ofProperty name = .error (.value e)) :
      Escapes definitions names source (.value e)
  | body {names : List String} {source name body : String} {e : Error}
      (meets : Meets (referent definitions definitions.size names) source name)
      (defined : definitions.get? name = some body) (apart : name ∉ names)
      (inner : Escapes definitions (name :: names) body e) : Escapes definitions names source e

theorem Escapes.ne_source (h : Escapes definitions names source e) (f : SourceError) : e ≠ .source f := by
  induction h with
  | number =>
    rw [numberError]
    split <;> nofun
  | property => nofun
  | body _ _ _ _ ih => exact ih

/-- What names stand for does not depend on the depth. -/
theorem Bounded.gives (h : Bounded definitions (depth + 1) names) :
    (within definitions depth names).Gives (referent definitions definitions.size names) := by
  have full : Bounded definitions (definitions.size + 1) names := ⟨h.nodup, h.among, by omega⟩
  have same : referent definitions definitions.size names = referent definitions depth names := by
    funext name
    rw [referent, referent]
    cases defined : definitions.get? name with
    | none => rfl
    | some body =>
      dsimp only
      split
      · rfl
      · rename_i apart
        rw [(h.cons defined apart).parseWithin_eq (full.cons defined apart)]
  rw [same]
  exact gives_within definitions depth names

/-- A text fails with a fault of a text, or it comes to another refusal. -/
theorem escapes_of_parseWithin (h : Bounded definitions depth names)
    (failed : parseWithin definitions depth names source = .error e) :
    (∃ f, e = .source f) ∨ Escapes definitions names source e := by
  induction depth generalizing names source with
  | zero => exact .inl ⟨_, (Except.error.inj failed).symm⟩
  | succ depth ih =>
    rw [parseWithin_succ] at failed
    rcases parseWith_error_cases h.gives failed with
      told | ⟨behind, ds, read, first, rfl⟩ | ⟨name, offset, meets, meant⟩
    · exact .inl told
    · exact .inr (.number read first)
    · rw [within] at meant
      cases defined : definitions.get? name with
      | none =>
        rw [defined] at meant
        simp only [property] at meant
        split at meant
        · cases meant
        · cases meant
          exact .inl ⟨_, rfl⟩
        · rename_i refused
          cases meant
          exact .inr (.property meets defined refused)
      | some body =>
        rw [defined] at meant
        dsimp only at meant
        split at meant
        · cases meant
          exact .inl ⟨_, rfl⟩
        · rename_i apart
          exact (ih (h.cons defined apart) meant).imp_right (.body meets defined apart)

/-- A text that comes to another refusal fails with it. -/
theorem Escapes.parseWithin_eq (escapes : Escapes definitions names source e)
    (h : Bounded definitions depth names) : parseWithin definitions depth names source = .error e := by
  induction escapes generalizing depth with
  | number read first =>
    obtain ⟨depth, rfl⟩ := h.depth_pos
    exact read.parseWith_number h.gives first
  | property meets undefined refused =>
    obtain ⟨depth, rfl⟩ := h.depth_pos
    refine meets.parseWith_error h.gives fun fault => ?_
    simp only [undefined, Regex.property, refused]
  | body meets defined apart _ ih =>
    obtain ⟨depth, rfl⟩ := h.depth_pos
    refine meets.parseWith_error h.gives fun fault => ?_
    simp only [defined]
    rw [if_neg apart]
    exact ih (h.cons defined apart)

/-- Numbers of more than 31 bits are refused in another way, also where the class is not closed. -/
example : parse (.ofList [("wide", "[\\77777777777")]) "a{wide}" = .error .overflow := by
  with_unfolding_all rfl

end ParserGenerator.Regex
