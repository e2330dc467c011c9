import ParserGenerator.Digest.Sha256
import ParserGenerator.Proofs.Json.RoundTrip
import ParserGenerator.Storage.File
import ParserGenerator.Text.Document

/-!
# The fingerprint in a table file

Of the text of a table file, whatever tables it holds, the fingerprint is read back, unless a number in it has
too many digits to be read at all. Its bytes are read as the same text.
-/

namespace ParserGenerator

open Json (Value Written)

/-! ## Items of a stream -/

namespace Storage

open Format

/-- What is written in the format are texts, whole numbers and nulls. -/
def Writes {α : Type} (f : Format α) : Prop := ∀ a, ∀ v ∈ f.write a, Written v

theorem writes_text : Writes text := fun s => List.forall_mem_singleton.2 (.string s)

theorem writes_integer : Writes integer := fun n => List.forall_mem_singleton.2 (.int n)

theorem writes_optionalText : Writes optionalText
  | some s => List.forall_mem_singleton.2 (.string s)
  | none => List.forall_mem_singleton.2 .null

theorem writes_many {α : Type} {f : Format α} (each : Writes f) : Writes (many f) := by
  intro as
  refine List.forall_mem_append.2 ⟨writes_integer as.length, ?_⟩
  intro v mem
  obtain ⟨a, -, mem⟩ := List.mem_flatMap.1 mem
  exact each a v mem

theorem writes_precedence : Writes precedence :=
  fun p => List.forall_mem_append.2 ⟨writes_text p.1, writes_integer p.2⟩

theorem writes_optionalPrecedence : Writes optionalPrecedence
  | some p => List.forall_mem_append.2 ⟨writes_integer 1, writes_precedence p⟩
  | none => writes_integer 0

theorem writes_symbolRecord : Writes symbolRecord := by
  intro s
  simp only [symbolRecord, List.forall_mem_append]
  exact ⟨⟨⟨⟨⟨writes_text _, writes_integer _⟩, writes_integer _⟩, writes_text _⟩, writes_optionalText _⟩,
    writes_optionalPrecedence _⟩

theorem writes_labelRecord : Writes labelRecord :=
  fun l => List.forall_mem_append.2 ⟨writes_text l.1, writes_precedence l.2⟩

theorem writes_production : Writes production := by
  intro p
  simp only [production, List.forall_mem_append]
  exact ⟨⟨⟨⟨writes_integer _, writes_integer _⟩, writes_many writes_integer _⟩, writes_optionalText _⟩,
    writes_optionalText _⟩

theorem writes_actionCell : Writes actionCell := by
  intro c
  simp only [actionCell, List.forall_mem_append]
  exact ⟨⟨⟨writes_integer _, writes_integer _⟩, writes_text _⟩, writes_integer _⟩

theorem writes_gotoCell : Writes gotoCell := by
  intro c
  simp only [gotoCell, List.forall_mem_append]
  exact ⟨⟨writes_integer _, writes_integer _⟩, writes_integer _⟩

theorem writes_conflict : Writes conflict := by
  intro c
  simp only [conflict, List.forall_mem_append]
  exact ⟨⟨⟨⟨⟨⟨writes_text _, writes_integer _⟩, writes_integer _⟩, writes_many writes_integer _⟩,
    writes_text _⟩, writes_text _⟩, writes_text _⟩

theorem writes_violation : Writes violation := by
  intro v
  simp only [violation, List.forall_mem_append]
  exact ⟨⟨writes_integer _, writes_integer _⟩, writes_integer _⟩

theorem written_encode (g : Grammar) (t : Tables) : ∀ v ∈ encode g t, Written v := by
  simp only [encode, List.forall_mem_append]
  exact ⟨⟨⟨⟨⟨⟨⟨⟨⟨⟨⟨⟨writes_text _, writes_text _⟩, writes_optionalText _⟩, writes_many writes_symbolRecord _⟩,
    writes_many writes_labelRecord _⟩, writes_many writes_production _⟩, writes_integer _⟩,
    writes_integer _⟩, writes_many writes_actionCell _⟩, writes_many writes_gotoCell _⟩,
    writes_many writes_conflict _⟩, writes_many writes_violation _⟩,
    writes_many (writes_many writes_text) _⟩

end Storage

/-! ## Texts of files -/

namespace Document

theorem unifyLines_of_notMem {cs : List Char} (plain : '\r' ∉ cs) : unifyLines cs = cs := by
  induction cs with
  | nil => rfl
  | cons c cs ih =>
    rw [List.mem_cons, not_or] at plain
    obtain ⟨other, later⟩ := plain
    rw [unifyLines, if_neg (Ne.symm other), ih later]
    rintro _ rfl
    exact absurd rfl other

/-- A text without carriage returns is read as it was written. -/
theorem decode?_toUTF8 {s : String} (plain : '\r' ∉ s.toList) : decode? s.toUTF8 = some s := by
  have read : String.fromUTF8? s.toUTF8 = some s := dif_pos s.isValidUTF8
  rw [decode?, read, Option.map_some, unifyLines_of_notMem plain, String.ofList_toList]

end Document

namespace TableFile

variable {g : Grammar} {t : Tables} {fingerprint : String}

theorem written_fields (fingerprint : String) {stream : List Value} (each : ∀ v ∈ stream, Written v) :
    Written (.object (fields fingerprint stream)) := by
  refine .object (by simp [fields]) ?_
  simp only [fields, List.forall_mem_cons, List.not_mem_nil, false_implies, implies_true, and_true]
  exact ⟨.string _, .string _, .string _, .array each⟩

theorem decode?_write (g : Grammar) (t : Tables) (fingerprint : String) :
    Document.decode? (write g t fingerprint).toUTF8 = some (write g t fingerprint) := by
  apply Document.decode?_toUTF8
  rw [write, Value.render, String.toList_ofList]
  exact (written_fields fingerprint (Storage.written_encode g t)).return_notMem

theorem optionalText_string (s : String) : optionalText (.string s) = s := by
  rw [optionalText, Value.isBlank]
  split
  · rename_i blank
    exact (String.isEmpty_iff.1 blank).symm
  · rfl

/-- What is found in the fields of a table file. -/
theorem contents_eq {text : String} {stream : List Value}
    (parsed : Json.parse text = .ok (.object (fields fingerprint stream))) :
    contents text = .ok ⟨fingerprint, stream⟩ := by
  rw [contents, parse, parsed]
  simp [fields, Value.get, Value.field?, isText, optionalText_string, bind, Except.bind, pure, Except.pure]

theorem readFingerprint_eq
    (parsed : Json.parse (write g t fingerprint) = .ok (.object (fields fingerprint (Storage.encode g t)))) :
    readFingerprint (write g t fingerprint) = .ok fingerprint := by
  rw [readFingerprint, contents_eq parsed]
  rfl

/-- The fingerprint is read back, or there is a number with too many digits. -/
theorem readFingerprint_write (g : Grammar) (t : Tables) (fingerprint : String) :
    readFingerprint (write g t fingerprint) = .ok fingerprint ∨
      ∃ n, readFingerprint (write g t fingerprint) = .error (.value (.digitCount (.tooManyDigits n))) := by
  rcases (written_fields fingerprint (Storage.written_encode g t)).parse_render with
    parsed | ⟨-, n, failed⟩
  · exact .inl (readFingerprint_eq parsed)
  · refine .inr ⟨n, ?_⟩
    rw [readFingerprint, write, contents, parse, failed]
    rfl

theorem plain_fields (fingerprint : String) {stream : List Value} (each : ∀ v ∈ stream, Json.Scalar v) :
    Json.Plain (.object (fields fingerprint stream)) := by
  refine .object (by simp [fields]) ?_
  simp only [fields, List.forall_mem_cons, List.not_mem_nil, false_implies, implies_true, and_true]
  exact ⟨.string _, .string _, .string _, .array fun v mem => (each v mem).plain⟩

/-- The fields of a table file are told from its text, if its numbers can be read. -/
theorem fields_of_write {g' : Grammar} {t' : Tables} {fingerprint' : String}
    (scalars : ∀ v ∈ Storage.encode g t, Json.Scalar v)
    (same : write g t fingerprint = write g' t' fingerprint') :
    fingerprint = fingerprint' ∧ Storage.encode g t = Storage.encode g' t' := by
  have parsed := Json.parse_render (plain_fields fingerprint scalars)
  have text : (Value.object (fields fingerprint (Storage.encode g t))).render =
      (Value.object (fields fingerprint' (Storage.encode g' t'))).render := same
  rw [text] at parsed
  rcases (written_fields fingerprint' (Storage.written_encode g' t')).parse_render with
    parsed' | ⟨-, n, failed⟩
  · rw [parsed'] at parsed
    simp only [fields, Except.ok.injEq, Value.object.injEq, List.cons.injEq, Prod.mk.injEq,
      Value.string.injEq, Value.array.injEq, true_and, and_true] at parsed
    exact ⟨parsed.1.symm, parsed.2.symm⟩
  · rw [failed] at parsed
    cases parsed

end TableFile

theorem Sha256.fingerprint_ne_empty (s : String) : Sha256.fingerprint s ≠ "" := by
  have digits : ∀ r : Registers, ∃ d ds, ((r.words.flatMap fun w => bytesOf 4 w.toNat).flatMap
      fun b => Hex.padded 2 b.toNat) = d :: ds := fun r => ⟨_, _, rfl⟩
  intro eq
  obtain ⟨d, ds, begins⟩ := digits (compressAll _ .initial (padded s.toUTF8.toList))
  rw [fingerprint, digest, begins] at eq
  have := congrArg String.toList eq
  simp at this

end ParserGenerator
