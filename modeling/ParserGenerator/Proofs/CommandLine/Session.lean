import ParserGenerator.CommandLine.Desk
import ParserGenerator.Proofs.Files.Disk
import ParserGenerator.Proofs.Storage.Fingerprint

/-!
# Sessions that go through

What a build that goes through has read and written on the disk of its desk. Nothing of it depends on what was
printed.
-/

namespace ParserGenerator.CommandLine

variable {α β : Type} {x : Session (StateM Desk) α} {f : α → Session (StateM Desk) β} {a : α} {b : β}
  {d d' d'' : Desk}

/-- On a desk the session goes through: it gives the value and leaves the other desk. -/
def Gives (x : Session (StateM Desk) α) (d : Desk) (a : α) (d' : Desk) : Prop :=
  StateT.run (ExceptT.run x) d = (.ok a, d')

theorem gives_pure {b : α} : Gives (pure a) d b d' ↔ b = a ∧ d' = d := by
  constructor
  · intro h
    cases h
    exact ⟨rfl, rfl⟩
  · rintro ⟨rfl, rfl⟩
    rfl

theorem not_gives_throw {failure : Failure} : ¬ Gives (throw failure) d a d' := nofun

theorem gives_bind : Gives (x >>= f) d b d' ↔ ∃ a d₁, Gives x d a d₁ ∧ Gives (f a) d₁ b d' := by
  simp only [Gives, ExceptT.run_bind, StateT.run_bind]
  rcases StateT.run (ExceptT.run x) d with ⟨r, d₁⟩
  cases r with
  | ok a =>
    constructor
    · exact fun h => ⟨a, d₁, rfl, h⟩
    · rintro ⟨a', d', eq, h⟩
      cases eq
      exact h
  | error e =>
    constructor
    · exact nofun
    · rintro ⟨a', d', eq, -⟩
      cases eq

/-- What comes after a session that goes through. -/
theorem gives_bind_of {d₁ : Desk} (first : Gives x d a d₁) : Gives (x >>= f) d b d' ↔ Gives (f a) d₁ b d' := by
  rw [gives_bind]
  constructor
  · rintro ⟨a', d₁', again, rest⟩
    cases first.symm.trans again
    exact rest
  · exact fun rest => ⟨a, d₁, first, rest⟩

theorem gives_lift {y : StateM Desk α} : Gives (ExceptT.lift y) d a d' ↔ StateT.run y d = (a, d') := by
  show ((.ok (y d).1, (y d).2) : Except Failure α × Desk) = (.ok a, d') ↔ ((y d).1, (y d).2) = (a, d')
  rw [Prod.mk.injEq, Prod.mk.injEq, Except.ok.injEq]

theorem gives_need {r : Except Error α} : Gives (need r) d a d' ↔ r = .ok a ∧ d' = d := by
  cases r with
  | ok b =>
    rw [need, gives_pure, Except.ok.injEq, eq_comm]
  | error e => simp [need, not_gives_throw]

/-! ## What is printed does not matter -/

/-- The session goes the same way on all desks with the same disk. -/
def Blind (x : Session (StateM Desk) α) : Prop :=
  ∀ ⦃d a d'⦄, Gives x d a d' → ∀ e : Desk, e.disk = d.disk → ∃ e', Gives x e a e' ∧ e'.disk = d'.disk

theorem blind_pure (a : α) : Blind (pure a) := by
  intro d b d' h e same
  obtain ⟨rfl, rfl⟩ := gives_pure.1 h
  exact ⟨e, gives_pure.2 ⟨rfl, rfl⟩, same⟩

theorem blind_throw (failure : Failure) : Blind (throw failure : Session (StateM Desk) α) :=
  fun _ _ _ h => absurd h not_gives_throw

theorem blind_bind (first : Blind x) (second : ∀ a, Blind (f a)) : Blind (x >>= f) := by
  intro d b d' h e same
  obtain ⟨a, d₁, h₁, h₂⟩ := gives_bind.1 h
  obtain ⟨e₁, h₁', same₁⟩ := first h₁ e same
  obtain ⟨e', h₂', same'⟩ := second a h₂ e₁ same₁
  exact ⟨e', gives_bind.2 ⟨a, e₁, h₁', h₂'⟩, same'⟩

theorem blind_ask (look : Disk → α) : Blind (ExceptT.lift (Desk.ask look)) := by
  intro d a d' h e same
  cases gives_lift.1 h
  refine ⟨e, gives_lift.2 ?_, same⟩
  show (look e.disk, e) = (look d.disk, e)
  rw [same]

theorem run_change (step : Disk → Except FileFault Disk) (d : Desk) : StateT.run (Desk.change step) d =
    match step d.disk with
    | .ok disk => (.ok (), { d with disk := disk })
    | .error fault => (.error fault, d) := rfl

theorem blind_change (step : Disk → Except FileFault Disk) : Blind (ExceptT.lift (Desk.change step)) := by
  intro d a d' h e same
  simp only [gives_lift, run_change, same] at h ⊢
  cases stepped : step d.disk with
  | ok disk =>
    rw [stepped] at h
    cases h
    exact ⟨_, rfl, rfl⟩
  | error fault =>
    rw [stepped] at h
    cases h
    exact ⟨_, rfl, same⟩

/-! ## Files -/

variable {p : Path} {s : String}

theorem attempt_eq (p : Path) (y : StateM Desk (Except FileFault α)) : Files.attempt p y =
    if p.hasNul then throw (.error (.value .nulInPath))
    else ExceptT.lift y >>= fun
      | .ok a => pure a
      | .error fault => throw (.file fault p) := by
  rw [Files.attempt]
  split <;> rfl

theorem gives_attempt {y : StateM Desk (Except FileFault α)} : Gives (Files.attempt p y) d a d' ↔
    p.hasNul = false ∧ StateT.run y d = (.ok a, d') := by
  rw [attempt_eq]
  by_cases nul : p.hasNul = true
  · rw [if_pos nul]
    simp [not_gives_throw, nul]
  · rw [if_neg nul, gives_bind]
    simp only [gives_lift]
    constructor
    · rintro ⟨r, d₁, ran, rest⟩
      cases r with
      | ok a' =>
        obtain ⟨rfl, rfl⟩ := gives_pure.1 rest
        exact ⟨by simpa using nul, ran⟩
      | error fault => exact absurd rest not_gives_throw
    · rintro ⟨-, ran⟩
      exact ⟨.ok a, d', ran, gives_pure.2 ⟨rfl, rfl⟩⟩

/-- The text that is made of the bytes of a file, if there is a file that can be read so. -/
def fileAt (decode? : ByteArray → Option String) (disk : Disk) (p : Path) : Option String :=
  if p.hasNul then none else (disk.read p).toOption.bind decode?

/-- The text of a grammar file. -/
def grammarAt : Disk → Path → Option String := fileAt fun bytes => Document.decode? (Document.withoutMark bytes)

theorem gives_readBytes {bytes : ByteArray} :
    Gives (Files.attempt p (Files.readBytes p)) d bytes d' ↔
      p.hasNul = false ∧ d.disk.read p = .ok bytes ∧ d' = d := by
  rw [gives_attempt]
  show _ ∧ (d.disk.read p, d) = (.ok bytes, d') ↔ _
  rw [Prod.mk.injEq, eq_comm (a := d)]

theorem gives_decoded {bytes : ByteArray} :
    Gives (Files.decoded bytes) d s d' ↔ Document.decode? bytes = some s ∧ d' = d := by
  rw [Files.decoded]
  cases Document.decode? bytes with
  | none => simp [not_gives_throw]
  | some t => rw [gives_pure, Option.some_inj, eq_comm]

theorem fileAt_eq_some {decode? : ByteArray → Option String} {disk : Disk} :
    fileAt decode? disk p = some s ↔
      p.hasNul = false ∧ ∃ bytes, disk.read p = .ok bytes ∧ decode? bytes = some s := by
  rw [fileAt]
  cases p.hasNul with
  | true => simp
  | false => cases disk.read p <;> simp [Except.toOption]

theorem gives_read {bare : ByteArray → ByteArray} :
    Gives (Files.attempt p (Files.readBytes p) >>= fun bytes => Files.decoded (bare bytes)) d s d' ↔
      fileAt (fun bytes => Document.decode? (bare bytes)) d.disk p = some s ∧ d' = d := by
  rw [gives_bind, fileAt_eq_some]
  simp only [gives_readBytes, gives_decoded]
  constructor
  · rintro ⟨bytes, d₁, ⟨plain, read, rfl⟩, decoded, rfl⟩
    exact ⟨⟨plain, bytes, read, decoded⟩, rfl⟩
  · rintro ⟨⟨plain, bytes, read, decoded⟩, rfl⟩
    exact ⟨bytes, _, ⟨plain, read, rfl⟩, decoded, rfl⟩

theorem gives_readGrammar :
    Gives (Files.readGrammar p) d s d' ↔ grammarAt d.disk p = some s ∧ d' = d := gives_read

theorem gives_readText :
    Gives (Files.readText p) d s d' ↔ fileAt Document.decode? d.disk p = some s ∧ d' = d := gives_read

theorem gives_writeText : Gives (Files.writeText p s) d () d' ↔
    p.hasNul = false ∧ ∃ disk, d.disk.write p s.toUTF8 = .ok disk ∧ d' = { d with disk := disk } := by
  rw [Files.writeText, gives_attempt]
  refine and_congr_right fun _ => ?_
  show StateT.run (Desk.change (·.write p s.toUTF8)) d = _ ↔ _
  rw [run_change]
  cases d.disk.write p s.toUTF8 with
  | ok disk =>
    constructor
    · intro eq
      cases eq
      exact ⟨disk, rfl, rfl⟩
    · rintro ⟨_, eq, rfl⟩
      cases eq
      rfl
  | error fault =>
    constructor
    · intro eq
      cases eq
    · rintro ⟨_, eq, -⟩
      cases eq

theorem blind_ensureDirectory (p : Path) : Blind (Files.ensureDirectory p) := by
  rw [Files.ensureDirectory]
  split
  · exact blind_throw _
  · refine blind_bind (blind_change _) fun r => ?_
    split
    · exact blind_pure true
    · exact blind_pure false
    · refine blind_bind (blind_ask _) fun there => ?_
      split
      · exact blind_pure true
      · exact blind_throw _

theorem blind_ensureAll (root : String) : ∀ names, Blind (Files.ensureAll root names)
  | [] => by
    refine blind_bind (blind_ensureDirectory _) fun made => ?_
    split
    · exact blind_throw _
    · exact blind_pure ()
  | name :: above => by
    refine blind_bind (blind_ensureDirectory _) fun made => ?_
    split
    · refine blind_bind (blind_ensureAll root above) fun _ => ?_
      refine blind_bind (blind_ensureDirectory _) fun made => ?_
      split
      · exact blind_throw _
      · exact blind_pure ()
    · exact blind_pure ()

theorem blind_makeParents (p : Path) : Blind (Files.makeParents p) := blind_ensureAll _ _

theorem ensureDirectory_eq (p : Path) : (Files.ensureDirectory p : Session (StateM Desk) Bool) =
    if p.hasNul then throw (.error (.value .nulInPath))
    else ExceptT.lift (Desk.change (·.makeDirectory p)) >>= fun
      | .ok () => pure true
      | .error .missing => pure false
      | .error fault => ExceptT.lift (Desk.ask fun disk => (disk.find? p).any DiskEntry.isDirectory) >>=
          fun there => if there then pure true else throw (.file fault p) := by
  rw [Files.ensureDirectory]
  split <;> rfl

theorem any_isDirectory {disk : Disk} :
    (disk.find? p).any DiskEntry.isDirectory = true ↔ disk.find? p = some .directory := by
  cases disk.find? p with
  | none => simp
  | some e => cases e <;> simp [DiskEntry.isDirectory]

/-- Where a directory is found nothing is made. -/
theorem gives_ensureDirectory_of_find? (plain : p.hasNul = false)
    (found : d.disk.find? p = some .directory) : Gives (Files.ensureDirectory p) d true d := by
  rw [ensureDirectory_eq, plain, if_neg Bool.false_ne_true]
  refine gives_bind.2 ⟨.error .alreadyExists, d, ?_, ?_⟩
  · rw [gives_lift, run_change, Disk.makeDirectory_of_find? found]
  · refine gives_bind.2 ⟨true, d, ?_, gives_pure.2 ⟨rfl, rfl⟩⟩
    rw [gives_lift, ← any_isDirectory.2 found]
    rfl

/-- A directory that is ensured is found. -/
theorem find?_of_ensureDirectory (ensured : Gives (Files.ensureDirectory p) d true d') :
    d'.disk.find? p = some .directory := by
  rw [ensureDirectory_eq] at ensured
  split at ensured
  · exact absurd ensured not_gives_throw
  · obtain ⟨r, d₁, changed, rest⟩ := gives_bind.1 ensured
    rw [gives_lift, run_change] at changed
    split at rest
    · obtain ⟨-, rfl⟩ := gives_pure.1 rest
      cases made : d.disk.makeDirectory p with
      | ok disk =>
        rw [made] at changed
        cases changed
        exact Disk.find?_of_makeDirectory made
      | error fault =>
        rw [made] at changed
        cases changed
    · obtain ⟨eq, -⟩ := gives_pure.1 rest
      cases eq
    · obtain ⟨there, d₂, asked, rest⟩ := gives_bind.1 rest
      cases gives_lift.1 asked
      split at rest
      · rename_i found
        obtain ⟨-, rfl⟩ := gives_pure.1 rest
        exact any_isDirectory.1 found
      · exact absurd rest not_gives_throw

theorem hasNul_parent (plain : p.hasNul = false) : p.parent.hasNul = false := by
  rw [Path.hasNul, List.any_eq_false] at plain ⊢
  exact fun name mem => plain name (List.dropLast_subset _ mem)

/-- Where the directory above a path is found no directory is made. -/
theorem gives_makeParents (plain : p.hasNul = false) (above : d.disk.find? p.parent = some .directory) :
    Gives (Files.makeParents p) d () d := by
  have ensured := gives_ensureDirectory_of_find? (hasNul_parent plain) above
  have parent : p.parent = ⟨p.root, p.parent.names.reverse.reverse⟩ := by
    rw [List.reverse_reverse]
    rfl
  rw [parent] at ensured
  rw [Files.makeParents]
  cases names : p.parent.names.reverse with
  | nil =>
    rw [names] at ensured
    exact gives_bind.2 ⟨true, d, ensured, gives_pure.2 ⟨rfl, rfl⟩⟩
  | cons name above =>
    rw [names] at ensured
    exact gives_bind.2 ⟨true, d, ensured, gives_pure.2 ⟨rfl, rfl⟩⟩

/-! ## Storing a file -/

/-- Writes a file and makes the directories above it. -/
def store (p : Path) (s : String) : Session (StateM Desk) Unit := do
  Files.makeParents p
  Files.writeText p s

/-- Under the path there is a file with the text, and the path is one under which files are stored. -/
structure Stored (disk : Disk) (p : Path) (s : String) : Prop where
  plain : p.hasNul = false
  named : p.names ≠ []
  found : disk.find? p = some (.file s.toUTF8)

theorem stored_of_store (done : Gives (store p s) d () d') : Stored d'.disk p s := by
  obtain ⟨_, d₁, made, ended⟩ := gives_bind.1 done
  obtain ⟨plain, disk, written, rfl⟩ := gives_writeText.1 ended
  refine ⟨plain, fun none => ?_, Disk.find?_of_write written⟩
  -- Without a name the path is its own parent, and a directory is found there.
  have parents : (Files.makeParents p : Session (StateM Desk) Unit) = Files.ensureAll p.root [] := by
    rw [Files.makeParents, Path.parent, none]
    rfl
  rw [parents] at made
  obtain ⟨ensured, d₂, ended, rest⟩ := gives_bind.1 made
  cases ensured with
  | false => exact absurd rest not_gives_throw
  | true =>
    obtain ⟨-, rfl⟩ := gives_pure.1 rest
    have directory := find?_of_ensureDirectory ended
    have same : (⟨p.root, []⟩ : Path) = p := by
      rw [← none]
    rw [same] at directory
    obtain ⟨l, located, vacant, -⟩ := Disk.write_eq_ok.1 written
    obtain ⟨l', located', there⟩ := Disk.find?_eq_some.1 directory
    rw [located] at located'
    cases located'
    exact vacant there

/-- On a desk with the disk some text can be stored. -/
def Storable (disk : Disk) (p : Path) : Prop :=
  ∃ (d d' : Desk) (s : String), d.disk = disk ∧ Gives (store p s) d () d'

theorem storable_of_parent {l : Location} (plain : p.hasNul = false)
    (above : d.disk.find? p.parent = some .directory) (located : d.disk.locate p = .ok l)
    (vacant : d.disk.entry? l ≠ some .directory) : Storable d.disk p :=
  ⟨d, _, "", rfl, gives_bind.2 ⟨(), d, gives_makeParents plain above,
    gives_writeText.2 ⟨plain, _, Disk.write_eq_ok.2 ⟨l, located, vacant, rfl⟩, rfl⟩⟩⟩

theorem Stored.storable (stored : Stored d.disk p s) : Storable d.disk p := by
  obtain ⟨l, located, there⟩ := Disk.find?_eq_some.1 stored.found
  refine storable_of_parent stored.plain (Disk.find?_parent stored.named stored.found) located ?_
  rw [there]
  exact nofun

/-- Where one text can be stored, every text can. -/
theorem Storable.exists_store (storable : Storable d.disk p) (new : String) :
    ∃ d', Gives (store p new) d () d' := by
  obtain ⟨e, e', s, same, done⟩ := storable
  obtain ⟨_, e₁, parents, written⟩ := gives_bind.1 done
  obtain ⟨d₁, parents, same₁⟩ := blind_makeParents p parents d same.symm
  obtain ⟨plain, disk, written, -⟩ := gives_writeText.1 written
  obtain ⟨l, located, vacant, -⟩ := Disk.write_eq_ok.1 written
  rw [← same₁] at located vacant
  exact ⟨_, gives_bind.2 ⟨_, d₁, parents, gives_writeText.2 ⟨plain, _, Disk.write_eq_ok.2
    ⟨l, located, vacant, rfl⟩, rfl⟩⟩⟩

end ParserGenerator.CommandLine
