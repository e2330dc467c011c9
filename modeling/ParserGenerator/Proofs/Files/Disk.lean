import ParserGenerator.Files.Disk
import ParserGenerator.Proofs.Collection.OrderedMap

/-!
# Files on a disk

What is written under a path is found there afterwards. The directories above a file that is found are there.
-/

namespace ParserGenerator.Disk

variable {d d' : Disk} {l l' place : Location} {names : List String} {p : Path} {bytes : ByteArray}
  {e : DiskEntry}

theorem entry?_put (ne : place ≠ []) :
     entry? (d.put place e) l = if place = l then some e else d.entry? l := by
  rw [ entry?, entry?, put]
  by_cases root : l = []
  · rw [if_pos root, if_pos root, if_neg (root ▸ ne)]
  · rw [if_neg root, if_neg root, OrderedMap.get?_insert]

/-- The place that a name leads to. -/
def step (l : Location) (name : String) : Location := if name = ".." then l.dropLast else l ++ [name]

theorem follow_cons (d : Disk) (l : Location) (name : String) (names : List String) :
    d.follow l (name :: names) = .ok l' ↔
      d.entry? l = some .directory ∧ d.follow (step l name) names = .ok l' := by
  rw [follow, step]
  split
  · rename_i absent
    rw [absent]
    exact ⟨nofun, nofun⟩
  · rename_i file
    rw [file]
    exact ⟨nofun, nofun⟩
  · rename_i directory
    rw [directory]
    exact ⟨fun h => ⟨rfl, h⟩, fun h => h.2⟩

/-- A path is followed up to its last name, and from there on. -/
theorem follow_append_singleton (d : Disk) (l : Location) (names : List String) (name : String) :
    d.follow l (names ++ [name]) = .ok l' ↔
      ∃ above, d.follow l names = .ok above ∧ d.entry? above = some .directory ∧ l' = step above name := by
  induction names generalizing l with
  | nil =>
    rw [List.nil_append, follow_cons, follow, follow]
    constructor
    · rintro ⟨directory, eq⟩
      cases eq
      exact ⟨l, rfl, directory, rfl⟩
    · rintro ⟨above, eq, directory, rfl⟩
      cases eq
      exact ⟨directory, rfl⟩
  | cons first names ih =>
    rw [List.cons_append, follow_cons, ih]
    constructor
    · rintro ⟨directory, above, followed, inside, eq⟩
      exact ⟨above, (follow_cons d l first names).2 ⟨directory, followed⟩, inside, eq⟩
    · rintro ⟨above, followed, inside, eq⟩
      obtain ⟨directory, followed⟩ := (follow_cons d l first names).1 followed
      exact ⟨directory, above, followed, inside, eq⟩

/-- A file that is put where there was no directory closes no way that was open. -/
theorem follow_put (vacant : d.entry? place ≠ some .directory)
    (followed : d.follow l names = .ok l') : (d.put place e).follow l names = .ok l' := by
  have ne : place ≠ [] := by
    rintro rfl
    exact vacant rfl
  induction names generalizing l with
  | nil => exact followed
  | cons name names ih =>
    obtain ⟨directory, followed⟩ := (follow_cons d l name names).1 followed
    refine (follow_cons _ l name names).2 ⟨?_, ih followed⟩
    rw [entry?_put ne, if_neg]
    · exact directory
    · rintro rfl
      exact vacant directory

theorem find?_eq_some : d.find? p = some e ↔ ∃ l, d.locate p = .ok l ∧ d.entry? l = some e := by
  rw [find?]
  cases d.locate p with
  | ok l => simp
  | error fault => simp

theorem write_eq_ok : d.write p bytes = .ok d' ↔
    ∃ l, d.locate p = .ok l ∧ d.entry? l ≠ some .directory ∧ d' = d.put l (.file bytes) := by
  rw [write]
  cases d.locate p with
  | error fault => simp [bind, Except.bind]
  | ok l =>
    simp only [bind, Except.bind, Except.ok.injEq, exists_eq_left']
    cases d.entry? l with
    | none => simp [pure, Except.pure, eq_comm]
    | some e => cases e <;> simp [pure, Except.pure, eq_comm, throw, throwThe, MonadExceptOf.throw]

theorem read_of_find? (found : d.find? p = some (.file bytes)) : d.read p = .ok bytes := by
  obtain ⟨l, located, there⟩ := find?_eq_some.1 found
  rw [read, located]
  simp only [bind, Except.bind, there]
  rfl

/-- What is written under a path is found there. -/
theorem find?_of_write (written : d.write p bytes = .ok d') : d'.find? p = some (.file bytes) := by
  obtain ⟨l, located, vacant, rfl⟩ := write_eq_ok.1 written
  have ne : l ≠ [] := by
    rintro rfl
    exact vacant rfl
  refine find?_eq_some.2 ⟨l, follow_put vacant located, ?_⟩
  rw [entry?_put ne, if_pos rfl]

/-- The directory above what is found is there. -/
theorem find?_parent (named : p.names ≠ []) (found : d.find? p = some e) :
    d.find? p.parent = some .directory := by
  obtain ⟨l, located, there⟩ := find?_eq_some.1 found
  have split := List.dropLast_concat_getLast named
  rw [locate, ← split, follow_append_singleton] at located
  obtain ⟨above, followed, inside, -⟩ := located
  exact find?_eq_some.2 ⟨above, followed, inside⟩

theorem makeDirectory_of_find? (found : d.find? p = some e) : d.makeDirectory p = .error .alreadyExists := by
  obtain ⟨l, located, there⟩ := find?_eq_some.1 found
  rw [makeDirectory, located]
  simp only [bind, Except.bind, there]
  rfl

/-- A directory that is made is there. -/
theorem find?_of_makeDirectory (made : d.makeDirectory p = .ok d') : d'.find? p = some .directory := by
  rw [makeDirectory] at made
  cases located : d.locate p with
  | error fault =>
    rw [located] at made
    cases made
  | ok l =>
    simp only [located, bind, Except.bind] at made
    cases there : d.entry? l with
    | some e =>
      rw [there] at made
      cases made
    | none =>
      rw [there] at made
      cases made
      have ne : l ≠ [] := by
        rintro rfl
        cases there
      refine find?_eq_some.2 ⟨l, follow_put (by rw [there]; exact nofun) located, ?_⟩
      rw [entry?_put ne, if_pos rfl]

end ParserGenerator.Disk
