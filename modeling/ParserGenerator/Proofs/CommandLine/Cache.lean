import Mathlib
import ParserGenerator.Proofs.CommandLine.Build

/-!
# Builds with a cache

A row of cached builds that find one grammar text leaves the tables of that text by the method of the first of
them: the fingerprint that is compared covers the text, and not the method.
-/

namespace ParserGenerator.CommandLine

variable {d d' : Desk} {s : String} {m : Method} {target : Target} {out : String} {p : Product}

/-! ## Histories -/

/-- The cached builds into a file, each with the text of its grammar and its method, the last one first. In the
beginning there is nothing under the path, and between the builds all may change but what is there. -/
inductive Built (out : String) : List (String × Given Method) → Desk → Prop where
  | start {d : Desk} (absent : d.disk.find? (.parse out) = none) : Built out [] d
  | edit {builds : List (String × Given Method)} {d d' : Desk} (before : Built out builds d)
    (same : d'.disk.find? (.parse out) = d.disk.find? (.parse out)) : Built out builds d'
  | run {builds : List (String × Given Method)} {d d' : Desk} {target : Target} {debug : Bool} {s : String}
    (before : Built out builds d) (read : grammarAt d.disk (.parse target.file) = some s)
    (done : (Command.build target (.value out) true debug).Succeeds d d') :
    Built out ((s, target.method) :: builds) d'

/-- The method of the first of those builds that, in a row up to the last one, found the text. -/
def writer (s : String) (method : Given Method) : List (String × Given Method) → Given Method
  | [] => method
  | (s', method') :: earlier => if s' = s then writer s method' earlier else method

/-- What the builds have left under the path. -/
def Left (out : String) (disk : Disk) : List (String × Given Method) → Prop
  | [] => disk.find? (.parse out) = none
  | (s, method) :: earlier => ∃ m p, writer s method earlier = .value m ∧ productOf s m = .ok p ∧
    Stored disk (.parse out) (TableFile.write p.grammar p.tables (Sha256.fingerprint s))

variable {builds : List (String × Given Method)} {debug : Bool}

theorem Left.of_same {disk disk' : Disk} (left : Left out disk builds)
    (same : disk'.find? (.parse out) = disk.find? (.parse out)) : Left out disk' builds := by
  cases builds with
  | nil => exact same.trans left
  | cons build earlier =>
    obtain ⟨m, p, first, made, stored⟩ := left
    exact ⟨m, p, first, made, stored.plain, stored.named, same.trans stored.found⟩

/-- A cached build leaves what the first one in its row would write, and it could be written before. -/
theorem Left.build (left : Left out d.disk builds)
    (distinct : ∀ t ∈ builds.map Prod.fst, Sha256.fingerprint t = Sha256.fingerprint s → t = s)
    (read : grammarAt d.disk (.parse target.file) = some s)
    (done : (Command.build target (.value out) true debug).Succeeds d d') :
    Left out d'.disk ((s, target.method) :: builds) ∧ Storable d.disk (.parse out) := by
  obtain ⟨s', v, e, read', looked, outcome⟩ := build_cases (Command.succeeds_iff.1 done)
  obtain rfl : s' = s := Option.some.inj (read'.symm.trans read)
  rw [if_pos rfl] at looked
  -- A build that does not find the fingerprint of its text writes by its own method.
  have wrote (unchanged : e.disk = d.disk) (miss : v ≠ Sha256.fingerprint s')
      (own : writer s' target.method builds = target.method) :
      Left out d'.disk ((s', target.method) :: builds) ∧ Storable d.disk (.parse out) := by
    rcases outcome with ⟨hit, -⟩ | ⟨-, t, m, p, e₁, e₂, again, chosen, made, same, last, stored⟩
    · exact absurd hit miss
    · rw [unchanged, read] at again
      cases again
      refine ⟨⟨m, p, own.trans chosen, made, ?_⟩, e₁, e₂, _, same.trans unchanged, stored⟩
      rw [last]
      exact stored_of_store stored
  cases builds with
  | nil =>
    obtain ⟨rfl, rfl⟩ := (gives_storedFingerprint_of_none left).1 looked
    exact wrote rfl (Sha256.fingerprint_ne_empty s').symm rfl
  | cons build earlier =>
    obtain ⟨t, method⟩ := build
    obtain ⟨m, p, first, made, stored⟩ := left
    obtain ⟨rfl, rfl⟩ := storedFingerprint_of_stored stored looked
    by_cases same : t = s'
    · subst same
      rcases outcome with ⟨-, unchanged⟩ | ⟨miss, -⟩
      · refine ⟨⟨m, p, ?_, made, unchanged ▸ stored⟩, stored.storable⟩
        rw [writer, if_pos rfl, first]
      · exact absurd rfl miss
    · have miss : Sha256.fingerprint t ≠ Sha256.fingerprint s' :=
        fun eq => same (distinct t List.mem_cons_self eq)
      exact wrote rfl miss (if_neg same)

theorem Built.left (built : Built out builds d)
    (distinct : Set.InjOn Sha256.fingerprint {t | t ∈ builds.map Prod.fst}) : Left out d.disk builds := by
  induction built with
  | start absent => exact absent
  | edit _ same ih => exact (ih distinct).of_same same
  | run before read done ih =>
    refine ((ih (distinct.mono fun t mem => List.mem_cons_of_mem _ mem)).build ?_ read done).1
    exact fun t mem eq => distinct (List.mem_cons_of_mem _ mem) List.mem_cons_self eq

/-- A build without the cache leaves the table file of its text by its method. -/
theorem find?_of_build {file : String} (read : grammarAt d.disk (.parse file) = some s)
    (made : productOf s m = .ok p)
    (done : (Command.build ⟨file, .value m⟩ (.value out) false debug).Succeeds d d') :
    d'.disk.find? (.parse out) =
      some (.file (TableFile.write p.grammar p.tables (Sha256.fingerprint s)).toUTF8) := by
  obtain ⟨s', v, e, read', looked, outcome⟩ := build_cases (Command.succeeds_iff.1 done)
  obtain rfl : s' = s := Option.some.inj (read'.symm.trans read)
  rw [if_neg Bool.false_ne_true] at looked
  obtain ⟨rfl, rfl⟩ := gives_pure.1 looked
  rcases outcome with ⟨hit, -⟩ | ⟨-, t, m', p', e₁, e₂, again, chosen, made', -, last, stored⟩
  · exact absurd hit.symm (Sha256.fingerprint_ne_empty s')
  · rw [read] at again
    cases again
    cases chosen
    rw [made] at made'
    cases made'
    rw [last]
    exact (stored_of_store stored).found

/-! ## Two builds of one text -/

/-- The text of a grammar of one word. -/
def letter : String := "S : \"a\" ;\n"

/-- A desk with the text on it and, where it has been built, the table file. -/
def letterDesk (tables : Option ByteArray) : Desk where
  disk :=
    let disk := Disk.fresh.put ["work", "in"] (.file letter.toUTF8)
    match tables with
    | none => disk
    | some bytes => disk.put ["work", "out"] (.file bytes)

theorem parse_in : Path.parse "in" = ⟨"", ["in"]⟩ := by cbv

theorem parse_out : Path.parse "out" = ⟨"", ["out"]⟩ := by cbv

theorem grammarAt_letterDesk (tables : Option ByteArray) :
    grammarAt (letterDesk tables).disk (.parse "in") = some letter := by
  have ended : letter.toUTF8.toList.isPrefixOf Document.mark = false := by decide +kernel
  have unmarked : Document.mark.isPrefixOf letter.toUTF8.toList = false := by decide +kernel
  have decoded : Document.decode? (Document.withoutMark letter.toUTF8) = some letter := by
    rw [Document.withoutMark, ended, unmarked, if_neg Bool.false_ne_true, if_neg Bool.false_ne_true]
    exact Document.decode?_toUTF8 (by decide +kernel)
  rw [parse_in]
  refine fileAt_eq_some.2 ⟨rfl, letter.toUTF8, ?_, decoded⟩
  cases tables <;> rfl

theorem find?_letterDesk (tables : Option ByteArray) :
    (letterDesk tables).disk.find? (.parse "out") = tables.map .file := by
  rw [parse_out]
  cases tables <;> rfl

theorem storable_letterDesk (tables : Option ByteArray) :
    Storable (letterDesk tables).disk (.parse "out") := by
  have vacant : Disk.entry? (letterDesk tables).disk ["work", "out"] ≠ some .directory := by
    cases tables <;> exact nofun
  rw [parse_out]
  cases tables <;> exact storable_of_parent (l := ["work", "out"]) rfl rfl rfl vacant

/-- The tables of the text can be built and read back, and they name the method. -/
theorem productOf_letter (m : Method) : ∃ p, productOf letter m = .ok p ∧ p.tables.method = m.name ∧
    ∀ v ∈ Storage.encode p.grammar p.tables, Json.Scalar v := by
  have built : ((productOf letter m).toOption.any fun p : Product =>
      decide (p.tables.method = m.name ∧ ∀ v ∈ Storage.encode p.grammar p.tables, Json.Scalar v)) := by
    cases m <;> decide +kernel
  obtain ⟨p, made, told⟩ := Attempt.exists_of_any built
  exact ⟨p, made, of_decide_eq_true told⟩

/-- A build by one method, and one by another method that finds the fingerprint of the text. -/
theorem exists_builds_letter (m m' : Method) : ∃ d d', Built "out" [(letter, .value m)] d ∧
    grammarAt d.disk (.parse "in") = some letter ∧ Storable d.disk (.parse "out") ∧
    (Command.build ⟨"in", .value m'⟩ (.value "out") true false).Succeeds d d' := by
  obtain ⟨p, made, -, scalars⟩ := productOf_letter m
  have start : Built "out" [] (letterDesk none) := .start (find?_letterDesk none)
  have absent : Gives (if true then storedFingerprint (.parse "out") false else pure "") (letterDesk none) ""
      (letterDesk none) :=
    (gives_storedFingerprint_of_none (find?_letterDesk none)).2 ⟨rfl, rfl⟩
  obtain ⟨d₁, first⟩ := exists_build (grammarAt_letterDesk none) made (storable_letterDesk none) absent
    (Sha256.fingerprint_ne_empty letter).symm
  have succeeded : (Command.build ⟨"in", .value m⟩ (.value "out") true false).Succeeds (letterDesk none) d₁ :=
    Command.succeeds_iff.2 first
  have built : Built "out" [(letter, .value m)] d₁ := by
    refine start.run ?_ succeeded
    exact grammarAt_letterDesk none
  -- The disk holds the table file now.
  obtain ⟨m₁, p₁, own, made₁, stored⟩ := built.left (by simp)
  cases own
  cases made.symm.trans made₁
  let text := TableFile.write p.grammar p.tables (Sha256.fingerprint letter)
  have same : (letterDesk (some text.toUTF8)).disk.find? (.parse "out") = d₁.disk.find? (.parse "out") :=
    (find?_letterDesk _).trans stored.found.symm
  have told : TableFile.readFingerprint text = .ok (Sha256.fingerprint letter) :=
    TableFile.readFingerprint_eq (Json.parse_render (TableFile.plain_fields _ scalars))
  have found : Gives (storedFingerprint (.parse "out") false) (letterDesk (some text.toUTF8))
      (Sha256.fingerprint letter) (letterDesk (some text.toUTF8)) := by
    refine (gives_storedFingerprint_of_stored ⟨stored.plain, stored.named, find?_letterDesk _⟩
      (TableFile.decode?_write _ _ _) ?_).2 ⟨told, rfl⟩
    intro e failed
    cases told.symm.trans failed
  obtain ⟨d', second⟩ : ∃ d', Gives (build ⟨"in", .value m'⟩ (.value "out") true false) _ () d' :=
    exists_build_of_hit (grammarAt_letterDesk _) found
  exact ⟨_, d', built.edit same, grammarAt_letterDesk _, storable_letterDesk _,
    Command.succeeds_iff.2 second⟩

/-! ## What a cached build leaves -/

/-- After a cached build there is the table file of its grammar text by the method of the first build in the row
of those that found the text; it is what the build without the cache would write by that method. -/
theorem cached_build (built : Built out builds d) (read : grammarAt d.disk (.parse target.file) = some s)
    (done : (Command.build target (.value out) true debug).Succeeds d d')
    (distinct : Set.InjOn Sha256.fingerprint {t | t ∈ s :: builds.map Prod.fst}) :
    ∃ m text, writer s target.method builds = .value m ∧ tableFile s m = .ok text ∧
      d'.disk.find? (.parse out) = some (.file text.toUTF8) ∧
      (∃ d'', (Command.build ⟨target.file, .value m⟩ (.value out) false false).Succeeds d d'') ∧
      ∀ debug d'', (Command.build ⟨target.file, .value m⟩ (.value out) false debug).Succeeds d d'' →
        d''.disk.find? (.parse out) = some (.file text.toUTF8) := by
  have left := built.left (distinct.mono fun t mem => List.mem_cons_of_mem _ mem)
  obtain ⟨⟨m, p, first, made, stored⟩, storable⟩ := left.build
    (fun t mem eq => distinct (List.mem_cons_of_mem _ mem) List.mem_cons_self eq) read done
  have nothing : Gives (if false then storedFingerprint (.parse out) false else pure "") d "" d :=
    gives_pure.2 ⟨rfl, rfl⟩
  obtain ⟨d'', uncached⟩ := exists_build read made storable nothing (Sha256.fingerprint_ne_empty s).symm
  refine ⟨m, _, first, ?_, stored.found, ⟨d'', Command.succeeds_iff.2 uncached⟩, fun _ _ uncached =>
    find?_of_build read made uncached⟩
  rw [tableFile, made]
  rfl

theorem cached_build_letter : ∃ d d', Built "out" [(letter, .value .lalr)] d ∧
    (Command.build ⟨"in", .value .slr⟩ (.value "out") true false).Succeeds d d' ∧
    ∃ text, tableFile letter .lalr = .ok text ∧ d'.disk.find? (.parse "out") = some (.file text.toUTF8) := by
  obtain ⟨d, d', built, read, -, done⟩ := exists_builds_letter .lalr .slr
  obtain ⟨m, text, first, made, found, -⟩ := cached_build built read done (by simp)
  cases first
  exact ⟨d, d', built, done, text, made, found⟩

/-- The tables that a cached build leaves are not always those by its own method. -/
theorem cached_build_not_transparent :
    ¬ ∀ builds d d' out s file m, Built out builds d → grammarAt d.disk (.parse file) = some s →
      Set.InjOn Sha256.fingerprint {t | t ∈ s :: builds.map Prod.fst} →
      (Command.build ⟨file, .value m⟩ (.value out) true false).Succeeds d d' →
      ∀ d'', (Command.build ⟨file, .value m⟩ (.value out) false false).Succeeds d d'' →
        d'.disk.find? (.parse out) = d''.disk.find? (.parse out) := by
  intro all
  obtain ⟨d, d', built, read, storable, done⟩ := exists_builds_letter .lalr .slr
  obtain ⟨p, made, method, scalars⟩ := productOf_letter .slr
  obtain ⟨p', made', method', -⟩ := productOf_letter .lalr
  have nothing : Gives (if false then storedFingerprint (.parse "out") false else pure "") d "" d :=
    gives_pure.2 ⟨rfl, rfl⟩
  obtain ⟨d'', uncached⟩ := exists_build read made storable nothing (Sha256.fingerprint_ne_empty letter).symm
  have uncached : (Command.build ⟨"in", .value .slr⟩ (.value "out") false false).Succeeds d d'' :=
    Command.succeeds_iff.2 uncached
  obtain ⟨_, _, first, made₁, stored⟩ := (built.run read done).left (by simp)
  cases first
  cases made'.symm.trans made₁
  have same := all _ d d' "out" letter "in" .slr built read (by simp) done d'' uncached
  rw [stored.found, find?_of_build read made uncached, Option.some_inj, DiskEntry.file.injEq] at same
  have same := String.toByteArray_inj.1 same
  -- The second item of what is stored is the name of the method.
  have items := congrArg (·[1]?) (TableFile.fields_of_write scalars same.symm).2
  have named : some (Json.Value.string p.tables.method) = some (.string p'.tables.method) := items
  rw [method, method', Option.some_inj, Json.Value.string.injEq] at named
  exact absurd named (by decide)

end ParserGenerator.CommandLine
