import ParserGenerator.Proofs.Collection.Attempt
import ParserGenerator.Proofs.CommandLine.Session

/-!
# Builds

A build makes a product of the text of a grammar and a method, and stores it; with the cache it leaves that out
where the fingerprint of the text is stored already. Nothing else is done to the disk.
-/

namespace ParserGenerator.CommandLine

variable {α β : Type} {x : Session (StateM Desk) α} {f : α → Session (StateM Desk) β} {a : α} {b : β}
  {d d' : Desk} {s : String} {m : Method} {target : Target} {out : String} {p : Product}

/-! ## What is left alone -/

/-- The session leaves the disk as it is. -/
def Quiet (x : Session (StateM Desk) α) : Prop := ∀ ⦃d a d'⦄, Gives x d a d' → d'.disk = d.disk

theorem quiet_pure (a : α) : Quiet (pure a) := by
  intro d b d' h
  rw [(gives_pure.1 h).2]

theorem quiet_bind (first : Quiet x) (second : ∀ a, Quiet (f a)) : Quiet (x >>= f) := by
  intro d b d' h
  obtain ⟨a, d₁, h₁, h₂⟩ := gives_bind.1 h
  exact (second a h₂).trans (first h₁)

theorem gives_remark {line : String} :
    Gives (remark line) d () d' ↔ d' = { d with remarks := d.remarks ++ line ++ "\n" } := by
  rw [remark, gives_lift]
  show ((), _) = ((), d') ↔ _
  rw [Prod.mk.injEq, eq_comm (b := d')]
  exact and_iff_right rfl

theorem gives_result {line : String} :
    Gives (result line) d () d' ↔ d' = { d with results := d.results ++ line ++ "\n" } := by
  rw [result, gives_lift]
  show ((), _) = ((), d') ↔ _
  rw [Prod.mk.injEq, eq_comm (b := d')]
  exact and_iff_right rfl

theorem quiet_remark (line : String) : Quiet (remark line) := by
  intro d _ d' h
  rw [gives_remark.1 h]

theorem quiet_result (line : String) : Quiet (result line) := by
  intro d _ d' h
  rw [gives_result.1 h]

theorem quiet_remarkIf (condition : Bool) (line : String) : Quiet (remarkIf condition line) := by
  rw [remarkIf]
  split
  · exact quiet_remark line
  · exact quiet_pure ()

theorem quiet_remarks : ∀ lines : List String, Quiet (lines.forM remark)
  | [] => quiet_pure ()
  | line :: lines => quiet_bind (quiet_remark line) fun _ => quiet_remarks lines

/-! ## Products -/

/-- What a step on a grammar comes to. -/
def outcome (y : Build α) (g : Grammar) : Except Error (α × Grammar) :=
  match y g with
  | .ok a g => .ok (a, g)
  | .error e _ => .error e

theorem onGrammar_eq (y : Build α) (g : Grammar) :
    (onGrammar y g : Session (StateM Desk) (α × Grammar)) = need (outcome y g) := by
  rw [onGrammar, outcome]
  cases y g <;> rfl

/-- The tables that a method builds for the text of a grammar. -/
def productOf (source : String) (method : Method) : Except Error Product := do
  let d ← Description.parse source
  let g ← d.toGrammar
  let (_, g) ← outcome Grammar.analyze g
  let (t, g) ← outcome (Grammar.buildTables method.name) g
  return ⟨g, t⟩

/-- The table file of a grammar text by a method. -/
def tableFile (source : String) (method : Method) : Except Error String := do
  let p ← productOf source method
  return TableFile.write p.grammar p.tables (Sha256.fingerprint source)

theorem productOf_eq_ok : productOf s m = .ok p ↔ ∃ d g passes g₁, Description.parse s = .ok d ∧
    d.toGrammar = .ok g ∧ outcome Grammar.analyze g = .ok (passes, g₁) ∧
    outcome (Grammar.buildTables m.name) g₁ = .ok (p.tables, p.grammar) := by
  rw [productOf]
  simp only [Attempt.bind_eq_ok]
  constructor
  · rintro ⟨d, parsed, g, lowered, ⟨passes, g₁⟩, analysed, ⟨t, g₂⟩, built, eq⟩
    cases eq
    exact ⟨d, g, passes, g₁, parsed, lowered, analysed, built⟩
  · rintro ⟨d, g, passes, g₁, parsed, lowered, analysed, built⟩
    exact ⟨d, parsed, g, lowered, (passes, g₁), analysed, _, built, rfl⟩

theorem gives_tablesBy {method : Given Method} {g : Grammar} {r : Tables × Grammar} :
    Gives (tablesBy method g) d r d' ↔
      ∃ m, method = .value m ∧ outcome (Grammar.buildTables m.name) g = .ok r ∧ d' = d := by
  cases method with
  | nothing => simp [tablesBy, not_gives_throw]
  | value m => simp [tablesBy, onGrammar_eq, gives_need]

/-- A product is that of the text and the method, and the disk is as it was. -/
theorem productOf_of_produce {debug : Bool} (done : Gives (produce target debug) d p d') :
    d'.disk = d.disk ∧ ∃ s m, grammarAt d.disk (.parse target.file) = some s ∧
      target.method = .value m ∧ productOf s m = .ok p := by
  simp only [produce, onGrammar_eq, gives_bind, gives_readGrammar, gives_need, gives_tablesBy] at done
  obtain ⟨s, _, ⟨read, rfl⟩, description, d, ⟨parsed, rfl⟩, _, d₁, remark₁, g, _, ⟨lowered, rfl⟩, _, d₂,
    remark₂, ⟨passes, g₁⟩, _, ⟨analysed, rfl⟩, _, d₃, remark₃, ⟨t, g₂⟩, _, ⟨m, chosen, built, rfl⟩, _, d₄,
    remark₄, done⟩ := done
  have unchanged : d₄.disk = d.disk :=
    (quiet_remarkIf _ _ remark₄).trans ((quiet_remarkIf _ _ remark₃).trans
      ((quiet_remarkIf _ _ remark₂).trans (quiet_remarkIf _ _ remark₁)))
  have reported : p = ⟨g₂, t⟩ ∧ d'.disk = d₄.disk := by
    split at done
    · simp only [gives_bind, gives_need, gives_pure] at done
      obtain ⟨lines, _, ⟨-, rfl⟩, _, d₅, remarks, rfl, rfl⟩ := done
      exact ⟨rfl, quiet_remarks lines remarks⟩
    · obtain ⟨rfl, rfl⟩ := gives_pure.1 done
      exact ⟨rfl, rfl⟩
  obtain ⟨rfl, same⟩ := reported
  exact ⟨same.trans unchanged, s, m, read, chosen,
    productOf_eq_ok.2 ⟨description, g, passes, g₁, parsed, lowered, analysed, built⟩⟩

/-- The product of a text is made where nothing is reported on the way. -/
theorem gives_produce {file : String} (read : grammarAt d.disk (.parse file) = some s)
    (made : productOf s m = .ok p) : Gives (produce ⟨file, .value m⟩ false) d p d := by
  obtain ⟨description, g, passes, g₁, parsed, lowered, analysed, built⟩ := productOf_eq_ok.1 made
  have silent : ∀ line, (remarkIf false line : Session (StateM Desk) Unit) = pure () := fun _ => rfl
  simp only [produce, onGrammar_eq, silent, gives_bind, gives_readGrammar, gives_need, gives_tablesBy,
    gives_pure]
  exact ⟨s, d, ⟨read, rfl⟩, description, d, ⟨parsed, rfl⟩, (), d, ⟨trivial, rfl⟩, g, d, ⟨lowered, rfl⟩, (),
    d, ⟨trivial, rfl⟩, (passes, g₁), d, ⟨analysed, rfl⟩, (), d, ⟨trivial, rfl⟩, (p.tables, p.grammar), d,
    ⟨m, rfl, built, rfl⟩, (), d, ⟨trivial, rfl⟩, gives_pure.2 ⟨rfl, rfl⟩⟩

/-! ## The fingerprint that is stored -/

theorem exists?_eq (path : Path) : StateT.run (Files.exists? path : StateM Desk Bool) d =
    (!path.hasNul && (d.disk.find? path).isSome, d) := by
  rw [Files.exists?]
  cases path.hasNul <;> rfl

/-- Where there is no file there is no fingerprint. -/
theorem gives_storedFingerprint_of_none {path : Path} {debug : Bool} (absent : d.disk.find? path = none) :
    Gives (storedFingerprint path debug) d s d' ↔ s = "" ∧ d' = d := by
  have none : StateT.run (Files.exists? path : StateM Desk Bool) d = (false, d) := by
    rw [exists?_eq, absent, Option.isSome_none, Bool.and_false]
  rw [storedFingerprint, gives_bind_of (gives_lift.2 none), if_pos Bool.not_false, gives_pure]

/-- From a table file the fingerprint is taken, if it can be read. -/
theorem gives_storedFingerprint_of_stored {path : Path} {debug : Bool} {text : String}
    (stored : Stored d.disk path text) (plain : Document.decode? text.toUTF8 = some text)
    (sound : ∀ e, TableFile.readFingerprint text ≠ .error (.stream e)) :
    Gives (storedFingerprint path debug) d s d' ↔ TableFile.readFingerprint text = .ok s ∧ d' = d := by
  have there : StateT.run (Files.exists? path : StateM Desk Bool) d = (true, d) := by
    rw [exists?_eq, stored.found, stored.plain]
    rfl
  have read : Gives (Files.readText path) d text d :=
    gives_readText.2 ⟨fileAt_eq_some.2 ⟨stored.plain, _, Disk.read_of_find? stored.found, plain⟩, rfl⟩
  rw [storedFingerprint, gives_bind_of (gives_lift.2 there), if_neg (by decide), gives_bind_of read]
  cases told : TableFile.readFingerprint text with
  | ok fingerprint => rw [gives_pure, Except.ok.injEq, eq_comm]
  | error e =>
    cases e with
    | stream e => exact absurd told (sound e)
    | _ => simp [not_gives_throw]

/-- If a fingerprint is taken from a table file, it is the one that was written. -/
theorem storedFingerprint_of_stored {path : Path} {debug : Bool} {g : Grammar} {t : Tables}
    {fingerprint : String} (stored : Stored d.disk path (TableFile.write g t fingerprint))
    (done : Gives (storedFingerprint path debug) d s d') : s = fingerprint ∧ d' = d := by
  have taken := fun sound =>
    (gives_storedFingerprint_of_stored stored (TableFile.decode?_write g t fingerprint) sound).1 done
  rcases TableFile.readFingerprint_write g t fingerprint with told | ⟨n, failed⟩
  · rw [told] at taken
    obtain ⟨eq, same⟩ := taken nofun
    cases eq
    exact ⟨rfl, same⟩
  · rw [failed] at taken
    cases (taken nofun).1

/-! ## One build -/

/-- A choice before a session, where the other choice is a value. -/
theorem gives_bindIf {c : Prop} [Decidable c] {v : α} : Gives (if c then x >>= f else f v) d b d' ↔
    ∃ a e, Gives (if c then x else pure v) d a e ∧ Gives (f a) e b d' := by
  by_cases h : c
  · simp only [if_pos h, gives_bind]
  · simp only [if_neg h, gives_pure]
    constructor
    · exact fun done => ⟨v, d, ⟨rfl, rfl⟩, done⟩
    · rintro ⟨_, _, ⟨rfl, rfl⟩, done⟩
      exact done

theorem gives_bindIf_bind {γ : Type} {y : Session (StateM Desk) γ} {c : Prop} [Decidable c] {v : α} :
    Gives (if c then y >>= fun _ => x >>= f else f v) d b d' ↔
      ∃ a e, Gives (if c then y >>= fun _ => x else pure v) d a e ∧ Gives (f a) e b d' := by
  rw [← bind_assoc]
  exact gives_bindIf

/-- A build either finds the fingerprint of its grammar and leaves the disk alone, or it stores the table file
that it has made. -/
theorem build_cases {cache debug : Bool} (done : Gives (build target (.value out) cache debug) d () d') :
    ∃ s v e, grammarAt d.disk (.parse target.file) = some s ∧
      Gives (if cache then storedFingerprint (.parse out) debug else pure "") d v e ∧
      (v = Sha256.fingerprint s ∧ d'.disk = e.disk ∨
        v ≠ Sha256.fingerprint s ∧ ∃ s' m p e₁ e₂, grammarAt e.disk (.parse target.file) = some s' ∧
          target.method = .value m ∧ productOf s' m = .ok p ∧ e₁.disk = e.disk ∧ d'.disk = e₂.disk ∧
          Gives (store (.parse out) (TableFile.write p.grammar p.tables (Sha256.fingerprint s))) e₁ () e₂) := by
  have path : (pathGiven (.value out) : Session (StateM Desk) Path) = pure (.parse out) := rfl
  rw [build, path, pure_bind, gives_bind] at done
  obtain ⟨s, d, read, done⟩ := done
  obtain ⟨read, rfl⟩ := gives_readGrammar.1 read
  obtain ⟨v, e, looked, done⟩ := gives_bindIf.1 done
  refine ⟨s, v, e, read, looked, ?_⟩
  beta_reduce at done
  split at done
  · rename_i hit
    exact .inl ⟨hit, quiet_result _ done⟩
  · rename_i miss
    obtain ⟨p, e₁, produced, done⟩ := gives_bind.1 done
    obtain ⟨same, s', m, again, chosen, made⟩ := productOf_of_produce produced
    obtain ⟨_, e₂, warned, done⟩ := gives_bindIf_bind.1 done
    obtain ⟨_, e₃, parents, done⟩ := gives_bind.1 done
    obtain ⟨_, e₄, written, done⟩ := gives_bind.1 done
    obtain ⟨_, e₅, told, remarked⟩ := gives_bind.1 done
    have quiet : e₂.disk = e₁.disk := by
      split at warned
      · exact quiet_bind (quiet_remark _) (fun _ => quiet_remark _) warned
      · exact quiet_pure () warned
    have last : d'.disk = e₄.disk := (quiet_remarkIf _ _ remarked).trans (quiet_result _ told)
    exact .inr ⟨miss, s', m, p, e₂, e₄, again, chosen, made, quiet.trans same, last,
      gives_bind.2 ⟨_, e₃, parents, written⟩⟩

theorem exists_gives_bind {d₁ : Desk} (first : Gives x d a d₁) (rest : ∃ d', Gives (f a) d₁ b d') :
    ∃ d', Gives (x >>= f) d b d' := by
  obtain ⟨d', rest⟩ := rest
  exact ⟨d', gives_bind.2 ⟨a, d₁, first, rest⟩⟩

theorem exists_gives_bindIf {c : Prop} [Decidable c] {v : α} {d₁ : Desk}
    (first : Gives (if c then x else pure v) d a d₁) (rest : ∃ d', Gives (f a) d₁ b d') :
    ∃ d', Gives (if c then x >>= f else f v) d b d' := by
  obtain ⟨d', rest⟩ := rest
  exact ⟨d', gives_bindIf.2 ⟨a, d₁, first, rest⟩⟩

/-- Remarks before a session keep it from nothing. -/
theorem exists_gives_remarked {f : Unit → Session (StateM Desk) β} {c : Prop} [Decidable c]
    {first second : String} (rest : ∀ d₁ : Desk, d₁.disk = d.disk → ∃ d', Gives (f ()) d₁ b d') :
    ∃ d', Gives (if c then remark first >>= fun _ => remark second >>= f else f ()) d b d' := by
  split
  · exact exists_gives_bind (gives_remark.2 rfl) (exists_gives_bind (gives_remark.2 rfl) (rest _ rfl))
  · exact rest d rfl

/-- A build goes through where it does not find the fingerprint, and the product can be made and stored. -/
theorem exists_build {file : String} {cache : Bool} {v : String}
    (read : grammarAt d.disk (.parse file) = some s) (made : productOf s m = .ok p)
    (storable : Storable d.disk (.parse out))
    (looked : Gives (if cache then storedFingerprint (.parse out) false else pure "") d v d)
    (miss : v ≠ Sha256.fingerprint s) :
    ∃ d', Gives (build ⟨file, .value m⟩ (.value out) cache false) d () d' := by
  have path : (pathGiven (.value out) : Session (StateM Desk) Path) = pure (.parse out) := rfl
  rw [build, path, pure_bind]
  refine exists_gives_bind (gives_readGrammar.2 ⟨read, rfl⟩) (exists_gives_bindIf looked ?_)
  beta_reduce
  rw [if_neg miss]
  refine exists_gives_bind (gives_produce read made) (exists_gives_remarked fun d₁ unchanged => ?_)
  obtain ⟨d₃, stored⟩ := (unchanged ▸ storable : Storable d₁.disk _).exists_store
    (TableFile.write p.grammar p.tables (Sha256.fingerprint s))
  obtain ⟨_, d₂, parents, written⟩ := gives_bind.1 stored
  exact exists_gives_bind parents (exists_gives_bind written
    (exists_gives_bind (gives_result.2 rfl) ⟨_, gives_pure.2 ⟨rfl, rfl⟩⟩))

/-- A build goes through where it finds the fingerprint. -/
theorem exists_build_of_hit (read : grammarAt d.disk (.parse target.file) = some s)
    (looked : Gives (storedFingerprint (.parse out) false) d (Sha256.fingerprint s) d) :
    ∃ d', Gives (build target (.value out) true false) d () d' := by
  have path : (pathGiven (.value out) : Session (StateM Desk) Path) = pure (.parse out) := rfl
  rw [build, path, pure_bind]
  refine exists_gives_bind (gives_readGrammar.2 ⟨read, rfl⟩) (exists_gives_bind looked ?_)
  beta_reduce
  rw [if_pos rfl]
  exact ⟨_, gives_result.2 rfl⟩

/-! ## Runs -/

/-- The command is run on a desk, ends with the code 0 and leaves the other desk. -/
def Command.Succeeds (c : Command) (d d' : Desk) : Prop :=
  StateT.run (c.run : StateM Desk (Except Failure Nat)) d = (.ok 0, d')

theorem Command.succeeds_iff {c : Command} : c.Succeeds d d' ↔ Gives c.perform d () d' := by
  rw [Succeeds, Command.run, Gives, StateT.run_bind]
  rcases StateT.run (ExceptT.run c.perform) d with ⟨r, d₁⟩
  cases r with
  | ok u =>
    constructor <;>
    · intro eq
      cases eq
      rfl
  | error failure =>
    -- A report ends with another code, and without one there is no code.
    refine ⟨fun eq => ?_, fun eq => by cases eq⟩
    simp only [bind] at eq
    cases told : c.report? failure with
    | none =>
      rw [told] at eq
      cases eq
    | some lines =>
      rw [told] at eq
      cases congrArg Prod.fst eq

end ParserGenerator.CommandLine
