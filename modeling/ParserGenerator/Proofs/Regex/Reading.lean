import ParserGenerator.Proofs.Collection.Attempt
import ParserGenerator.Proofs.Regex.Spelling

/-!
# Reading as a relation

What a token makes of the levels does not depend on the place where it stands. A text that is read by
itself is therefore read in the same way behind others: its levels stand on those that it found, and what it
puts into its first level comes behind what that level held.
-/

namespace ParserGenerator.Regex

variable {value value' : String → Option Regex} {meaning : Meaning} {fault : Nat → RegexFault → Error}
  {ls ls' ls₁ ls₂ : Levels} {t : Token} {ts us : List Token} {source : String} {r : Regex}

/-- What references stand for, wherever they are. -/
def Meaning.Gives (meaning : Meaning) (value : String → Option Regex) : Prop :=
  ∀ name fault r, meaning name fault = .ok r ↔ value name = some r

/-- What a token makes of the levels. -/
inductive Takes (value : String → Option Regex) : Levels → Token → Levels → Prop
  | openGroup (i : Level) (os : List Level) : Takes value ⟨i, os⟩ .openGroup ⟨{}, i :: os⟩
  | closeGroup (i o : Level) (os : List Level) :
      Takes value ⟨i, o :: os⟩ .closeGroup ⟨o.add i.choice, os⟩
  | bar (i : Level) (os : List Level) : Takes value ⟨i, os⟩ .bar ⟨i.nextOption, os⟩
  | repeated (op : Repetition) (options : List Regex) (r : Regex) (rs : List Regex) (os : List Level) :
      Takes value ⟨⟨options, r :: rs⟩, os⟩ (.repeated op) ⟨⟨options, op.apply r :: rs⟩, os⟩
  | atom (r : Regex) (i : Level) (os : List Level) : Takes value ⟨i, os⟩ (.atom r) ⟨i.add r, os⟩
  | reference {name : String} {r : Regex} (known : value name = some r) (i : Level) (os : List Level) :
      Takes value ⟨i, os⟩ (.reference name) ⟨i.add r, os⟩

/-- What tokens in a row make of the levels. -/
inductive Runs (value : String → Option Regex) : Levels → List Token → Levels → Prop
  | nil (ls : Levels) : Runs value ls [] ls
  | cons {ls ls₁ ls' : Levels} {t : Token} {ts : List Token} (first : Takes value ls t ls₁)
      (others : Runs value ls₁ ts ls') : Runs value ls (t :: ts) ls'

theorem Runs.append (h : Runs value ls ts ls₁) (h' : Runs value ls₁ us ls') :
    Runs value ls (ts ++ us) ls' := by
  induction h with
  | nil => exact h'
  | cons first _ ih => exact .cons first (ih h')

theorem Takes.runs (h : Takes value ls t ls') : Runs value ls [t] ls' := .cons h (.nil ls')

theorem Runs.split (h : Runs value ls (ts ++ us) ls') :
    ∃ ls₁, Runs value ls ts ls₁ ∧ Runs value ls₁ us ls' := by
  induction ts generalizing ls with
  | nil => exact ⟨ls, .nil ls, h⟩
  | cons t ts ih =>
    cases h with
    | cons first others =>
      obtain ⟨ls₁, front, back⟩ := ih others
      exact ⟨ls₁, .cons first front, back⟩

/-- References may mean more, as long as those that occur mean the same. -/
theorem Takes.mono (h : Takes value ls t ls')
    (more : ∀ name r, t = .reference name → value name = some r → value' name = some r) :
    Takes value' ls t ls' := by
  cases h with
  | openGroup i os => exact .openGroup i os
  | closeGroup i o os => exact .closeGroup i o os
  | bar i os => exact .bar i os
  | repeated op options r rs os => exact .repeated op options r rs os
  | atom r i os => exact .atom r i os
  | reference known i os => exact .reference (more _ _ rfl known) i os

theorem Runs.mono (h : Runs value ls ts ls')
    (more : ∀ name r, .reference name ∈ ts → value name = some r → value' name = some r) :
    Runs value' ls ts ls' := by
  induction h with
  | nil ls => exact .nil ls
  | cons first _ ih =>
    exact .cons (first.mono fun name r same => more name r (same ▸ List.mem_cons_self))
      (ih fun name r mem => more name r (List.mem_cons_of_mem _ mem))

/-! ## The reader -/

theorem take_eq_ok (gives : meaning.Gives value) {l : Located} :
    ls.take fault meaning l = .ok ls' ↔ Takes value ls l.token ls' := by
  obtain ⟨i, os⟩ := ls
  obtain ⟨t, start, stop⟩ := l
  constructor
  · intro h
    cases t with
    | openGroup =>
      cases h
      exact .openGroup i os
    | closeGroup =>
      cases os with
      | nil => cases h
      | cons o os =>
        cases h
        exact .closeGroup i o os
    | bar =>
      cases h
      exact .bar i os
    | repeated op =>
      obtain ⟨options, parts⟩ := i
      cases parts with
      | nil => cases h
      | cons r rs =>
        cases h
        exact .repeated op options r rs os
    | atom r =>
      cases h
      exact .atom r i os
    | reference name =>
      obtain ⟨r, found, same⟩ := Attempt.bind_eq_ok.1 h
      cases same
      exact .reference ((gives name _ r).1 found) i os
  · intro h
    cases h with
    | openGroup | closeGroup | bar | repeated | atom => rfl
    | reference known => simp only [Levels.take, (gives _ _ _).2 known]; rfl

theorem foldlM_take_eq_ok (gives : meaning.Gives value) {located : List Located} :
    located.foldlM (Levels.take fault meaning) ls = .ok ls' ↔
      Runs value ls (located.map Located.token) ls' := by
  induction located generalizing ls with
  | nil =>
    constructor
    · rintro ⟨⟩
      exact .nil _
    · rintro ⟨⟩
      rfl
  | cons l located ih =>
    rw [List.foldlM_cons, Attempt.bind_eq_ok]
    constructor
    · rintro ⟨ls₁, first, others⟩
      exact .cons ((take_eq_ok gives).1 first) (ih.1 others)
    · rintro (_ | ⟨first, others⟩)
      exact ⟨_, (take_eq_ok gives).2 first, ih.2 others⟩

/-- What is read off a text. -/
theorem parseWith_eq_ok (gives : meaning.Gives value) : parseWith meaning source = .ok r ↔
    ∃ located l, scan 0 source.toList = (located, none) ∧
      Runs value {} (located.map Located.token) ⟨l, []⟩ ∧ l.choice = r := by
  simp only [parseWith]
  rw [Attempt.bind_eq_ok]
  constructor
  · rintro ⟨⟨i, os⟩, read, h⟩
    cases ended : (scan 0 source.toList).2 with
    | some stop => cases stop <;> (rw [ended] at h; cases h)
    | none =>
      cases os with
      | cons o os =>
        rw [ended] at h
        cases h
      | nil =>
        rw [ended] at h
        cases h
        exact ⟨_, i, Prod.ext rfl ended, (foldlM_take_eq_ok gives).1 read, rfl⟩
  · rintro ⟨located, l, scanned, runs, rfl⟩
    rw [scanned]
    exact ⟨⟨l, []⟩, (foldlM_take_eq_ok gives).2 runs, rfl⟩

/-- What is read off a text that is cut into tokens. -/
theorem parseWith_of_cuts (gives : meaning.Gives value) {l : Level} (cut : Cuts source.toList ts)
    (runs : Runs value {} ts ⟨l, []⟩) : parseWith meaning source = .ok l.choice := by
  obtain ⟨located, rfl, scanned⟩ := cut.scan 0
  exact (parseWith_eq_ok gives).2 ⟨located, l, scanned, runs, rfl⟩

theorem exists_cuts_of_parseWith (gives : meaning.Gives value) (h : parseWith meaning source = .ok r) :
    ∃ ts l, Cuts source.toList ts ∧ Runs value {} ts ⟨l, []⟩ ∧ l.choice = r := by
  obtain ⟨located, l, scanned, runs, same⟩ := (parseWith_eq_ok gives).1 h
  exact ⟨_, l, cuts_of_scan scanned, runs, same⟩

/-! ## Reading behind what was read -/

/-- What the tokens that make up a level from nothing make of another level: before the first bar the
parts come behind those that were there. -/
structure Level.Behind (base l l' : Level) : Prop where
  first : l.options = [] → l' = ⟨base.options, l.parts ++ base.parts⟩
  later : l.options ≠ [] → l'.parts = l.parts
  fresh : base.parts = [] → l' = ⟨l.options ++ base.options, l.parts⟩

namespace Level.Behind

variable {base l l' : Level}

theorem refl (base : Level) : base.Behind {} base where
  first _ := rfl
  later some := absurd rfl some
  fresh none := by
    obtain ⟨options, parts⟩ := base
    exact congrArg (Level.mk options) none

theorem add (h : base.Behind l l') (r : Regex) : base.Behind (l.add r) (l'.add r) where
  first none := by rw [h.first none]; rfl
  later some := congrArg (r :: ·) (h.later some)
  fresh none := by rw [h.fresh none]; rfl

theorem nextOption (h : base.Behind l l') : base.Behind l.nextOption l'.nextOption where
  first none := absurd none (List.cons_ne_nil _ _)
  later _ := rfl
  fresh none := by rw [h.fresh none]; rfl

/-- The last part of the level is also the last part behind the other one. -/
theorem repeated {options rs : List Regex} {r : Regex} (h : base.Behind ⟨options, r :: rs⟩ l')
    (x : Regex) : ∃ options' rs', l' = ⟨options', r :: rs'⟩ ∧
      base.Behind ⟨options, x :: rs⟩ ⟨options', x :: rs'⟩ := by
  obtain ⟨options', parts'⟩ := l'
  obtain ⟨rs', rfl⟩ : ∃ rs', parts' = r :: rs' := by
    by_cases none : options = []
    · exact ⟨_, congrArg Level.parts (h.first none)⟩
    · exact ⟨rs, h.later none⟩
  refine ⟨options', rs', rfl, fun none => ?_, fun some => ?_, fun none => ?_⟩
  · obtain ⟨rfl, same⟩ := Level.mk.inj (h.first none)
    rw [(List.cons.inj same).2]
    rfl
  · rw [(List.cons.inj (h.later some)).2]
  · obtain ⟨rfl, same⟩ := Level.mk.inj (h.fresh none)
    rw [(List.cons.inj same).2]

end Level.Behind

/-- Levels that stand on a level and on the levels around it. -/
inductive Framed (base : Level) (around : List Level) : Levels → Levels → Prop
  | bottom {l l' : Level} (behind : base.Behind l l') : Framed base around ⟨l, []⟩ ⟨l', around⟩
  | above {l l' : Level} (behind : base.Behind l l') (i : Level) (between : List Level) :
      Framed base around ⟨i, between ++ [l]⟩ ⟨i, between ++ l' :: around⟩

variable {base : Level} {around : List Level}

/-- Tokens that are read by themselves are read in the same way on other levels. -/
theorem Takes.framed (h : Takes value ls t ls₁) (frame : Framed base around ls ls') :
    ∃ ls₁', Takes value ls' t ls₁' ∧ Framed base around ls₁ ls₁' := by
  cases frame with
  | @bottom l l' behind =>
    cases h with
    | openGroup => exact ⟨_, .openGroup _ _, .above behind {} []⟩
    | bar => exact ⟨_, .bar _ _, .bottom behind.nextOption⟩
    | repeated op options r rs os =>
      obtain ⟨options', rs', rfl, behind'⟩ := behind.repeated (op.apply r)
      exact ⟨_, .repeated op options' r rs' around, .bottom behind'⟩
    | atom r => exact ⟨_, .atom r _ _, .bottom (behind.add r)⟩
    | reference known => exact ⟨_, .reference known _ _, .bottom (behind.add _)⟩
  | @above l l' behind i between =>
    generalize stack : between ++ [l] = os at h
    cases h with
    | closeGroup i o os =>
      cases between with
      | nil =>
        obtain ⟨rfl, rfl⟩ := List.cons.inj stack
        exact ⟨_, .closeGroup i l' around, .bottom (behind.add _)⟩
      | cons b between =>
        obtain ⟨rfl, rfl⟩ := List.cons.inj stack
        exact ⟨_, .closeGroup i b _, .above behind _ between⟩
    | openGroup =>
      subst stack
      exact ⟨_, .openGroup _ _, .above behind {} (i :: between)⟩
    | bar =>
      subst stack
      exact ⟨_, .bar _ _, .above behind i.nextOption between⟩
    | repeated op options r rs =>
      subst stack
      exact ⟨_, .repeated op options r rs _, .above behind _ between⟩
    | atom r =>
      subst stack
      exact ⟨_, .atom r _ _, .above behind _ between⟩
    | reference known =>
      subst stack
      exact ⟨_, .reference known _ _, .above behind _ between⟩

theorem Runs.framed (h : Runs value ls ts ls₁) (frame : Framed base around ls ls') :
    ∃ ls₁', Runs value ls' ts ls₁' ∧ Framed base around ls₁ ls₁' := by
  induction h generalizing ls' with
  | nil => exact ⟨ls', .nil ls', frame⟩
  | cons first _ ih =>
    obtain ⟨ls₁', taken, frame₁⟩ := first.framed frame
    obtain ⟨ls₂', runs, frame₂⟩ := ih frame₁
    exact ⟨ls₂', .cons taken runs, frame₂⟩

/-- A text that is read by itself is read on other levels. -/
theorem Runs.behind {l : Level} (h : Runs value {} ts ⟨l, []⟩) (base : Level) (around : List Level) :
    ∃ l', Runs value ⟨base, around⟩ ts ⟨l', around⟩ ∧ base.Behind l l' := by
  obtain ⟨ls', runs, frame⟩ := h.framed (.bottom (.refl base))
  generalize ended : (⟨l, []⟩ : Levels) = ls at frame
  cases frame with
  | bottom behind =>
    cases ended
    exact ⟨_, runs, behind⟩
  | above behind i between => exact absurd (congrArg Levels.outer ended).symm (by simp)

/-- A text in parentheses is one part. -/
theorem Runs.group {l : Level} (h : Runs value {} ts ⟨l, []⟩) (base : Level) (around : List Level) :
    Runs value ⟨base, around⟩ (.openGroup :: (ts ++ [.closeGroup])) ⟨base.add l.choice, around⟩ := by
  obtain ⟨l', runs, behind⟩ := h.behind {} (base :: around)
  have same : l' = l := by rw [behind.fresh rfl, List.append_nil]
  rw [same] at runs
  exact .cons (.openGroup _ _) (runs.append (Takes.closeGroup _ _ _).runs)

/-! ## References -/

/-- The meaning of references while the given names are being expanded. -/
def within (definitions : OrderedMap String String) (depth : Nat) (expanding : List String) : Meaning :=
  fun name fault =>
    match definitions.get? name with
    | none => property name
    | some body =>
      if name ∈ expanding then .error (fault (.recursiveDefinition name))
      else parseWithin definitions depth (name :: expanding) body

theorem parseWithin_succ (definitions : OrderedMap String String) (depth : Nat) (expanding : List String)
    (source : String) : parseWithin definitions (depth + 1) expanding source =
      parseWith (within definitions depth expanding) source := rfl

/-- What names stand for while the given ones are being expanded. -/
def referent (definitions : OrderedMap String String) (depth : Nat) (expanding : List String)
    (name : String) : Option Regex :=
  match definitions.get? name with
  | none => (property name).toOption
  | some body =>
    if name ∈ expanding then none else (parseWithin definitions depth (name :: expanding) body).toOption

theorem toOption_eq_some {x : Except Error Regex} : x.toOption = some r ↔ x = .ok r := by
  cases x with
  | error e => exact ⟨nofun, nofun⟩
  | ok a => exact ⟨fun h => congrArg _ (Option.some.inj h), fun h => congrArg _ (Except.ok.inj h)⟩

theorem gives_within (definitions : OrderedMap String String) (depth : Nat) (expanding : List String) :
    (within definitions depth expanding).Gives (referent definitions depth expanding) := by
  intro name fault r
  rw [within, referent]
  cases definitions.get? name with
  | none => exact toOption_eq_some.symm
  | some body =>
    dsimp only
    split
    · exact ⟨nofun, nofun⟩
    · exact toOption_eq_some.symm

variable {definitions : OrderedMap String String}

theorem parse_of_cuts {l : Level} (cut : Cuts source.toList ts)
    (runs : Runs (referent definitions definitions.size []) {} ts ⟨l, []⟩) :
    parse definitions source = .ok l.choice :=
  parseWith_of_cuts (gives_within definitions definitions.size []) cut runs

theorem exists_cuts_of_parse (h : parse definitions source = .ok r) : ∃ ts l, Cuts source.toList ts ∧
    Runs (referent definitions definitions.size []) {} ts ⟨l, []⟩ ∧ l.choice = r :=
  exists_cuts_of_parseWith (gives_within definitions definitions.size []) h

end ParserGenerator.Regex
