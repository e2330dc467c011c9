import Mathlib.Data.List.Perm.Subperm
import Mathlib.Logic.Relation
import ParserGenerator.Proofs.Collection.OrderedMap
import ParserGenerator.Proofs.Regex.Reading

/-!
# Expansion of named definitions

Names are expanded while no name stands inside itself. Where the texts are well-formed by themselves, this
succeeds exactly if no cycle of references can be reached, and a reference may be replaced by the text that
its name stands for, in parentheses.
-/

namespace ParserGenerator.Regex

open Relation

variable {definitions : OrderedMap String String} {source : String} {r : Regex} {name : String}
  {value : String → Option Regex} {meaning : Meaning}
  {ls ls' ls₁ : Levels} {t : Token} {ts : List Token}

/-! ## References -/

/-- A text refers to a name that is defined. -/
def Refers (definitions : OrderedMap String String) (source name : String) : Prop :=
  (∃ l ∈ (scan 0 source.toList).1, l.token = .reference name) ∧ ∃ body, definitions.get? name = some body

/-- The text that stands for a name refers to another one. -/
def Needs (definitions : OrderedMap String String) (name other : String) : Prop :=
  ∃ body, definitions.get? name = some body ∧ Refers definitions body other

/-- A name that a text refers to, itself or through other names. -/
def Reaches (definitions : OrderedMap String String) (source name : String) : Prop :=
  ∃ first, Refers definitions source first ∧ ReflTransGen (Needs definitions) first name

/-- A text refers to a name that refers to itself, both directly or through other names. -/
def Cyclic (definitions : OrderedMap String String) (source : String) : Prop :=
  ∃ name, Reaches definitions source name ∧ TransGen (Needs definitions) name name

theorem Reaches.tail {other : String} (h : Reaches definitions source name)
    (needs : Needs definitions name other) : Reaches definitions source other := by
  obtain ⟨first, refers, path⟩ := h
  exact ⟨first, refers, path.tail needs⟩

/-- A cycle that a text reaches is also reached by a definition that the text refers to. -/
theorem Cyclic.exists_body (h : Cyclic definitions source) : ∃ name body, Refers definitions source name ∧
    definitions.get? name = some body ∧ Cyclic definitions body := by
  obtain ⟨last, ⟨first, refers, path⟩, cycle⟩ := h
  have start : ∃ next, Needs definitions first next ∧ ReflTransGen (Needs definitions) next last := by
    rcases ReflTransGen.cases_head path with rfl | ⟨next, needs, path⟩
    · exact TransGen.head'_iff.1 cycle
    · exact ⟨next, needs, path⟩
  obtain ⟨next, ⟨body, defined, refers'⟩, path'⟩ := start
  exact ⟨first, body, refers, defined, last, ⟨next, refers', path'⟩, cycle⟩

theorem Runs.exists_value (h : Runs value ls ts ls') (mem : .reference name ∈ ts) :
    ∃ r, value name = some r := by
  induction h with
  | nil => cases mem
  | cons first _ ih =>
    rcases List.mem_cons.1 mem with rfl | mem
    · cases first with
      | reference known => exact ⟨_, known⟩
    · exact ih mem

/-- A text that is read refers to names that stand for something. -/
theorem exists_value_of_parseWith (gives : meaning.Gives value) (h : parseWith meaning source = .ok r)
    {l : Located} (mem : l ∈ (scan 0 source.toList).1) (reference : l.token = .reference name) :
    ∃ x, value name = some x := by
  obtain ⟨located, _, scanned, runs, -⟩ := (parseWith_eq_ok gives).1 h
  rw [scanned] at mem
  exact runs.exists_value (reference ▸ List.mem_map_of_mem mem)

theorem referent_eq_some {depth : Nat} {expanding : List String} {body : String}
    (defined : definitions.get? name = some body) : referent definitions depth expanding name = some r ↔
      name ∉ expanding ∧ parseWithin definitions depth (name :: expanding) body = .ok r := by
  rw [referent, defined]
  dsimp only
  split
  · exact ⟨fun h => absurd h.symm (Option.some_ne_none r), fun h => absurd ‹_› h.1⟩
  · exact ⟨fun h => ⟨‹_›, toOption_eq_some.1 h⟩, fun h => toOption_eq_some.2 h.2⟩

/-! ## What a success says -/

/-- No cycle can be reached from a text that is read. -/
theorem not_cyclic_of_parseWithin {depth : Nat} {expanding : List String}
    (h : parseWithin definitions depth expanding source = .ok r) : ¬ Cyclic definitions source := by
  induction depth generalizing expanding source r with
  | zero => cases h
  | succ depth ih =>
    intro cyclic
    obtain ⟨name, body, ⟨⟨l, mem, reference⟩, -⟩, defined, cyclic⟩ := cyclic.exists_body
    obtain ⟨x, known⟩ := exists_value_of_parseWith (gives_within definitions depth expanding) h mem reference
    exact ih ((referent_eq_some defined).1 known).2 cyclic

/-- With more depth and fewer names being expanded, a text is read in the same way. -/
theorem parseWithin_mono {depth depth' : Nat} {expanding expanding' : List String}
    (h : parseWithin definitions depth expanding source = .ok r) (deeper : depth ≤ depth')
    (fewer : expanding' ⊆ expanding) : parseWithin definitions depth' expanding' source = .ok r := by
  induction depth generalizing depth' expanding expanding' source r with
  | zero => cases h
  | succ depth ih =>
    obtain ⟨depth', rfl⟩ : ∃ d, depth' = d + 1 := ⟨depth' - 1, by omega⟩
    obtain ⟨ts, l, cut, runs, rfl⟩ := exists_cuts_of_parseWith (gives_within definitions depth expanding) h
    refine parseWith_of_cuts (gives_within definitions depth' expanding') cut (runs.mono fun name x _ known => ?_)
    cases defined : definitions.get? name with
    | none =>
      rw [referent, defined] at known ⊢
      exact known
    | some body =>
      obtain ⟨apart, read⟩ := (referent_eq_some defined).1 known
      exact (referent_eq_some defined).2 ⟨fun mem => apart (fewer mem),
        ih read (Nat.le_of_succ_le_succ deeper) (List.cons_subset_cons name fewer)⟩

/-! ## Texts that are well-formed by themselves -/

/-- Names that are defined stand for one and the same atom. -/
def atomic (definitions : OrderedMap String String) : Meaning :=
  fun name _ => if definitions.contains name then .ok .empty else property name

/-- A text is accepted where references to defined names are atoms. -/
def WellFormed (definitions : OrderedMap String String) (source : String) : Prop :=
  ∃ r, parseWith (atomic definitions) source = .ok r

/-- What names stand for there. -/
def atomicReferent (definitions : OrderedMap String String) (name : String) : Option Regex :=
  if definitions.contains name then some .empty else (property name).toOption

theorem gives_atomic : (atomic definitions).Gives (atomicReferent definitions) := by
  intro name fault r
  rw [atomic, atomicReferent]
  split
  · exact ⟨fun h => congrArg _ (Except.ok.inj h), fun h => congrArg _ (Option.some.inj h)⟩
  · exact toOption_eq_some.symm

theorem referent_of_atomic {depth : Nat} {expanding : List String} (undefined : definitions.get? name = none)
    (known : atomicReferent definitions name = some r) :
    referent definitions depth expanding name = some r := by
  rw [atomicReferent, OrderedMap.contains, undefined] at known
  rw [referent, undefined]
  exact known

/-- Levels with as many parts each. -/
structure Alike (ls ls' : Levels) : Prop where
  inner : ls.inner.parts.length = ls'.inner.parts.length
  outer : List.Forall₂ (fun a b : Level => a.parts.length = b.parts.length) ls.outer ls'.outer

/-- What is read depends on the meaning of references only as far as it may fail. -/
theorem Takes.alike (fault : Nat → RegexFault → Error) (meaning : Meaning) {l : Located}
    (h : Takes value ls l.token ls₁) (alike : Alike ls ls') :
    (∃ ls₁', ls'.take fault meaning l = .ok ls₁' ∧ Alike ls₁ ls₁') ∨
      ∃ name e, l.token = .reference name ∧ meaning name (fault l.stop) = .error e ∧
        ls'.take fault meaning l = .error e := by
  obtain ⟨t, start, stop⟩ := l
  obtain ⟨i', os'⟩ := ls'
  obtain ⟨inner, outer⟩ := alike
  dsimp only at h
  cases h with
  | openGroup => exact .inl ⟨_, rfl, rfl, .cons inner outer⟩
  | closeGroup i o os =>
    cases outer with
    | cons first others => exact .inl ⟨_, rfl, congrArg Nat.succ first, others⟩
  | bar => exact .inl ⟨_, rfl, rfl, outer⟩
  | repeated op options r rs os =>
    obtain ⟨options', parts'⟩ := i'
    cases parts' with
    | nil => cases inner
    | cons r' rs' => exact .inl ⟨_, rfl, inner, outer⟩
  | atom r i os => exact .inl ⟨_, rfl, congrArg Nat.succ inner, outer⟩
  | @reference name x known i os =>
    cases found : meaning name (fault stop) with
    | ok y =>
      refine .inl ⟨⟨i'.add y, os'⟩, ?_, congrArg Nat.succ inner, outer⟩
      simp only [Levels.take, found]
      rfl
    | error e =>
      refine .inr ⟨name, e, rfl, found, ?_⟩
      simp only [Levels.take, found]
      rfl

theorem Runs.alike (fault : Nat → RegexFault → Error) (meaning : Meaning) {located : List Located}
    (h : Runs value ls (located.map Located.token) ls₁) (alike : Alike ls ls') :
    (∃ ls₁', located.foldlM (Levels.take fault meaning) ls' = .ok ls₁' ∧ Alike ls₁ ls₁') ∨
      ∃ l ∈ located, ∃ name e, l.token = .reference name ∧ meaning name (fault l.stop) = .error e ∧
        located.foldlM (Levels.take fault meaning) ls' = .error e := by
  induction located generalizing ls ls' with
  | nil =>
    cases h
    exact .inl ⟨ls', rfl, alike⟩
  | cons l located ih =>
    rw [List.foldlM_cons]
    cases h with
    | cons first others =>
      rcases first.alike fault meaning alike with
        ⟨ls₂, taken, alike₂⟩ | ⟨name, e, reference, failed, taken⟩
      · rw [taken]
        rcases ih others alike₂ with read | ⟨l', mem, rest⟩
        · exact .inl read
        · exact .inr ⟨l', List.mem_cons_of_mem _ mem, rest⟩
      · rw [taken]
        exact .inr ⟨l, List.mem_cons_self, name, e, reference, failed, rfl⟩

/-- A text that is well-formed is read, unless a reference in it fails. -/
theorem WellFormed.parseWith_cases (h : WellFormed definitions source) (meaning : Meaning) :
    (∃ r, parseWith meaning source = .ok r) ∨ ∃ l ∈ (scan 0 source.toList).1, ∃ name e,
      l.token = .reference name ∧
      meaning name (fun f => .source (.illFormedRegex source l.stop f)) = .error e ∧
      parseWith meaning source = .error e := by
  obtain ⟨r, accepted⟩ := h
  obtain ⟨located, l, scanned, runs, -⟩ := (parseWith_eq_ok gives_atomic).1 accepted
  simp only [parseWith, scanned]
  rcases runs.alike (fun offset f => .source (.illFormedRegex source offset f)) meaning
    (⟨rfl, .nil⟩ : Alike {} {}) with
    ⟨⟨i, os⟩, read, alike⟩ | ⟨l', mem, name, e, reference, failed, read⟩
  · have closed : os = [] := List.forall₂_nil_left_iff.1 alike.outer
    rw [read, closed]
    exact .inl ⟨_, rfl⟩
  · refine .inr ⟨l', mem, name, e, reference, failed, ?_⟩
    rw [read]
    rfl

/-! ## What a failure says -/

/-- The definitions are well-formed by themselves. -/
def AllWellFormed (definitions : OrderedMap String String) : Prop :=
  ∀ name body, definitions.get? name = some body → WellFormed definitions body

/-- The names that are being expanded while a text that can be reached is read. -/
structure Expanding (definitions : OrderedMap String String) (origin source : String)
    (names : List String) : Prop where
  nodup : names.Nodup
  among : names ⊆ definitions.keys
  leads : ∀ name ∈ names, ∀ other, Refers definitions source other →
    TransGen (Needs definitions) name other
  reached : ∀ other, Refers definitions source other → Reaches definitions origin other

variable {origin body : String} {names : List String} {depth depth' : Nat}

theorem Expanding.start (source : String) : Expanding definitions source source [] where
  nodup := List.nodup_nil
  among := List.nil_subset _
  leads _ mem := absurd mem List.not_mem_nil
  reached other refers := ⟨other, refers, .refl⟩

/-- There are no more names being expanded than there are names. -/
theorem length_le_size (nodup : names.Nodup) (among : names ⊆ definitions.keys) :
    names.length ≤ definitions.size := by
  rw [OrderedMap.size, ← List.length_map Prod.fst]
  exact (nodup.subperm among).length_le

/-- A name that the text refers to is expanded, unless it is already being expanded. -/
theorem Expanding.cons (h : Expanding definitions origin source names)
    (refers : Refers definitions source name) (defined : definitions.get? name = some body)
    (apart : name ∉ names) : Expanding definitions origin body (name :: names) where
  nodup := List.nodup_cons.2 ⟨apart, h.nodup⟩
  among := List.cons_subset.2 ⟨OrderedMap.mem_keys.2 ⟨body, defined⟩, h.among⟩
  leads := List.forall_mem_cons.2 ⟨fun _ next => .single ⟨body, defined, next⟩,
    fun first mem _ next => (h.leads first mem name refers).tail ⟨body, defined, next⟩⟩
  reached _ next := (h.reached name refers).tail ⟨body, defined, next⟩

/-- With a depth for each name that is not being expanded, a text is read, or a definition turns out to be
recursive that is. -/
theorem Expanding.parseWithin_cases (h : Expanding definitions origin source names)
    (all : AllWellFormed definitions) (well : WellFormed definitions source)
    (enough : definitions.size < depth + names.length) :
    (∃ r, parseWithin definitions depth names source = .ok r) ∨ ∃ text offset name,
      parseWithin definitions depth names source =
        .error (.source (.illFormedRegex text offset (.recursiveDefinition name))) ∧
      Reaches definitions origin name ∧ TransGen (Needs definitions) name name := by
  induction depth generalizing source names with
  | zero =>
    have := length_le_size h.nodup h.among
    omega
  | succ depth ih =>
    rw [parseWithin_succ]
    rcases well.parseWith_cases (within definitions depth names) with
      accepted | ⟨l, mem, name, e, reference, failed, refused⟩
    · exact .inl accepted
    · right
      rw [refused]
      cases defined : definitions.get? name with
      | none =>
        obtain ⟨r, accepted⟩ := well
        obtain ⟨x, known⟩ := exists_value_of_parseWith gives_atomic accepted mem reference
        rw [(gives_within definitions depth names name _ x).2 (referent_of_atomic defined known)] at failed
        cases failed
      | some body =>
        have refers : Refers definitions source name := ⟨⟨l, mem, reference⟩, body, defined⟩
        simp only [within, defined] at failed
        split at failed
        · rename_i inside
          cases failed
          exact ⟨source, l.stop, name, rfl, h.reached name refers, h.leads name inside name refers⟩
        · rename_i apart
          rcases ih (h.cons refers defined apart) (all name body defined) (by
            rw [List.length_cons]
            omega) with ⟨r, accepted⟩ | ⟨text, offset, last, recursive, cycle⟩
          · rw [accepted] at failed
            cases failed
          · rw [recursive] at failed
            cases failed
            exact ⟨text, offset, last, rfl, cycle⟩

/-- Among the names there is one more depth than names are left to be expanded. -/
structure Bounded (definitions : OrderedMap String String) (depth : Nat) (names : List String) : Prop where
  nodup : names.Nodup
  among : names ⊆ definitions.keys
  enough : definitions.size < depth + names.length

theorem Bounded.start (enough : definitions.size < depth) : Bounded definitions depth [] :=
  ⟨List.nodup_nil, List.nil_subset _, enough⟩

theorem Bounded.depth_pos (h : Bounded definitions depth names) : ∃ d, depth = d + 1 := by
  have := length_le_size h.nodup h.among
  have := h.enough
  exact ⟨depth - 1, by omega⟩

theorem Bounded.cons (h : Bounded definitions (depth + 1) names)
    (defined : definitions.get? name = some body) (apart : name ∉ names) :
    Bounded definitions depth (name :: names) where
  nodup := List.nodup_cons.2 ⟨apart, h.nodup⟩
  among := List.cons_subset.2 ⟨OrderedMap.mem_keys.2 ⟨body, defined⟩, h.among⟩
  enough := by
    have := h.enough
    rw [List.length_cons]
    omega

/-- A depth of more than the number of names makes no difference. -/
theorem Bounded.parseWithin_eq (h : Bounded definitions depth names) (h' : Bounded definitions depth' names) :
    parseWithin definitions depth names source = parseWithin definitions depth' names source := by
  induction depth generalizing depth' names source with
  | zero =>
    obtain ⟨d, none⟩ := h.depth_pos
    cases none
  | succ depth ih =>
    obtain ⟨depth', rfl⟩ := h'.depth_pos
    rw [parseWithin_succ, parseWithin_succ]
    congr 1
    funext name fault
    simp only [within]
    cases defined : definitions.get? name with
    | none => rfl
    | some body =>
      dsimp only
      split
      · rfl
      · rename_i apart
        exact ih (h.cons defined apart) (h'.cons defined apart)

/-! ## Replacement -/

/-- The text with a token of it replaced by another text in parentheses. -/
def inlined (source : String) (l : Located) (body : String) : String :=
  String.ofList (source.toList.take l.start ++ '(' :: (body.toList ++ ')' :: source.toList.drop l.stop))

/-- A reference may be replaced by the text that its name stands for. -/
theorem parse_inlined (h : parse definitions source = .ok r) {l : Located}
    (mem : l ∈ (scan 0 source.toList).1) (reference : l.token = .reference name)
    (defined : definitions.get? name = some body) :
    parse definitions (inlined source l body) = .ok r := by
  obtain ⟨located, first, scanned, runs, rfl⟩ := (parseWith_eq_ok (gives_within _ _ _)).1 h
  rw [scanned] at mem
  obtain ⟨front, back, rfl⟩ := List.append_of_mem mem
  obtain ⟨before, text, behind, same, cut, -, cut', start, stop⟩ := exists_cuts_around scanned
  rw [List.map_append, List.map_cons, reference] at runs
  obtain ⟨ls, runs, runs'⟩ := runs.split
  cases runs' with
  | cons taken runs' =>
    cases taken with
    | @reference _ x known i os =>
      have expanded := ((referent_eq_some defined).1 known).2
      have alone : parse definitions body = .ok x :=
        parseWithin_mono expanded (Nat.le_succ _) (List.nil_subset _)
      obtain ⟨ts, l', cut_body, runs_body, rfl⟩ := exists_cuts_of_parse alone
      refine parse_of_cuts ?_ (runs.append ((runs_body.group i os).append runs'))
      have front_eq : source.toList.take l.start = before := by
        rw [same, start, Nat.zero_add, List.take_left]
      have back_eq : source.toList.drop l.stop = behind := by
        rw [same, stop, start, Nat.zero_add, ← List.drop_drop, List.drop_left, List.drop_left]
      rw [inlined, String.toList_ofList, front_eq, back_eq]
      have cuts := cut.append (cut_body.group.append cut')
      rw [List.cons_append, List.append_assoc] at cuts
      exact cuts

/-- Names of two letters, with the letters under a name of their own. -/
def initials : OrderedMap String String := .ofList [("letter", "[a-z]"), ("pair", "{letter}{letter}")]

theorem allWellFormed_initials : AllWellFormed initials := by
  intro name body defined
  have mem : (name, body) ∈ [("letter", "[a-z]"), ("pair", "{letter}{letter}")] :=
    OrderedMap.mem_toList.2 defined
  rcases List.mem_cons.1 mem with same | mem
  · obtain ⟨-, rfl⟩ := Prod.mk.inj same
    exact ⟨_, by with_unfolding_all rfl⟩
  · obtain ⟨-, rfl⟩ := Prod.mk.inj (List.mem_singleton.1 mem)
    exact ⟨_, by with_unfolding_all rfl⟩

end ParserGenerator.Regex
