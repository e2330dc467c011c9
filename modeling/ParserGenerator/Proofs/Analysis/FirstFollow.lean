import ParserGenerator.Analysis.FirstFollow
import ParserGenerator.Proofs.Analysis.Nullable
import ParserGenerator.Proofs.Collection.OrderedSet
import ParserGenerator.Proofs.Collection.Worklist
import ParserGenerator.Proofs.Grammar.Coherent
import Mathlib.Algebra.Order.BigOperators.Group.List
import Mathlib.Algebra.Order.Ring.Nat
import Mathlib.Data.List.TakeWhile

/-!
# FIRST and FOLLOW hold what they must

Passes over the productions only add members, and every member is justified by the productions. So the
passes end behind one that changed nothing, and then the sets obey the rules that the passes enforce.
FOLLOW holds exactly what can stand behind a nonterminal by these rules.
-/

namespace ParserGenerator.Grammar

open Build

variable {g : Grammar} {marker start : Int}

/-! ## The measure -/

theorem length_filter_lt {α : Type} {p q : α → Bool} {as : List α} (weaker : ∀ a, q a = true → p a = true)
    {a : α} (mem : a ∈ as) (dropped : p a = true) (out : q a = false) :
    (as.filter q).length < (as.filter p).length := by
  have narrowed : (as.filter p).filter q = as.filter q := by
    rw [List.filter_filter]
    refine List.filter_congr fun b _ => ?_
    cases qb : q b with
    | false => simp
    | true => simp [weaker b qb]
  rw [← narrowed, List.length_filter_lt_length_iff_exists]
  exact ⟨a, List.mem_filter.2 ⟨mem, dropped⟩, by simp [out]⟩

theorem openPairs_eq (ids : List Int) (sets : Int → TerminalSet) :
    openPairs ids sets = (ids.map fun a => (ids.filter fun t => t ∉ sets a).length).sum := by
  rw [openPairs, List.sum_eq_foldl]

/-- A new member closes a pair. -/
theorem openPairs_lt {ids : List Int} {sets sets' : Int → TerminalSet}
    (grown : ∀ a t, t ∈ sets a → t ∈ sets' a) {a t : Int} (ha : a ∈ ids) (ht : t ∈ ids)
    (new : t ∈ sets' a) (old : t ∉ sets a) : openPairs ids sets' < openPairs ids sets := by
  have weaker : ∀ a t, Decidable.decide (t ∉ sets' a) = true →
      Decidable.decide (t ∉ sets a) = true := by
    intro a t out
    exact decide_eq_true fun mem => of_decide_eq_true out (grown a t mem)
  rw [openPairs_eq, openPairs_eq]
  apply List.sum_lt_sum
  · intro b _
    rw [← List.countP_eq_length_filter, ← List.countP_eq_length_filter]
    exact List.countP_mono_left fun t _ => weaker b t
  · refine ⟨a, ha, length_filter_lt (weaker a) ht (decide_eq_true old) ?_⟩
    exact decide_eq_false fun out => out new

/-! ## Passes -/

/-- Steps over productions that only add to sets, and only to those that are watched. -/
structure Adds (part : Facts → Int → TerminalSet) (step : Facts → Production → Facts)
    (watched : Production → List Int) (ps : List Production) (I : Facts → Prop) : Prop where
  kept : ∀ {f p}, p ∈ ps → I f → I (step f p)
  grows : ∀ {f p a t}, p ∈ ps → I f → t ∈ part f a → t ∈ part (step f p) a
  frame : ∀ {f p a t}, p ∈ ps → I f → t ∈ part (step f p) a → t ∈ part f a ∨ a ∈ watched p

namespace Adds

variable {part : Facts → Int → TerminalSet} {step : Facts → Production → Facts}
  {watched : Production → List Int} {ps qs : List Production} {I : Facts → Prop} {f : Facts}

theorem fold (adds : Adds part step watched ps I) (among : ∀ p ∈ qs, p ∈ ps) (h : I f) :
    I (qs.foldl step f) ∧ (∀ a t, t ∈ part f a → t ∈ part (qs.foldl step f) a) ∧
      ∀ a t, t ∈ part (qs.foldl step f) a → t ∈ part f a ∨ ∃ p ∈ qs, a ∈ watched p := by
  induction qs generalizing f with
  | nil => exact ⟨h, fun _ _ mem => mem, fun _ _ => .inl⟩
  | cons p qs ih =>
    have head := among p List.mem_cons_self
    obtain ⟨kept, grows, frame⟩ := ih (fun q hq => among q (List.mem_cons_of_mem _ hq))
      (adds.kept head h)
    refine ⟨kept, fun a t mem => grows a t (adds.grows head h mem), fun a t mem => ?_⟩
    rcases frame a t mem with mem | ⟨q, hq, watch⟩
    · exact (adds.frame head h mem).imp_right fun watch => ⟨p, List.mem_cons_self, watch⟩
    · exact .inr ⟨q, List.mem_cons_of_mem _ hq, watch⟩

/-- Each production is taken up at some point of the pass. -/
theorem visits (adds : Adds part step watched ps I) (among : ∀ p ∈ qs, p ∈ ps) (h : I f)
    {p : Production} (mem : p ∈ qs) :
    ∃ f', I f' ∧ (∀ a t, t ∈ part f a → t ∈ part f' a) ∧
      ∀ a t, t ∈ part (step f' p) a → t ∈ part (qs.foldl step f) a := by
  induction qs generalizing f with
  | nil => cases mem
  | cons q qs ih =>
    have head := among q List.mem_cons_self
    have tail : ∀ p ∈ qs, p ∈ ps := fun p hp => among p (List.mem_cons_of_mem _ hp)
    rcases List.mem_cons.1 mem with rfl | mem
    · exact ⟨f, h, fun _ _ mem => mem, (adds.fold tail (adds.kept head h)).2.1⟩
    · obtain ⟨f', kept, before, behind⟩ := ih tail (adds.kept head h) mem
      exact ⟨f', kept, fun a t mem => before a t (adds.grows head h mem), behind⟩

/-- Behind a pass in which no watched set grew, all sets are as they were, at every point of the pass. -/
theorem settled (adds : Adds part step watched ps I) (h : I f)
    (still : ∀ p ∈ ps, ∀ a ∈ watched p,
      ¬ (part f a).size < (part (ps.foldl step f) a).size) {p : Production} (mem : p ∈ ps) :
    ∃ f', I f' ∧ (∀ a t, t ∈ part (ps.foldl step f) a → t ∈ part f' a) ∧
      ∀ a t, t ∈ part (step f' p) a → t ∈ part (ps.foldl step f) a := by
  obtain ⟨-, grows, frame⟩ := adds.fold (fun _ hp => hp) h
  have same : ∀ a t, t ∈ part (ps.foldl step f) a → t ∈ part f a := by
    intro a t mem
    rcases frame a t mem with mem | ⟨p, hp, watch⟩
    · exact mem
    · exact OrderedSet.subset_of_size_le (grows a) (Nat.not_lt.1 (still p hp a watch)) t mem
  obtain ⟨f', kept, before, behind⟩ := adds.visits (fun _ hp => hp) h mem
  exact ⟨f', kept, fun a t mem => before a t (same a t mem), behind⟩

/-- A pass in which a watched set grew closes a pair. -/
theorem falls (adds : Adds part step watched ps I) (h : I f) {ids : List Int}
    (members : ∀ f, I f → ∀ a t, t ∈ part f a → t ∈ ids)
    (watchedIds : ∀ p ∈ ps, ∀ a ∈ watched p, a ∈ ids) {p : Production} (mem : p ∈ ps) {a : Int}
    (watch : a ∈ watched p) (grew : (part f a).size < (part (ps.foldl step f) a).size) :
    openPairs ids (part (ps.foldl step f)) < openPairs ids (part f) := by
  obtain ⟨kept, grows, -⟩ := adds.fold (fun _ hp => hp) h
  obtain ⟨t, new, old⟩ := OrderedSet.exists_of_size_lt grew
  exact openPairs_lt grows (watchedIds p mem a watch) (members _ kept a t new) new old

end Adds

/-! ## Sets of facts -/

section Sets

variable {f f' : Facts} {a id t : Int} {s : TerminalSet} {γ : List Int}

theorem mem_getD_insert_union {m : IdMap TerminalSet} :
    t ∈ (m.insert id ((m.getD id ∅).union s)).getD a ∅ ↔ t ∈ m.getD a ∅ ∨ a = id ∧ t ∈ s := by
  rw [IdMap.getD, IdMap.get?_insert]
  by_cases same : id = a
  · subst same
    rw [if_pos rfl, Option.getD_some, OrderedSet.mem_union, and_iff_right rfl]
  · rw [if_neg same, or_iff_left fun added => same added.1.symm]
    rfl

@[simp] theorem mem_addFirst :
    t ∈ (f.addFirst id s).firstOf a ↔ t ∈ f.firstOf a ∨ a = id ∧ t ∈ s := mem_getD_insert_union

@[simp] theorem mem_addFollow :
    t ∈ (f.addFollow id s).followOf a ↔ t ∈ f.followOf a ∨ a = id ∧ t ∈ s := mem_getD_insert_union

theorem firstOfSequence_mono (nullable : f'.nullable = f.nullable)
    (grown : ∀ a t, t ∈ f.firstOf a → t ∈ f'.firstOf a) :
    (∀ t ∈ (f.firstOfSequence γ).1, t ∈ (f'.firstOfSequence γ).1) ∧
      (f'.firstOfSequence γ).2 = (f.firstOfSequence γ).2 := by
  induction γ with
  | nil => exact ⟨fun _ mem => mem, rfl⟩
  | cons id γ ih =>
    have same : f'.isNullable id = f.isNullable id := by rw [Facts.isNullable, nullable]; rfl
    rw [Facts.firstOfSequence, Facts.firstOfSequence, same]
    split
    · refine ⟨fun t mem => ?_, ih.2⟩
      rcases OrderedSet.mem_union.1 mem with own | rest
      · exact OrderedSet.mem_union.2 (.inl (grown id t own))
      · exact OrderedSet.mem_union.2 (.inr (ih.1 t rest))
    · exact ⟨grown id, rfl⟩

theorem firstOfSequence_congr (nullable : f'.nullable = f.nullable) (first : f'.first = f.first) :
    f'.firstOfSequence γ = f.firstOfSequence γ := by
  induction γ with
  | nil => rfl
  | cons id γ ih =>
    have answer : f'.isNullable id = f.isNullable id := by rw [Facts.isNullable, nullable]; rfl
    have set : f'.firstOf id = f.firstOf id := by rw [Facts.firstOf, first]; rfl
    rw [Facts.firstOfSequence, Facts.firstOfSequence, answer, set, ih]

/-- What is found to begin a sequence begins it, if what is found to begin its symbols does. -/
theorem begins_of_mem_firstOfSequence (truthful : g.Truthful f.nullable)
    (justified : ∀ {a t}, t ∈ f.firstOf a → g.Begins [a] t) (mem : t ∈ (f.firstOfSequence γ).1) :
    g.Begins γ t := by
  induction γ with
  | nil => exact absurd mem (OrderedSet.not_mem_empty t)
  | cons id γ ih =>
    rw [Facts.firstOfSequence] at mem
    split at mem
    · rename_i nullable
      rcases OrderedSet.mem_union.1 mem with own | rest
      · exact (justified own).append_right γ
      · exact .skip ((truthful (isNullable_iff.1 nullable)).1 rfl) (ih rest)
    · exact (justified mem).append_right γ

theorem vanish_of_firstOfSequence (truthful : g.Truthful f.nullable)
    (vanishes : (f.firstOfSequence γ).2 = true) : ∀ id ∈ γ, g.Vanishes id := by
  induction γ with
  | nil => exact nofun
  | cons id γ ih =>
    rw [Facts.firstOfSequence] at vanishes
    split at vanishes
    · rename_i nullable
      exact List.forall_mem_cons.2 ⟨(truthful (isNullable_iff.1 nullable)).1 rfl, ih vanishes⟩
    · cases vanishes

theorem firstOfSequence_vanishes (answered : g.Answered f.nullable) (vanish : ∀ id ∈ γ, g.Vanishes id)
    (registered : ∀ id ∈ γ, ∃ s, g.symbols.at? id = some s) :
    (f.firstOfSequence γ).2 = true := by
  induction γ with
  | nil => rfl
  | cons id γ ih =>
    have nullable : f.isNullable id = true := by
      obtain ⟨s, at_s⟩ := registered id List.mem_cons_self
      obtain ⟨b, hb⟩ := answered.total at_s
      rw [isNullable_iff, hb, (answered.truthful hb).2 (vanish id List.mem_cons_self)]
    rw [Facts.firstOfSequence, if_pos nullable]
    exact ih (fun x hx => vanish x (List.mem_cons_of_mem _ hx))
      fun x hx => registered x (List.mem_cons_of_mem _ hx)

end Sets

/-! ## FIRST -/

/-- The grammar with the given facts. -/
def having (g : Grammar) (f : Facts) : Grammar := { g with facts := f }

/-- Facts in which FIRST holds only what begins its symbol, and every symbol that can be read begins
itself. -/
structure Seeded (g : Grammar) (f₀ f : Facts) : Prop where
  nullable : f.nullable = f₀.nullable
  follow : f.follow = f₀.follow
  members : ∀ {a t}, t ∈ f.firstOf a → g.Begins [a] t
  seeds : ∀ {t}, g.isInput t = true → t ∈ f.firstOf t

/-- FIRST obeys what the productions show. -/
def FirstClosed (g : Grammar) (f : Facts) : Prop :=
  ∀ {n p}, g.byNumber.get? n = some p → ∀ t ∈ (f.firstOfSequence p.right).1, t ∈ f.firstOf p.left

theorem Seeded.mem_of_begins {f₀ f : Facts} (seeded : g.Seeded f₀ f) (closed : g.FirstClosed f)
    (answered : g.Answered f.nullable) {γ : List Int} {t : Int}
    (registered : ∀ id ∈ γ, ∃ s, g.symbols.at? id = some s) (sound : g.Lawful)
    (begins : g.Begins γ t) : t ∈ (f.firstOfSequence γ).1 := by
  -- What begins the first symbol begins the sequence.
  have head : ∀ {id α}, t ∈ f.firstOf id → t ∈ (f.firstOfSequence (id :: α)).1 := by
    intro id α mem
    rw [Facts.firstOfSequence]
    split
    · exact OrderedSet.mem_union.2 (.inl mem)
    · exact mem
  induction begins with
  | read input => exact head (seeded.seeds input)
  | skip vanishes _ ih =>
    rename_i id t α _
    obtain ⟨⟨s, at_s⟩, rest⟩ := List.forall_mem_cons.1 registered
    obtain ⟨b, hb⟩ := answered.total at_s
    have nullable : f.isNullable id = true := by
      rw [isNullable_iff, hb, (answered.truthful hb).2 vanishes]
    rw [Facts.firstOfSequence, if_pos nullable]
    exact OrderedSet.mem_union.2 (.inr (ih rest head))
  | rule hp _ ih =>
    have right := ih (fun id mem => (sound.right hp id mem).2) head
    exact head (closed hp _ right)

/-- Closed FIRST sets hold exactly what begins their symbols. -/
theorem Seeded.mem_firstOf {f₀ f : Facts} (seeded : g.Seeded f₀ f) (closed : g.FirstClosed f)
    (answered : g.Answered f.nullable) (sound : g.Lawful) {a t : Int}
    (registered : ∃ s, g.symbols.at? a = some s) : t ∈ f.firstOf a ↔ g.Begins [a] t := by
  refine ⟨seeded.members, fun begins => ?_⟩
  have mem := seeded.mem_of_begins closed answered (by simpa using registered) sound begins
  rw [Facts.firstOfSequence] at mem
  split at mem
  · exact (OrderedSet.mem_union.1 mem).resolve_right (OrderedSet.not_mem_empty t)
  · exact mem

theorem Settled.seeded_foldl (settled : g.Settled marker start) {f : Facts} (empty : f.first = ∅) :
    g.Seeded f (g.symbols.symbols.foldl seedFirst f) := by
  have seeds : ∀ (ss : List Symbol) (h : Facts), (∀ s ∈ ss, g.symbols.at? s.id = some s) →
      (∀ {a t}, t ∈ h.firstOf a → g.Begins [a] t) →
      (ss.foldl seedFirst h).nullable = h.nullable ∧ (ss.foldl seedFirst h).follow = h.follow ∧
      (∀ {a t}, t ∈ (ss.foldl seedFirst h).firstOf a → g.Begins [a] t) ∧
      (∀ {a t}, t ∈ h.firstOf a → t ∈ (ss.foldl seedFirst h).firstOf a) ∧
      ∀ s ∈ ss, s.isInput = true → s.id ∈ (ss.foldl seedFirst h).firstOf s.id := by
    intro ss
    induction ss with
    | nil => exact fun h _ members => ⟨rfl, rfl, members, id, nofun⟩
    | cons s ss ih =>
      intro h registered members
      obtain ⟨at_s, rest⟩ := List.forall_mem_cons.1 registered
      rw [List.foldl_cons]
      by_cases input : s.isInput = true
      · have seed : seedFirst h s = h.addFirst s.id (OrderedSet.ofList [s.id]) := if_pos input
        obtain ⟨nullable, follow, members', grows, seeds⟩ := ih (seedFirst h s) rest (by
          intro a t mem
          rw [seed, mem_addFirst, OrderedSet.mem_ofList, List.mem_singleton] at mem
          rcases mem with mem | ⟨rfl, rfl⟩
          · exact members mem
          · exact .read (isInput_iff.2 ⟨s, at_s, input⟩))
        have first : s.id ∈ (seedFirst h s).firstOf s.id := by
          rw [seed, mem_addFirst, OrderedSet.mem_ofList]
          exact .inr ⟨rfl, List.mem_cons_self⟩
        refine ⟨nullable.trans (by rw [seed]; rfl), follow.trans (by rw [seed]; rfl), members', ?_,
          List.forall_mem_cons.2 ⟨fun _ => grows first, seeds⟩⟩
        intro a t mem
        exact grows (by rw [seed, mem_addFirst]; exact .inl mem)
      · have seed : seedFirst h s = h := if_neg input
        rw [seed]
        obtain ⟨nullable, follow, members', grows, seeds⟩ := ih h rest members
        exact ⟨nullable, follow, members', grows,
          List.forall_mem_cons.2 ⟨fun yes => absurd yes input, seeds⟩⟩
  have registered : ∀ s ∈ g.symbols.symbols, g.symbols.at? s.id = some s := by
    intro s mem
    obtain ⟨id, at_s⟩ := SymbolTable.mem_symbols.1 mem
    rw [settled.table.id_eq at_s, at_s]
  obtain ⟨nullable, follow, members, -, seeds⟩ := seeds g.symbols.symbols f registered (by
    intro a t mem
    rw [Facts.firstOf, empty] at mem
    exact absurd mem (OrderedSet.not_mem_empty t))
  refine ⟨nullable, follow, members, fun input => ?_⟩
  obtain ⟨s, at_s, input⟩ := isInput_iff.1 input
  have := seeds s (SymbolTable.mem_symbols.2 ⟨_, at_s⟩) input
  rwa [settled.table.id_eq at_s] at this

theorem mem_ids {id : Int} (sound : g.Lawful) : id ∈ g.ids ↔ ∃ s, g.symbols.at? id = some s := by
  rw [ids, List.mem_map]
  constructor
  · rintro ⟨s, mem, rfl⟩
    obtain ⟨id, at_s⟩ := SymbolTable.mem_symbols.1 mem
    exact ⟨s, by rw [sound.table.id_eq at_s, at_s]⟩
  · rintro ⟨s, at_s⟩
    exact ⟨s, SymbolTable.mem_symbols.2 ⟨id, at_s⟩, sound.table.id_eq at_s⟩

theorem mem_ids_of_isInput {t : Int} (sound : g.Lawful) (input : g.isInput t = true) : t ∈ g.ids := by
  obtain ⟨s, at_s, -⟩ := isInput_iff.1 input
  exact (mem_ids sound).2 ⟨s, at_s⟩

theorem adds_widenFirst {f₀ : Facts} (truthful : g.Truthful f₀.nullable) :
    Adds Facts.firstOf widenFirst (fun p => [p.left]) g.sortedProductions (g.Seeded f₀) where
  kept := by
    intro f p listed seeded
    refine ⟨seeded.nullable, seeded.follow, ?_, ?_⟩
    · intro a t mem
      rcases mem_addFirst.1 mem with old | ⟨rfl, new⟩
      · exact seeded.members old
      · obtain ⟨n, hp⟩ := mem_sortedProductions.1 listed
        exact .rule hp (begins_of_mem_firstOfSequence (seeded.nullable ▸ truthful) seeded.members new)
    · exact fun input => mem_addFirst.2 (.inl (seeded.seeds input))
  grows := fun _ _ mem => mem_addFirst.2 (.inl mem)
  frame := by
    intro f p a t _ _ mem
    exact (mem_addFirst.1 mem).imp_right fun own => List.mem_singleton.2 own.1

/-- The passes for FIRST end with sets that obey the productions. -/
theorem Settled.firstClosed_iterate (settled : g.Settled marker start) {f₀ f : Facts}
    (truthful : g.Truthful f₀.nullable) (seeded : g.Seeded f₀ f) :
    ∃ f', iterate (fun f => openPairs g.ids f.firstOf) (firstPass g.sortedProductions) f = f' ∧
      g.Seeded f₀ f' ∧ g.FirstClosed f' := by
  have adds := adds_widenFirst truthful
  have grew : ∀ {f}, (firstPass g.sortedProductions f).2 = true ↔ ∃ p ∈ g.sortedProductions,
      (f.firstOf p.left).size < ((g.sortedProductions.foldl widenFirst f).firstOf p.left).size := by
    intro f
    rw [firstPass, List.any_eq_true]
    simp only [decide_eq_true_eq]
  have falls : ∀ f, g.Seeded f₀ f → (firstPass g.sortedProductions f).2 = true →
      openPairs g.ids (firstPass g.sortedProductions f).1.firstOf < openPairs g.ids f.firstOf := by
    intro f h grown
    obtain ⟨p, hp, size⟩ := grew.1 grown
    refine adds.falls h ?_ ?_ hp List.mem_cons_self size
    · exact fun f h a t mem => mem_ids_of_isInput settled.toLawful (h.members mem).isInput
    · intro q hq a ha
      obtain ⟨n, hn⟩ := mem_sortedProductions.1 hq
      obtain ⟨s, at_s, -⟩ := settled.left hn
      exact (mem_ids settled.toLawful).2 ⟨s, List.mem_singleton.1 ha ▸ at_s⟩
  obtain ⟨last, kept, still, eq⟩ :
      ∃ last, g.Seeded f₀ last ∧ (firstPass g.sortedProductions last).2 = false ∧
        iterate (fun f => openPairs g.ids f.firstOf) (firstPass g.sortedProductions) f =
          (firstPass g.sortedProductions last).1 :=
    iterate_settles (fun f h => (adds.fold (fun _ hp => hp) h).1) falls seeded
  refine ⟨_, eq, (adds.fold (fun _ hp => hp) kept).1, ?_⟩
  intro n p hp t mem
  have still : ∀ p ∈ g.sortedProductions, ∀ a ∈ [p.left], ¬ (last.firstOf a).size <
      ((g.sortedProductions.foldl widenFirst last).firstOf a).size := by
    intro p hp a ha size
    rw [List.mem_singleton.1 ha] at size
    rw [grew.2 ⟨p, hp, size⟩] at still
    cases still
  obtain ⟨f', kept', before, behind⟩ :=
    adds.settled kept still (mem_sortedProductions.2 ⟨n, hp⟩)
  have final := (adds.fold (fun _ hp => hp) kept).1
  apply behind
  have nullable : f'.nullable = (g.sortedProductions.foldl widenFirst last).nullable :=
    kept'.nullable.trans final.nullable.symm
  exact mem_addFirst.2 (.inr ⟨rfl, (firstOfSequence_mono nullable before).1 t mem⟩)

/-! ## FOLLOW -/

/-- The terminal can stand behind the nonterminal, by what the occurrences of nonterminals show. -/
inductive Succeeds (g : Grammar) (start : Int) : Int → Int → Prop
  | ends : Succeeds g start start endMarkerId
  | closes {p : Production} : g.byNumber.get? 0 = some p → Succeeds g start p.left endMarkerId
  | begins {n id t : Int} {p : Production} {α γ : List Int} : g.byNumber.get? n = some p →
      p.right = α ++ id :: γ → g.isNonterminal id = true → g.Begins γ t → Succeeds g start id t
  | passes {n id t : Int} {p : Production} {α γ : List Int} : g.byNumber.get? n = some p →
      p.right = α ++ id :: γ → g.isNonterminal id = true → (∀ x ∈ γ, g.Vanishes x) →
      Succeeds g start p.left t → Succeeds g start id t

theorem isInput_endMarker (sound : g.Lawful) : g.isInput endMarkerId = true :=
  isInput_iff.2 sound.input_endMarker

theorem Succeeds.isInput {a t : Int} (sound : g.Lawful) (h : g.Succeeds start a t) :
    g.isInput t = true := by
  induction h with
  | ends => exact isInput_endMarker sound
  | closes _ => exact isInput_endMarker sound
  | begins _ _ _ begins => exact begins.isInput
  | passes _ _ _ _ _ ih => exact ih

/-- Facts that grew in FOLLOW alone, by what can stand behind its nonterminal. -/
structure Following (g : Grammar) (start : Int) (f₀ f : Facts) : Prop where
  nullable : f.nullable = f₀.nullable
  first : f.first = f₀.first
  seeds : ∀ {a t}, t ∈ f₀.followOf a → t ∈ f.followOf a
  members : ∀ {a t}, t ∈ f.followOf a → g.Succeeds start a t

/-- FOLLOW obeys what the occurrences of nonterminals show. -/
def FollowClosed (g : Grammar) (f : Facts) : Prop :=
  ∀ {n p α id γ}, g.byNumber.get? n = some p → p.right = α ++ id :: γ → g.isNonterminal id = true →
    (∀ t ∈ (f.firstOfSequence γ).1, t ∈ f.followOf id) ∧
    ((f.firstOfSequence γ).2 = true → ∀ t ∈ f.followOf p.left, t ∈ f.followOf id)

/-- The facts behind one occurrence. -/
def occur (isNonterminal : Int → Bool) (left : Int) (f : Facts) (id : Int) (ids : List Int) : Facts :=
  if isNonterminal id then
    let rest := f.firstOfSequence ids
    let f := f.addFollow id rest.1
    if rest.2 then f.addFollow id (f.followOf left) else f
  else f

section Occur

variable {isNonterminal : Int → Bool} {left id a t : Int} {f f₀ : Facts} {ids : List Int}

theorem frame_occur (isNonterminal : Int → Bool) (left : Int) (f : Facts) (id : Int) (ids : List Int) :
    (occur isNonterminal left f id ids).nullable = f.nullable ∧
    (occur isNonterminal left f id ids).first = f.first := by
  rw [occur]
  by_cases nonterminal : isNonterminal id = true
  · rw [if_pos nonterminal]
    by_cases vanishes : (f.firstOfSequence ids).2 = true
    · simp only [if_pos vanishes, Facts.addFollow, and_self]
    · simp only [if_neg vanishes, Facts.addFollow, and_self]
  · simp only [if_neg nonterminal, and_self]

theorem mem_occur : t ∈ (occur isNonterminal left f id ids).followOf a ↔ t ∈ f.followOf a ∨
    isNonterminal id = true ∧ a = id ∧ (t ∈ (f.firstOfSequence ids).1 ∨
      (f.firstOfSequence ids).2 = true ∧ t ∈ f.followOf left) := by
  rw [occur]
  by_cases nonterminal : isNonterminal id = true
  · rw [if_pos nonterminal]
    dsimp only
    by_cases vanishes : (f.firstOfSequence ids).2 = true
    · rw [if_pos vanishes]
      simp only [mem_addFollow, nonterminal, vanishes, true_and]
      constructor
      · rintro ((old | ⟨eq, first⟩) | ⟨eq, old | ⟨-, first⟩⟩)
        exacts [.inl old, .inr ⟨eq, .inl first⟩, .inr ⟨eq, .inr old⟩, .inr ⟨eq, .inl first⟩]
      · rintro (old | ⟨eq, first | old⟩)
        exacts [.inl (.inl old), .inl (.inr ⟨eq, first⟩), .inr ⟨eq, .inl old⟩]
    · rw [if_neg vanishes]
      simp [mem_addFollow, nonterminal, vanishes]
  · simp [nonterminal]

theorem widenFollow_cons : widenFollow isNonterminal left f (id :: ids) =
    widenFollow isNonterminal left (occur isNonterminal left f id ids) ids := rfl

/-- What is known before FOLLOW is computed: answers that are right, and FIRST sets that are justified. -/
structure Grounded (g : Grammar) (f₀ : Facts) : Prop where
  truthful : g.Truthful f₀.nullable
  firsts : ∀ {a t}, t ∈ f₀.firstOf a → g.Begins [a] t

section Widen

variable {n : Int} {p : Production} (hp : g.byNumber.get? n = some p) (grounded : g.Grounded f₀)
  (h : g.Following start f₀ f)
include hp grounded h

theorem Following.occur {α : List Int} (right : p.right = α ++ id :: ids) :
    g.Following start f₀ (occur g.isNonterminal p.left f id ids) where
  nullable := (frame_occur g.isNonterminal p.left f id ids).1.trans h.nullable
  first := (frame_occur g.isNonterminal p.left f id ids).2.trans h.first
  seeds := fun mem => mem_occur.2 (.inl (h.seeds mem))
  members := by
    have truthful : g.Truthful f.nullable := h.nullable ▸ grounded.truthful
    intro a t mem
    rcases mem_occur.1 mem with old | ⟨nonterminal, rfl, first | ⟨vanishes, old⟩⟩
    · exact h.members old
    · refine .begins hp right nonterminal (begins_of_mem_firstOfSequence truthful ?_ first)
      intro a t mem
      rw [Facts.firstOf, h.first] at mem
      exact grounded.firsts mem
    · exact .passes hp right nonterminal (vanish_of_firstOfSequence truthful vanishes) (h.members old)

theorem Following.widen {α : List Int} (right : p.right = α ++ ids) :
    g.Following start f₀ (widenFollow g.isNonterminal p.left f ids) ∧
      (∀ a t, t ∈ f.followOf a → t ∈ (widenFollow g.isNonterminal p.left f ids).followOf a) ∧
      ∀ a t, t ∈ (widenFollow g.isNonterminal p.left f ids).followOf a →
        t ∈ f.followOf a ∨ a ∈ ids := by
  induction ids generalizing f α with
  | nil => exact ⟨h, fun _ _ mem => mem, fun _ _ => .inl⟩
  | cons id ids ih =>
    rw [widenFollow_cons]
    have next : p.right = (α ++ [id]) ++ ids := by rw [right, List.append_assoc]; rfl
    obtain ⟨following, grows, frame⟩ := ih (h.occur hp grounded right) next
    refine ⟨following, fun a t mem => grows a t (mem_occur.2 (.inl mem)), fun a t mem => ?_⟩
    rcases frame a t mem with mem | later
    · rcases mem_occur.1 mem with old | ⟨-, rfl, -⟩
      · exact .inl old
      · exact .inr List.mem_cons_self
    · exact .inr (List.mem_cons_of_mem _ later)

/-- Every occurrence of a nonterminal is taken into account. -/
theorem Following.widen_occurs {δ : List Int} (α : List Int) {γ : List Int}
    (right : p.right = δ ++ (α ++ id :: γ)) (nonterminal : g.isNonterminal id = true) :
    (∀ t ∈ (f.firstOfSequence γ).1,
      t ∈ (widenFollow g.isNonterminal p.left f (α ++ id :: γ)).followOf id) ∧
    ((f.firstOfSequence γ).2 = true → ∀ t ∈ f.followOf p.left,
      t ∈ (widenFollow g.isNonterminal p.left f (α ++ id :: γ)).followOf id) := by
  induction α generalizing f δ with
  | nil =>
    rw [List.nil_append] at right ⊢
    rw [widenFollow_cons]
    have next : p.right = (δ ++ [id]) ++ γ := by rw [right, List.append_assoc]; rfl
    obtain ⟨-, grows, -⟩ := (h.occur hp grounded right).widen hp grounded next
    constructor
    · exact fun t mem => grows id t (mem_occur.2 (.inr ⟨nonterminal, rfl, .inl mem⟩))
    · exact fun vanishes t mem =>
        grows id t (mem_occur.2 (.inr ⟨nonterminal, rfl, .inr ⟨vanishes, mem⟩⟩))
  | cons x α ih =>
    rw [List.cons_append] at right ⊢
    rw [widenFollow_cons]
    have next : p.right = (δ ++ [x]) ++ (α ++ id :: γ) := by rw [right, List.append_assoc]; rfl
    obtain ⟨nullable, first⟩ := frame_occur g.isNonterminal p.left f x (α ++ id :: γ)
    have same : (Grammar.occur g.isNonterminal p.left f x (α ++ id :: γ)).firstOfSequence γ =
        f.firstOfSequence γ := firstOfSequence_congr nullable first
    obtain ⟨begin, last⟩ := ih (h.occur hp grounded right) next
    rw [same] at begin last
    exact ⟨begin, fun vanishes t mem => last vanishes t (mem_occur.2 (.inl mem))⟩

end Widen

end Occur

theorem adds_followPass {f₀ : Facts} (grounded : g.Grounded f₀) :
    Adds Facts.followOf (fun f p => widenFollow g.isNonterminal p.left f p.right) Production.right
      g.sortedProductions (g.Following start f₀) where
  kept := by
    intro f p listed h
    obtain ⟨n, hp⟩ := mem_sortedProductions.1 listed
    exact (h.widen hp grounded (List.nil_append _).symm).1
  grows := by
    intro f p a t listed h mem
    obtain ⟨n, hp⟩ := mem_sortedProductions.1 listed
    exact (h.widen hp grounded (List.nil_append _).symm).2.1 a t mem
  frame := by
    intro f p a t listed h mem
    obtain ⟨n, hp⟩ := mem_sortedProductions.1 listed
    exact (h.widen hp grounded (List.nil_append _).symm).2.2 a t mem

theorem followPass_grew {f : Facts} : (g.followPass g.sortedProductions f).2 = true ↔
    ∃ p ∈ g.sortedProductions, ∃ a ∈ p.right, (f.followOf a).size <
      ((g.followPass g.sortedProductions f).1.followOf a).size := by
  rw [followPass, List.any_eq_true]
  simp only [List.any_eq_true, decide_eq_true_eq]

theorem Following.followPass {f₀ f : Facts} (grounded : g.Grounded f₀) (h : g.Following start f₀ f) :
    g.Following start f₀ (g.followPass g.sortedProductions f).1 :=
  ((adds_followPass grounded).fold (fun _ hp => hp) h).1

/-- A pass in which a set grew closes a pair. -/
theorem Settled.followPass_falls (settled : g.Settled marker start) {f₀ f : Facts} (grounded : g.Grounded f₀)
    (h : g.Following start f₀ f) (grown : (g.followPass g.sortedProductions f).2 = true) :
    openPairs g.ids (g.followPass g.sortedProductions f).1.followOf < openPairs g.ids f.followOf := by
  obtain ⟨p, hp, a, ha, size⟩ := followPass_grew.1 grown
  refine (adds_followPass grounded).falls h ?_ ?_ hp ha size
  · exact fun f h a t mem =>
      mem_ids_of_isInput settled.toLawful ((h.members mem).isInput settled.toLawful)
  · intro q hq a ha
    obtain ⟨n, hn⟩ := mem_sortedProductions.1 hq
    exact (mem_ids settled.toLawful).2 (settled.right hn a ha).2

/-- A pass for FOLLOW that also notes the sizes behind it. -/
def followStep (g : Grammar) (state : Facts × List (List (Int × Nat))) :
    (Facts × List (List (Int × Nat))) × Bool :=
  let next := g.followPass g.sortedProductions state.1
  ((next.1, state.2 ++ [g.followSizes next.1]), next.2)

/-- The passes for FOLLOW end with sets that obey the occurrences. -/
theorem Settled.followClosed_iterate (settled : g.Settled marker start) {f₀ f : Facts}
    (grounded : g.Grounded f₀) (h : g.Following start f₀ f) (sizes : List (List (Int × Nat))) :
    ∃ f' sizes', iterate (fun state => openPairs g.ids state.1.followOf) g.followStep (f, sizes) =
      (f', sizes') ∧ g.Following start f₀ f' ∧ g.FollowClosed f' := by
  have adds : Adds Facts.followOf (fun f p => widenFollow g.isNonterminal p.left f p.right)
      Production.right g.sortedProductions (g.Following start f₀) := adds_followPass grounded
  obtain ⟨last, following, still, eq⟩ :
      ∃ last : Facts × List (List (Int × Nat)), g.Following start f₀ last.1 ∧ (g.followStep last).2 = false ∧
        iterate (fun state => openPairs g.ids state.1.followOf) g.followStep (f, sizes) = (g.followStep last).1 :=
    iterate_settles (I := fun state : Facts × List (List (Int × Nat)) => g.Following start f₀ state.1)
      (fun _ h => h.followPass grounded) (fun _ h => settled.followPass_falls grounded h) h
  refine ⟨(g.followStep last).1.1, (g.followStep last).1.2, eq, following.followPass grounded, ?_⟩
  dsimp only [followStep] at still ⊢
  have quiet : ∀ p ∈ g.sortedProductions, ∀ a ∈ p.right, ¬ (last.1.followOf a).size <
      ((g.followPass g.sortedProductions last.1).1.followOf a).size := by
    intro p hp a ha size
    rw [followPass_grew.2 ⟨p, hp, a, ha, size⟩] at still
    cases still
  intro n p α id γ hp right nonterminal
  obtain ⟨f', following', before, behind⟩ :=
    adds.settled following quiet (mem_sortedProductions.2 ⟨n, hp⟩)
  have final := (adds.fold (fun _ hp => hp) following).1
  have same : (g.followPass g.sortedProductions last.1).1.firstOfSequence γ =
      f'.firstOfSequence γ :=
    firstOfSequence_congr (final.nullable.trans following'.nullable.symm)
      (final.first.trans following'.first.symm)
  obtain ⟨begin, vanish⟩ := following'.widen_occurs hp grounded (δ := []) α right nonterminal
  rw [← right] at begin vanish
  rw [same]
  exact ⟨fun t mem => behind id t (begin t mem),
    fun vanishes t mem => behind id t (vanish vanishes t (before p.left t mem))⟩

/-! ## The whole analysis -/

theorem Settled.computeFirst_eq (settled : g.Settled marker start) (f : Facts) :
    computeFirst (g.having f) = .ok () (g.having (iterate (fun f => openPairs g.ids f.firstOf)
      (firstPass g.sortedProductions) (g.symbols.symbols.foldl seedFirst f))) := by
  have left : ∀ p ∈ g.sortedProductions, (g.symbols.at? p.left).isSome = true := by
    intro p mem
    obtain ⟨n, hn⟩ := mem_sortedProductions.1 mem
    obtain ⟨s, at_s, -⟩ := settled.left hn
    rw [at_s]
    rfl
  have sound : (g.having f).sortedProductions.takeWhile
      (fun p => ((g.having f).symbols.at? p.left).isSome) = g.sortedProductions :=
    List.takeWhile_eq_self_iff.2 left
  have rest : (g.having f).sortedProductions.drop g.sortedProductions.length = [] :=
    List.drop_length
  rw [computeFirst]
  have got : (get : Build Grammar) (g.having f) = .ok (g.having f) (g.having f) := rfl
  refine (bind_of_ok got).trans ?_
  rw [sound, rest]
  rfl

theorem Settled.ends_computeFirst (settled : g.Settled marker start) {f : Facts}
    (truthful : g.Truthful f.nullable) (empty : f.first = ∅) :
    Ends computeFirst (g.having f)
      (fun _ g' => ∃ f', g' = g.having f' ∧ g.Seeded f f' ∧ g.FirstClosed f') (fun _ => False) := by
  obtain ⟨f', eq, seeded, closed⟩ := settled.firstClosed_iterate truthful (settled.seeded_foldl empty)
  rw [Ends, settled.computeFirst_eq]
  exact ⟨f', congrArg g.having eq, seeded, closed⟩

theorem seedFollow_eq {f : Facts} {id : Int} {s : Symbol} (at_s : g.symbols.at? id = some s) :
    seedFollow id (g.having f) =
      .ok () (g.having (f.addFollow id (OrderedSet.ofList [endMarkerId]))) := by
  have registered : (g.having f).symbols.symbol id = .ok s := SymbolTable.symbol_eq_ok at_s
  rw [seedFollow, bind_of_ok (query_of_ok registered)]
  rfl

/-- Facts as the analysis leaves them. -/
structure Analysed (g : Grammar) (start : Int) (f : Facts) : Prop where
  answered : g.Answered f.nullable
  firsts : ∀ {a t}, (∃ s, g.symbols.at? a = some s) → (t ∈ f.firstOf a ↔ g.Begins [a] t)
  ends : endMarkerId ∈ f.followOf start
  closes : ∀ {p}, g.byNumber.get? 0 = some p → endMarkerId ∈ f.followOf p.left
  begins : ∀ {n p α id γ t}, g.byNumber.get? n = some p → p.right = α ++ id :: γ →
    g.isNonterminal id = true → g.Begins γ t → t ∈ f.followOf id
  passes : ∀ {n p α id γ t}, g.byNumber.get? n = some p → p.right = α ++ id :: γ →
    g.isNonterminal id = true → (∀ x ∈ γ, g.Vanishes x) → t ∈ f.followOf p.left → t ∈ f.followOf id
  members : ∀ {a t}, t ∈ f.followOf a → g.Succeeds start a t

/-- FOLLOW holds exactly what can stand behind a nonterminal. -/
theorem Analysed.mem_followOf {f : Facts} {a t : Int} (analysed : g.Analysed start f) :
    t ∈ f.followOf a ↔ g.Succeeds start a t := by
  refine ⟨analysed.members, fun h => ?_⟩
  induction h with
  | ends => exact analysed.ends
  | closes hp => exact analysed.closes hp
  | begins hp right nonterminal begins => exact analysed.begins hp right nonterminal begins
  | passes hp right nonterminal vanish _ ih => exact analysed.passes hp right nonterminal vanish ih

/-- The facts with the end marker behind the start marker and the start symbol. -/
def ended (f : Facts) (marker start : Int) : Facts :=
  (f.addFollow marker (OrderedSet.ofList [endMarkerId])).addFollow start
    (OrderedSet.ofList [endMarkerId])

theorem frame_ended (f : Facts) : (ended f marker start).nullable = f.nullable ∧
    (ended f marker start).first = f.first := by
  simp only [ended, Facts.addFollow, and_self]

theorem mem_ended {f : Facts} {a t : Int} : t ∈ (ended f marker start).followOf a ↔
    t ∈ f.followOf a ∨ t = endMarkerId ∧ (a = marker ∨ a = start) := by
  rw [ended, mem_addFollow, mem_addFollow, OrderedSet.mem_ofList, List.mem_singleton]
  constructor
  · rintro ((old | ⟨place, eq⟩) | ⟨place, eq⟩)
    exacts [.inl old, .inr ⟨eq, .inl place⟩, .inr ⟨eq, .inr place⟩]
  · rintro (old | ⟨eq, place | place⟩)
    exacts [.inl (.inl old), .inl (.inr ⟨place, eq⟩), .inr ⟨place, eq⟩]

theorem Settled.following_ended (settled : g.Settled marker start) {f : Facts}
    (empty : f.follow = ∅) : g.Following start (ended f marker start) (ended f marker start) := by
  refine ⟨rfl, rfl, id, ?_⟩
  intro a t mem
  rcases mem_ended.1 mem with mem | ⟨rfl, rfl | rfl⟩
  · rw [Facts.followOf, empty] at mem
    exact absurd mem (OrderedSet.not_mem_empty t)
  · exact .closes settled.zero
  · exact .ends

theorem Settled.idOfStart_eq (settled : g.Settled marker start) (f : Facts) :
    (g.having f).idOfStart = .ok start := settled.idOf_start

theorem Settled.computeFollow_eq (settled : g.Settled marker start) (f : Facts) {f' : Facts}
    {passes : List (List (Int × Nat))}
    (passed : iterate (fun state => openPairs g.ids state.1.followOf) g.followStep (ended f marker start, []) =
      (f', passes)) : computeFollow (g.having f) = .ok passes (g.having f') := by
  obtain ⟨m, at_m, -⟩ := settled.marker_name
  obtain ⟨s, -, at_s, -⟩ := settled.start_name
  have marker_id : (g.having f).idOfStartMarker = .ok marker := settled.idOf_marker
  rw [computeFollow]
  refine (bind_of_ok (query_of_ok marker_id)).trans ((bind_of_ok (seedFollow_eq at_m)).trans ?_)
  refine (bind_of_ok (query_of_ok (settled.idOfStart_eq _))).trans ((bind_of_ok (seedFollow_eq at_s)).trans ?_)
  show (fun r : Facts × List (List (Int × Nat)) =>
      (do setFacts r.1; return r.2 : Build (List (List (Int × Nat)))))
    (iterate (fun state => openPairs g.ids state.1.followOf) g.followStep (ended f marker start, [])) _ = _
  rw [passed]
  rfl

/-- Facts that obey what the productions show, and hold nothing else, are those of an analysis. -/
theorem Settled.analysed (settled : g.Settled marker start) {f₀ f f' : Facts}
    (answered : g.Answered f₀.nullable) (seeded : g.Seeded f₀ f) (closed : g.FirstClosed f)
    (following : g.Following start (ended f marker start) f') (followed : g.FollowClosed f') :
    g.Analysed start f' := by
  have first : f'.first = f.first := following.first.trans (frame_ended f).2
  have nullable : f'.nullable = f.nullable := following.nullable.trans (frame_ended f).1
  have answered : g.Answered f.nullable := seeded.nullable ▸ answered
  have sequence : ∀ {γ}, f'.firstOfSequence γ = f.firstOfSequence γ := firstOfSequence_congr nullable first
  have registered : ∀ {n p α id γ}, g.byNumber.get? n = some p → p.right = α ++ id :: γ →
      ∀ x ∈ γ, ∃ s, g.symbols.at? x = some s := by
    intro n p α id γ hp right x hx
    exact (settled.right hp x (by rw [right]; simp [hx])).2
  exact {
    answered := nullable ▸ answered
    firsts := by
      intro a t registered
      rw [Facts.firstOf, first]
      exact seeded.mem_firstOf closed answered settled.toLawful registered
    ends := following.seeds (mem_ended.2 (.inr ⟨rfl, .inr rfl⟩))
    closes := by
      intro p hp
      rw [settled.zero] at hp
      cases hp
      exact following.seeds (mem_ended.2 (.inr ⟨rfl, .inl rfl⟩))
    begins := by
      intro n p α id γ t hp right nonterminal begins
      apply (followed hp right nonterminal).1
      rw [sequence]
      exact seeded.mem_of_begins closed answered (registered hp right) settled.toLawful begins
    passes := by
      intro n p α id γ t hp right nonterminal vanish mem
      exact (followed hp right nonterminal).2
        (firstOfSequence_vanishes (nullable ▸ answered) vanish (registered hp right)) t mem
    members := following.members }

theorem Settled.ends_computeFollow (settled : g.Settled marker start) {f₀ f : Facts}
    (answered : g.Answered f₀.nullable) (empty : f₀.follow = ∅) (seeded : g.Seeded f₀ f)
    (closed : g.FirstClosed f) :
    Ends computeFollow (g.having f) (fun _ g' => ∃ f', g' = g.having f' ∧ g.Analysed start f')
      (fun _ => False) := by
  have grounded : g.Grounded (ended f marker start) := by
    refine ⟨?_, fun {a t} mem => ?_⟩
    · rw [(frame_ended f).1, seeded.nullable]
      exact answered.truthful
    · rw [Facts.firstOf, (frame_ended f).2] at mem
      exact seeded.members mem
  obtain ⟨f', sizes, eq, following, followed⟩ :=
    settled.followClosed_iterate grounded (settled.following_ended (seeded.follow.trans empty)) []
  rw [Ends, settled.computeFollow_eq f eq]
  exact ⟨f', rfl, settled.analysed answered seeded closed following followed⟩

/-- The analysis of a settled grammar of which nothing was computed succeeds. -/
theorem Settled.ends_analyze (settled : g.Settled marker start) (untouched : g.facts = {}) :
    Ends analyze g (fun _ g' => ∃ f, g' = g.having f ∧ g.Analysed start f) (fun _ => False) := by
  have closed : (!g.closed) = false := by rw [settled.closed]; rfl
  have truthful : g.Truthful g.facts.nullable := by
    intro id b settled
    rw [untouched] at settled
    cases settled
  rw [analyze]
  apply ends_get_bind
  rw [if_neg (by rw [closed]; exact Bool.false_ne_true)]
  apply ends_bind (settled.ends_settleNullable truthful)
  rintro - g' ⟨answers, rfl, answered⟩
  have first : ({ g.facts with nullable := answers } : Facts).first = ∅ := by rw [untouched]
  have follow : ({ g.facts with nullable := answers } : Facts).follow = ∅ := by rw [untouched]
  apply ends_bind (settled.ends_computeFirst answered.truthful first)
  rintro - g' ⟨f, rfl, seeded, firstClosed⟩
  exact settled.ends_computeFollow answered follow seeded firstClosed

end ParserGenerator.Grammar
