import ParserGenerator.Proofs.Grammar.Complaints
import ParserGenerator.Proofs.Grammar.Production

/-!
# Closing a grammar

A grammar that passes all the checks is given its start marker with production 0, and is settled. One that
does not pass stays open.
-/

namespace ParserGenerator.Grammar

open Build
open SymbolTable (Declarable)

variable {g g' : Grammar} {s : Symbol} {name : String} {id start : Int}

theorem Open.with_start (sound : g.Open) (start : Option String) :
    Open { g with start := start } where
  toLawful := ⟨sound.table, sound.kinds, sound.number_eq, sound.left, sound.right, sound.filed⟩
  closed := sound.closed
  frozen := sound.frozen
  unmarked := sound.unmarked
  facts := sound.facts
  numbered := sound.numbered

/-- An open grammar that passed the checks, with the name and identifier of its start
symbol. -/
structure Checked (g : Grammar) (name : String) (start : Int) : Prop extends Open g where
  known : ∀ {id s}, g.symbols.at? id = some s → s.kind ≠ .unknown
  produced : ∀ {id s}, g.symbols.at? id = some s → s.kind = .nonterminal → s.productions ≠ []
  chosen : g.start = some name
  start : ∃ s, g.symbols.at? start = some s ∧ s.name = name ∧ s.kind = .nonterminal

theorem checkSymbol_eq_ok (h : checkSymbol s = .ok ()) :
    s.kind ≠ .unknown ∧
      (s.kind = .nonterminal → s.name ≠ startMarkerName → s.productions ≠ []) := by
  rw [checkSymbol] at h
  by_cases unknown : s.kind = .unknown
  · rw [if_pos unknown] at h
    cases h
  rw [if_neg unknown] at h
  refine ⟨unknown, fun kind plain empty => ?_⟩
  have : s.kind = .nonterminal ∧ s.productions = [] ∧ s.name ≠ startMarkerName :=
    ⟨kind, empty, plain⟩
  simp only [if_pos this] at h
  cases h

theorem Open.checked (sound : g.Open) (chosen : g.start = some name)
    (symbols : g.symbols.symbols.forM checkSymbol = .ok ())
    (start : g.startSymbol name = .ok s) : g.Checked name s.id := by
  have passed : ∀ {id x}, g.symbols.at? id = some x → checkSymbol x = .ok () :=
    fun at_x => Attempt.forM_eq_ok.1 symbols _ (SymbolTable.mem_symbols.2 ⟨_, at_x⟩)
  have plain := SymbolTable.find?_eq_none.1 sound.unmarked
  refine ⟨sound, fun at_x => (checkSymbol_eq_ok (passed at_x)).1,
    fun at_x kind => (checkSymbol_eq_ok (passed at_x)).2 kind (plain _ _ at_x), chosen, ?_⟩
  rw [startSymbol] at start
  split at start
  · rename_i x found
    split at start
    · cases start
      obtain ⟨at_x, named⟩ := sound.table.get?_eq_some.1 found
      exact ⟨_, at_x, named, by assumption⟩
    · cases start
  · cases start

/-- Of a grammar that passed the checks there is nothing to complain. -/
theorem Checked.not_complaint (checked : g.Checked name start) {e : Error} : ¬ g.Complaint e := by
  rintro (none_chosen | ⟨-, at_s, unknown⟩ | ⟨at_s, nonterminal, without⟩ | ⟨chosen, other⟩)
  · simp [checked.chosen] at none_chosen
  · exact checked.known at_s unknown
  · exact checked.produced at_s nonterminal without
  · obtain ⟨s, at_s, named, kind⟩ := checked.start
    rw [checked.chosen, Option.some_inj] at chosen
    subst chosen
    have found := checked.table.get?_eq_some.2 ⟨(checked.table.id_eq at_s).symm ▸ at_s, named⟩
    exact other s found kind

/-! ## Labels -/

theorem Checked.update (sound : g.Checked name start) {s' : Symbol} (h : g.symbols.at? s'.id = some s)
    (named : s'.name = s.name) (filed : s'.productions = s.productions) (kind : s'.kind = s.kind) :
    Ends (updateSymbol s') g (fun _ g' => g'.Checked name start) (·.Checked name start) := by
  have grown := grows_update sound.table h named filed kind
  have after := sound.table.at?_update h named
  -- A symbol after the update was there before it, with the same name, kind and productions.
  have before : ∀ {id y}, (g.symbols.update s').at? id = some y → ∃ x,
      g.symbols.at? id = some x ∧ y.kind = x.kind ∧ y.productions = x.productions := by
    intro id y at_y
    rw [after] at at_y
    split at at_y
    · rename_i place
      cases at_y
      exact ⟨s, place ▸ h, kind, filed⟩
    · exact ⟨y, at_y, rfl, rfl⟩
  apply ends_modify
  refine ⟨grown.open_of_open sound.toOpen, ?_, ?_, sound.chosen, ?_⟩
  · intro id y at_y
    obtain ⟨x, at_x, same, -⟩ := before at_y
    rw [same]
    exact sound.known at_x
  · intro id y at_y nonterminal
    obtain ⟨x, at_x, same, productions⟩ := before at_y
    rw [productions]
    exact sound.produced at_x (same ▸ nonterminal)
  · obtain ⟨x, at_x, named_x, kind_x⟩ := sound.start
    obtain ⟨y, at_y, same, kind_y⟩ := grown.keeps at_x (sound.known at_x)
    exact ⟨y, at_y, same.trans named_x, kind_y.trans kind_x⟩

/-- A terminal that has the name of the label has its precedence. -/
def Bears (g : Grammar) (label : String × Precedence) : Prop :=
  ∀ s ∈ g.symbols.get? label.1, s.kind = .terminal → s.precedence = some label.2

instance (label : String × Precedence) : Decidable (g.Bears label) :=
  inferInstanceAs (Decidable (∀ s ∈ g.symbols.get? label.1, s.kind = .terminal →
    s.precedence = some label.2))

/-- Every terminal has the precedence that was declared for its name. -/
def Labelled (g : Grammar) : Prop := ∀ label ∈ g.labels.toList, g.Bears label

instance : Decidable g.Labelled :=
  inferInstanceAs (Decidable (∀ label ∈ g.labels.toList, g.Bears label))

theorem bears_iff (seated : g.symbols.Seated) {label : String × Precedence} :
    g.Bears label ↔ ∀ s, g.symbols.at? s.id = some s → s.name = label.1 → s.kind = .terminal →
      s.precedence = some label.2 := by
  constructor
  · exact fun bears s at_s named => bears s (seated.get?_eq_some.2 ⟨at_s, named⟩)
  · intro bears s found
    obtain ⟨at_s, named⟩ := seated.get?_eq_some.1 found
    exact bears s at_s named

section

-- A property that is kept where a symbol is replaced by one of the same name, productions and kind.
variable (kept : Grammar → Prop) (seated : ∀ {g}, kept g → g.symbols.Seated)
  (update : ∀ {g s s'}, kept g → g.symbols.at? s'.id = some s → s'.name = s.name →
    s'.productions = s.productions → s'.kind = s.kind → kept { g with symbols := g.symbols.update s' })
include seated update

theorem ends_applyLabel (h : kept g) (label : String × Precedence) :
    Ends (applyLabel label) g
      (fun _ g' => kept g' ∧ g'.labels = g.labels ∧ g'.Bears label ∧
        ∀ other : String × Precedence, other.1 ≠ label.1 → g.Bears other → g'.Bears other) kept := by
  rw [applyLabel]
  apply ends_get_bind
  cases found : g.symbols.get? label.1 with
  | none =>
    refine ends_pure ⟨h, rfl, ?_, fun _ _ bears => bears⟩
    intro s found'
    rw [found] at found'
    cases found'
  | some s =>
    obtain ⟨at_s, named⟩ := (seated h).get?_eq_some.1 found
    by_cases terminal : s.kind = .terminal
    · simp only [if_pos terminal]
      let s' : Symbol := { s with precedence := some label.2 }
      have updated : kept { g with symbols := g.symbols.update s' } := update h at_s rfl rfl rfl
      have after : ∀ id, (g.symbols.update s').at? id = if id = s'.id then some s' else _ :=
        (seated h).at?_update at_s rfl
      refine ends_modify ⟨updated, rfl, ?_, ?_⟩
      · rw [bears_iff (seated updated)]
        intro x at_x same _
        rw [after] at at_x
        by_cases place : x.id = s'.id
        · rw [if_pos place] at at_x
          cases at_x
          rfl
        · rw [if_neg place] at at_x
          exact absurd ((seated h).name_inj at_x at_s (same.trans named.symm)) place
      · intro other ne bears
        rw [bears_iff (seated h)] at bears
        rw [bears_iff (seated updated)]
        intro x at_x same kind
        rw [after] at at_x
        by_cases place : x.id = s'.id
        · rw [if_pos place] at at_x
          cases at_x
          exact absurd (same.symm.trans named) ne
        · rw [if_neg place] at at_x
          exact bears x at_x same kind
    · simp only [if_neg terminal]
      refine ends_pure ⟨h, rfl, ?_, fun _ _ bears => bears⟩
      intro x found' kind
      rw [found] at found'
      cases found'
      exact absurd kind terminal

theorem ends_applyLabels_keeping {labels : List (String × Precedence)}
    (distinct : (labels.map Prod.fst).Nodup) (h : kept g) :
    Ends (labels.forM applyLabel) g
      (fun _ g' => kept g' ∧ g'.labels = g.labels ∧ (∀ label ∈ labels, g'.Bears label) ∧
        ∀ other : String × Precedence, other.1 ∉ labels.map Prod.fst → g.Bears other → g'.Bears other)
      kept := by
  induction labels generalizing g with
  | nil => exact ends_pure ⟨h, rfl, by simp, fun _ _ bears => bears⟩
  | cons label labels ih =>
    rw [List.map_cons, List.nodup_cons] at distinct
    apply ends_bind (ends_applyLabel kept seated update h label)
    rintro - g₁ ⟨h₁, labels₁, bears₁, kept₁⟩
    refine (ih distinct.2 h₁).mono ?_ fun _ h => h
    rintro - g₂ ⟨h₂, labels₂, bears₂, kept₂⟩
    refine ⟨h₂, labels₂.trans labels₁, ?_, ?_⟩
    · rintro other (_ | ⟨_, tail⟩)
      · exact kept₂ label distinct.1 bears₁
      · exact bears₂ other tail
    · intro other absent bears
      rw [List.map_cons, List.mem_cons, not_or] at absent
      exact kept₂ other absent.2 (kept₁ other absent.1 bears)

end

theorem ends_applyLabels {labels : List (String × Precedence)} (distinct : (labels.map Prod.fst).Nodup)
    (sound : g.Checked name start) :
    Ends (labels.forM applyLabel) g
      (fun _ g' => g'.Checked name start ∧ g.Grows g' ∧ g'.labels = g.labels ∧
        (∀ label ∈ labels, g'.Bears label) ∧
        ∀ other : String × Precedence, other.1 ∉ labels.map Prod.fst → g.Bears other → g'.Bears other)
      (·.Checked name start) := by
  have update : ∀ {h : Grammar} {s s' : Symbol}, h.Checked name start ∧ g.Grows h →
      h.symbols.at? s'.id = some s → s'.name = s.name → s'.productions = s.productions →
      s'.kind = s.kind → Checked { h with symbols := h.symbols.update s' } name start ∧
        g.Grows { h with symbols := h.symbols.update s' } := by
    intro h s s' ⟨checked, grown⟩ at_s named filed kind
    have updated : Ends (updateSymbol s') h _ _ := checked.update at_s named filed kind
    exact ⟨updated, grown.trans (grows_update checked.table at_s named filed kind)⟩
  have applied := ends_applyLabels_keeping (fun h => h.Checked name start ∧ g.Grows h)
    (fun h => h.1.table.seated) update distinct ⟨sound, .refl sound.table⟩
  exact applied.mono (fun _ _ ⟨⟨checked, grown⟩, rest⟩ => ⟨checked, grown, rest⟩) fun _ h => h.1

theorem exists_applyLabel (g : Grammar) (label : String × Precedence) :
    ∃ g', applyLabel label g = .ok () g' := by
  cases found : g.symbols.get? label.1 with
  | none =>
    refine ⟨g, bind_eq_ok.2 ⟨g, g, rfl, ?_⟩⟩
    rw [found]
    rfl
  | some s =>
    by_cases terminal : s.kind = .terminal
    · refine ⟨{ g with symbols := g.symbols.update { s with precedence := some label.2 } },
        bind_eq_ok.2 ⟨g, g, rfl, ?_⟩⟩
      rw [found]
      simp only [if_pos terminal]
      rfl
    · refine ⟨g, bind_eq_ok.2 ⟨g, g, rfl, ?_⟩⟩
      rw [found]
      simp only [if_neg terminal]
      rfl

theorem exists_applyLabels (g : Grammar) (labels : List (String × Precedence)) :
    ∃ g', labels.forM applyLabel g = .ok () g' := by
  induction labels generalizing g with
  | nil => exact ⟨g, rfl⟩
  | cons label labels ih =>
    obtain ⟨g₁, first⟩ := exists_applyLabel g label
    obtain ⟨g₂, later⟩ := ih g₁
    exact ⟨g₂, (bind_of_ok first).trans later⟩

/-! ## The start marker -/

/-- The start marker as it is registered. -/
def markerOf (g : Grammar) : Symbol :=
  { name := startMarkerName, id := g.symbols.slots.size, kind := .nonterminal }

def withMarker (g : Grammar) : Grammar :=
  { g with symbols := g.symbols.install g.symbols.slots.size g.markerOf }

/-- The grammar with the start marker and production 0. -/
def marked (g : Grammar) (start : Int) : Grammar :=
  g.withMarker.withProduction ⟨0, g.symbols.slots.size, [start], none, none⟩ g.markerOf

/-- The grammar closed with a list of productions. -/
def sealed (g : Grammar) (productions : Array Production) : Grammar :=
  { g with productions := productions, symbols := g.symbols.freeze, closed := true }

theorem Open.get?_zero (sound : g.Open) : g.byNumber.get? 0 = none := by
  obtain ⟨n, -, keys⟩ := sound.numbered
  rw [OrderedMap.get?_eq_none, keys]
  intro mem
  obtain ⟨i, -, eq⟩ := List.mem_map.1 mem
  omega

theorem Open.resolve_marker (sound : g.Open) :
    resolve startMarkerName .nonterminal g = .ok g.markerOf g.withMarker := by
  apply onSymbols_eq
  rw [SymbolTable.resolve, sound.unmarked]
  simp only [sound.frozen]
  rfl

theorem at?_withMarker (g : Grammar) (id : Int) :
    g.withMarker.symbols.at? id =
      if id = g.symbols.slots.size then some g.markerOf else g.symbols.at? id :=
  SymbolTable.at?_install_size _ _ _

theorem Open.withMarker (sound : g.Open) : g.withMarker.Lawful :=
  sound.toLawful.extend (sound.table.install sound.unmarked rfl)
    (SymbolTable.extends_install sound.frozen rfl declarable_nonterminal) rfl

theorem Open.at?_marked (sound : g.Open) (start id : Int) :
    (g.marked start).symbols.at? id =
      if id = g.symbols.slots.size then some { g.markerOf with productions := [0] }
      else g.symbols.at? id := by
  have at_marker : g.withMarker.symbols.at? g.symbols.slots.size = some g.markerOf := by
    rw [at?_withMarker, if_pos rfl]
  rw [marked, sound.withMarker.at?_withProduction at_marker, at?_withMarker]
  split
  · rfl
  · rfl

/-- Registered symbols stay where they are. -/
theorem Open.at?_marked_of_at? (sound : g.Open) (start : Int) (at_s : g.symbols.at? id = some s) :
    (g.marked start).symbols.at? id = some s := by
  rw [sound.at?_marked, if_neg, at_s]
  rintro rfl
  rw [SymbolTable.at?_size] at at_s
  cases at_s

/-- A symbol is the start marker or was registered before. -/
theorem Open.at?_of_at?_marked (sound : g.Open) (start : Int)
    (at_s : (g.marked start).symbols.at? id = some s) :
    s = { g.markerOf with productions := [0] } ∨ g.symbols.at? id = some s := by
  rw [sound.at?_marked] at at_s
  split at at_s
  · exact .inl (Option.some.inj at_s).symm
  · exact .inr at_s

theorem get?_marked (g : Grammar) (start n : Int) :
    (g.marked start).byNumber.get? n =
      if 0 = n then some ⟨0, g.symbols.slots.size, [start], none, none⟩
      else g.byNumber.get? n := OrderedMap.get?_insert

/-- A production is the one of the start marker or was filed before. -/
theorem get?_of_get?_marked (start : Int) {n : Int} {p : Production}
    (hp : (g.marked start).byNumber.get? n = some p) :
    n = 0 ∧ p = ⟨0, g.symbols.slots.size, [start], none, none⟩ ∨ g.byNumber.get? n = some p := by
  rw [get?_marked] at hp
  split at hp
  · exact .inl ⟨Eq.symm ‹_›, (Option.some.inj hp).symm⟩
  · exact .inr hp

theorem Open.lawful_marked (sound : g.Open) {start : Int} (usable : g.Usable start) :
    (g.marked start).Lawful := by
  have absent : g.withMarker.byNumber.get? 0 = none := sound.get?_zero
  have at_marker : g.withMarker.symbols.at? g.symbols.slots.size = some g.markerOf := by
    rw [at?_withMarker, if_pos rfl]
  apply sound.withMarker.withProduction absent at_marker rfl
  intro id hid
  rw [List.mem_singleton.1 hid]
  obtain ⟨other, s, at_s⟩ := usable
  refine ⟨other, s, ?_⟩
  rw [at?_withMarker, if_neg, at_s]
  intro last
  rw [last, SymbolTable.at?_size] at at_s
  cases at_s

/-- Where something is found at every number below a bound, all of it is listed, place by place. -/
theorem getElem?_filterMap_range {α : Type} {f : Nat → Option α} {m : Nat} (found : ∀ i < m, ∃ a, f i = some a) :
    ((List.range m).filterMap f).length = m ∧ ∀ i < m, ((List.range m).filterMap f)[i]? = f i := by
  induction m with
  | zero => exact ⟨rfl, fun i hi => absurd hi (Nat.not_lt_zero i)⟩
  | succ m ih =>
    obtain ⟨length, entries⟩ := ih fun i hi => found i (Nat.lt_succ_of_lt hi)
    obtain ⟨a, last⟩ := found m (Nat.lt_succ_self m)
    have single : [m].filterMap f = [a] := by
      rw [List.filterMap_cons, last]
      rfl
    rw [List.range_succ, List.filterMap_append, single]
    refine ⟨by rw [List.length_append, length]; rfl, fun i hi => ?_⟩
    rcases Nat.lt_succ_iff_lt_or_eq.1 hi with before | rfl
    · rw [List.getElem?_append_left (length.symm ▸ before), entries i before]
    · rw [List.getElem?_append_right (Nat.le_of_eq length), length, Nat.sub_self, last]
      rfl

/-- The productions of consecutive numbers are listed in order. -/
theorem listProductions_eq (complete : ∀ i : Nat, i < g.productionCount →
    ∃ p, g.byNumber.get? i = some p) :
    ∃ ps, g.listProductions = .ok ps ∧ ps.size = g.productionCount ∧
      ∀ i : Nat, i < g.productionCount → ps[i]? = g.byNumber.get? i := by
  obtain ⟨length, entries⟩ := getElem?_filterMap_range complete
  have numbered : ((List.range g.productionCount).map Int.ofNat).filterMap g.byNumber.get? =
      (List.range g.productionCount).filterMap fun i : Nat => g.byNumber.get? i := List.filterMap_map
  refine ⟨((List.range g.productionCount).filterMap fun i : Nat => g.byNumber.get? i).toArray, ?_, ?_, ?_⟩
  · rw [listProductions]
    simp only [numbered, length, List.length_map, List.length_range, if_true]
  · rw [List.size_toArray, length]
  · intro i hi
    rw [List.getElem?_toArray, entries i hi]

/-- The numbers of the productions are those below their count. -/
theorem Open.get?_marked_iff (sound : g.Open) (start n : Int) :
    (∃ p, (g.marked start).byNumber.get? n = some p) ↔
      ∃ i : Nat, n = i ∧ i < (g.marked start).productionCount := by
  obtain ⟨m, -, keys⟩ := sound.numbered
  have counted : (g.marked start).productionCount = m + 1 := by
    have len : g.byNumber.keys.length = m := by rw [keys, List.length_map, List.length_range]
    show ((g.byNumber.insert 0 _).toList).length = m + 1
    rw [OrderedMap.toList_insert sound.get?_zero, List.length_append, ← len, OrderedMap.keys,
      List.length_map]
    rfl
  rw [get?_marked, counted]
  constructor
  · rintro ⟨p, hp⟩
    split at hp
    · rename_i zero
      exact ⟨0, zero.symm, by omega⟩
    · have mem : n ∈ g.byNumber.keys := OrderedMap.mem_keys.2 ⟨p, hp⟩
      rw [keys] at mem
      obtain ⟨i, hi, eq⟩ := List.mem_map.1 mem
      have := List.mem_range.1 hi
      exact ⟨i + 1, by push_cast; omega, by omega⟩
  · rintro ⟨i, rfl, hi⟩
    cases i with
    | zero => exact ⟨_, if_pos rfl⟩
    | succ i =>
      rw [if_neg (by omega)]
      apply OrderedMap.mem_keys.1
      rw [keys]
      exact List.mem_map.2 ⟨i, List.mem_range.2 (by omega), by push_cast; rfl⟩

theorem Checked.settled (sound : g.Checked name start) {ps : Array Production}
    (size : ps.size = (g.marked start).productionCount)
    (listed : ∀ i : Nat, i < (g.marked start).productionCount →
      ps[i]? = (g.marked start).byNumber.get? i) :
    ((g.marked start).sealed ps).Settled g.symbols.slots.size start := by
  obtain ⟨s, at_s, named, kind⟩ := sound.start
  have vacant := SymbolTable.at?_size g.symbols
  have lawful := sound.toOpen.lawful_marked (sound.toLawful.usable at_s (by rw [kind]; decide))
  have at_start : (g.marked start).symbols.at? start = some s := sound.toOpen.at?_marked_of_at? start at_s
  have at_marker := (sound.toOpen.at?_marked start g.symbols.slots.size).trans (if_pos rfl)
  exact {
    table := ⟨lawful.table.id_eq, lawful.table.name_inj, lawful.table.endMarker, lawful.table.dense⟩
    kinds := lawful.kinds
    number_eq := lawful.number_eq
    left := lawful.left
    right := lawful.right
    filed := lawful.filed
    closed := rfl
    frozen := rfl
    known := by
      intro id x at_x
      rcases sound.toOpen.at?_of_at?_marked start at_x with rfl | at_x
      · exact nofun
      · exact sound.known at_x
    listed := by
      intro i
      by_cases inside : i < (g.marked start).productionCount
      · exact listed i inside
      · have absent : (g.marked start).byNumber.get? i = none := by
          rw [Option.eq_none_iff_forall_ne_some]
          intro p hp
          obtain ⟨j, eq, hj⟩ := (sound.toOpen.get?_marked_iff start i).1 ⟨p, hp⟩
          omega
        show ps[i]? = (g.marked start).byNumber.get? i
        rw [absent, Array.getElem?_eq_none (by omega)]
    natural := by
      intro n p hp
      obtain ⟨i, eq, -⟩ := (sound.toOpen.get?_marked_iff start n).1 ⟨p, hp⟩
      exact ⟨i, eq⟩
    counted := size.symm
    ordered := by
      obtain ⟨n, -, keys⟩ := sound.numbered
      refine ⟨n, ?_⟩
      show (g.byNumber.insert 0 _).keys = _
      rw [OrderedMap.keys_insert, if_neg (OrderedMap.get?_eq_none.1 sound.toOpen.get?_zero), keys]
    produced := by
      intro id x at_x nonterminal
      rcases sound.toOpen.at?_of_at?_marked start at_x with rfl | at_x
      · exact nofun
      · exact sound.produced at_x nonterminal
    marker_kind := ⟨_, at_marker, rfl⟩
    marker_name := ⟨_, at_marker, rfl⟩
    start_kind := ⟨s, at_start, kind⟩
    start_name := ⟨s, name, at_start, sound.chosen, named⟩
    zero := (get?_marked g start 0).trans (if_pos rfl)
    marker_left := by
      intro n p hp left
      rcases get?_of_get?_marked start hp with ⟨zero, -⟩ | hp
      · exact zero
      · obtain ⟨x, at_x, -⟩ := sound.left hp
        rw [left, vacant] at at_x
        cases at_x
    marker_right := by
      intro n p hp mem
      rcases get?_of_get?_marked start hp with ⟨-, rfl⟩ | hp
      · rw [← List.mem_singleton.1 mem, vacant] at at_s
        cases at_s
      · obtain ⟨-, x, at_x⟩ := sound.right hp _ mem
        rw [vacant] at at_x
        cases at_x }

/-! ## The whole call -/

/-- A closed grammar of which nothing has been computed yet. -/
def Complete (g : Grammar) : Prop := (∃ marker start, g.Settled marker start) ∧ g.facts = {}

theorem Open.markStart (sound : g.Open) (s : Symbol) :
    markStart s g = .ok () (g.marked s.id) := by
  have absent : g.byNumber.contains 0 = false := by
    rw [OrderedMap.contains, sound.get?_zero]
    rfl
  rw [Grammar.markStart]
  apply bind_eq_ok.2
  refine ⟨g, g, rfl, ?_⟩
  rw [if_pos (by rw [absent]; rfl), bind_of_ok sound.resolve_marker]
  apply register_eq (sound.get?_zero : g.withMarker.byNumber.get? 0 = none)
  exact (at?_withMarker g _).trans (if_pos rfl)

theorem Open.listProductions (sound : g.Open) (start : Int) :
    ∃ ps, (g.marked start).listProductions = .ok ps ∧
      ps.size = (g.marked start).productionCount ∧
      ∀ i : Nat, i < (g.marked start).productionCount →
        ps[i]? = (g.marked start).byNumber.get? i :=
  listProductions_eq fun i hi => (sound.get?_marked_iff start i).2 ⟨i, rfl, hi⟩

/-- A grammar that passed the checks is given the precedences, and the one that this makes is closed. -/
structure ClosedFrom (g g₁ g' : Grammar) : Prop where
  known : ∀ {id s}, g.symbols.at? id = some s → s.kind ≠ .unknown
  grown : g.Grows g₁
  checked : ∃ name start, g₁.Checked name start ∧ ∃ ps, g' = (g₁.marked start).sealed ps
  labelled : g₁.Labelled
  labels : g₁.labels = g.labels
  complete : Complete g'

/-- An open grammar is closed, or the checks complain and it stays as it is. -/
theorem Open.closeOver_cases (sound : g.Open) (chosen : g.start = some name) :
    (∃ g₁ g', closeOver name g = .ok () g' ∧ ClosedFrom g g₁ g') ∨
      ∃ e, closeOver name g = .error e g ∧ g.Complaint e := by
  unfold closeOver
  cases known : g.byNumber.values.forM g.checkKnown with
  | error e =>
    have answers := Attempt.answers_forM fun p mem => sound.answers_checkKnown mem
    exact .inr ⟨e, bind_of_error (query_of_error known), answers.of_error known⟩
  | ok _ =>
  rw [bind_of_ok (query_of_ok known)]
  cases symbols : g.symbols.symbols.forM checkSymbol with
  | error e =>
    have answers := Attempt.answers_forM fun s (mem : s ∈ g.symbols.symbols) => answers_checkSymbol mem
    exact .inr ⟨e, bind_of_error (query_of_error symbols), answers.of_error symbols⟩
  | ok _ =>
  rw [bind_of_ok (query_of_ok symbols)]
  cases start : g.startSymbol name with
  | error e =>
    exact .inr ⟨e, bind_of_error (query_of_error start), (answers_startSymbol chosen).of_error start⟩
  | ok s =>
  rw [bind_of_ok (query_of_ok start)]
  have passed := sound.checked chosen symbols start
  obtain ⟨g₁, applied⟩ := exists_applyLabels g g.labels.toList
  obtain ⟨checked, grown, labels, bears, -⟩ := (ends_applyLabels g.labels.nodup passed).of_ok applied
  obtain ⟨ps, listing, size, listed⟩ := checked.toOpen.listProductions s.id
  have settled := checked.settled size listed
  have labelled : g₁.Labelled := by rwa [Labelled, labels]
  refine .inl ⟨g₁, (g₁.marked s.id).sealed ps, bind_eq_ok.2 ⟨g, g, rfl, ?_⟩, passed.known, grown,
    ⟨name, s.id, checked, ps, rfl⟩, labelled, labels, ⟨_, _, settled⟩, checked.facts⟩
  rw [bind_of_ok applied, bind_of_ok (checked.toOpen.markStart s), bind_of_ok (query_of_ok listing)]
  rfl

/-- An open grammar is closed, or the checks complain and it keeps the start symbol that was chosen. -/
theorem Open.close_cases (sound : g.Open) (start : Option String) :
    (∃ g₁ g', close start g = .ok () g' ∧ ClosedFrom { g with start := start <|> g.start } g₁ g') ∨
      ∃ e, close start g = .error e { g with start := start <|> g.start } ∧
        Complaint { g with start := start <|> g.start } e := by
  have merged : (modify fun g => { g with start := start <|> g.start } : Build Unit) g =
      .ok () { g with start := start <|> g.start } := rfl
  unfold close
  rw [bind_of_ok (rfl : (get : Build Grammar) g = .ok g g), if_neg (by simp [sound.closed]), bind_of_ok merged,
    bind_of_ok (rfl : (get : Build Grammar) _ = .ok _ _)]
  cases chosen : start <|> g.start with
  | none => exact .inr ⟨_, rfl, .noProductions rfl⟩
  | some name => exact (chosen ▸ sound.with_start (start <|> g.start)).closeOver_cases rfl

theorem ends_close_of_open (sound : g.Open) (start : Option String) :
    Ends (close start) g (fun _ g' => ∃ g₁, ClosedFrom { g with start := start <|> g.start } g₁ g')
      Open := by
  rcases sound.close_cases start with ⟨g₁, g', closing, source⟩ | ⟨e, refused, -⟩
  · rw [Ends, closing]
    exact ⟨g₁, source⟩
  · rw [Ends, refused]
    exact sound.with_start _

theorem ClosedFrom.labelled_after {g₁ : Grammar} (source : ClosedFrom g g₁ g') : g'.Labelled := by
  obtain ⟨-, -, ⟨name, start, checked, ps, rfl⟩, labelled, -, ⟨marker, first, settled⟩, -⟩ := source
  intro label mem
  rw [bears_iff settled.table.seated]
  intro s at_s named terminal
  rcases checked.toOpen.at?_of_at?_marked start at_s with rfl | at_s
  · cases terminal
  · exact (bears_iff checked.table.seated).1 (labelled label mem) s at_s named terminal

theorem close_of_closed (closed : g.closed = true) (start : Option String) :
    close start g = .ok () g := by
  rw [close]
  apply bind_eq_ok.2
  refine ⟨g, g, rfl, ?_⟩
  rw [if_pos closed]
  rfl

end ParserGenerator.Grammar
