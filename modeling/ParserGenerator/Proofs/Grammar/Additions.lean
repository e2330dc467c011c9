import ParserGenerator.Proofs.Grammar.Close
import ParserGenerator.Proofs.Grammar.Outline

/-!
# What calls add to an outline

As long as the names of actions are left to actions, declarations add nothing to the outline of an open
grammar, and a production adds itself.
-/

namespace ParserGenerator

/-- The names of a symbol in a right-hand side; action symbols are erased. -/
def Grammar.RightSymbol.spelled : RightSymbol → List String
  | .name n => [n]
  | .interned _ => []
  | .foreign n => [n]

namespace Grammar

open Build
open SymbolTable (Declarable)

variable {g g' g'' : Grammar} {s : Symbol} {name : String} {kind : SymbolKind} {id : Int} {ids : List Int}

/-- Exactly the symbols with the names of actions are action symbols. -/
def ActionsNamed (g : Grammar) : Prop :=
  ∀ ⦃id s⦄, g.symbols.at? id = some s → (s.isAction = true ↔ ∃ n, s.name = actionName n)

/-- Registered symbols stay registered with their names and, once they are known, their kinds. -/
def Keeps (g g' : Grammar) : Prop :=
  ∀ ⦃id s⦄, g.symbols.at? id = some s →
    ∃ s', g'.symbols.at? id = some s' ∧ s'.name = s.name ∧ (s.kind ≠ .unknown → s'.kind = s.kind)

/-- The grammar has grown by declarations that leave the names of actions to actions. -/
structure Declares (g g' : Grammar) : Prop extends g.Grows g' where
  actions : g'.ActionsNamed

/-- The second grammar is open, and its outline has the given productions beside those of the first. -/
structure Gains (g g' : Grammar) (new : String → List String → Prop) : Prop where
  sound : g'.Open
  actions : g'.ActionsNamed
  keeps : g.Keeps g'
  produces : ∀ {s r}, g'.outline.produces s r ↔ g.outline.produces s r ∨ new s r

theorem Keeps.refl (g : Grammar) : g.Keeps g := fun _ _ at_s => ⟨_, at_s, rfl, fun _ => rfl⟩

theorem Keeps.trans (h : g.Keeps g') (h' : g'.Keeps g'') : g.Keeps g'' := by
  intro id s at_s
  obtain ⟨a, at_a, name_a, kind_a⟩ := h at_s
  obtain ⟨b, at_b, name_b, kind_b⟩ := h' at_a
  refine ⟨b, at_b, name_b.trans name_a, fun known => ?_⟩
  rw [kind_b (by rwa [kind_a known]), kind_a known]

theorem Grows.keepsAll (h : g.Grows g') : g.Keeps g' := by
  intro id s at_s
  obtain ⟨s', at_s', named, -, kinds⟩ := h.extended.old at_s
  exact ⟨s', at_s', named, fun known => kinds.resolve_right fun unknown => known unknown.1⟩

theorem Lawful.keeps_withProduction (sound : g.Lawful) {p : Production} (at_s : g.symbols.at? p.left = some s) :
    g.Keeps (g.withProduction p s) := by
  intro id x at_x
  obtain ⟨y, at_y, named, same⟩ := sound.old_withProduction at_s at_x
  exact ⟨y, at_y, named, fun _ => same⟩

/-! ## Frames -/

theorem Keeps.nameAt_eq (h : g.Keeps g') (at_s : g.symbols.at? id = some s) :
    g'.nameAt id = g.nameAt id := by
  obtain ⟨s', at_s', named, -⟩ := h at_s
  rw [Grammar.nameAt_eq at_s, Grammar.nameAt_eq at_s', named]

theorem Keeps.spelled_of_actions (h : g.Keeps g') (same : ∀ id ∈ ids, g'.isAction id = g.isAction id)
    (registered : ∀ id ∈ ids, ∃ s, g.symbols.at? id = some s) : g'.spelled ids = g.spelled ids := by
  have kept : g'.erased ids = g.erased ids := List.filter_congr fun id mem => by rw [same id mem]
  rw [spelled, spelled, kept]
  refine List.map_congr_left fun id mem => ?_
  obtain ⟨s, at_s⟩ := registered id (List.mem_of_mem_filter mem)
  exact h.nameAt_eq at_s

/-- What a registered symbol is called and whether it is an action symbol is settled. -/
theorem Keeps.spelled_eq (h : g.Keeps g') (actions : g.ActionsNamed) (actions' : g'.ActionsNamed)
    (registered : ∀ id ∈ ids, ∃ s, g.symbols.at? id = some s) : g'.spelled ids = g.spelled ids := by
  refine h.spelled_of_actions (fun id mem => ?_) registered
  obtain ⟨s, at_s⟩ := registered id mem
  obtain ⟨s', at_s', named, -⟩ := h at_s
  rw [isAction_eq at_s, isAction_eq at_s', Bool.eq_iff_iff, actions at_s, actions' at_s', named]

/-- Known symbols spell what they did, also where new symbols are actions. -/
theorem Keeps.spelled_of_known (h : g.Keeps g')
    (known : ∀ id ∈ ids, ∃ s, g.symbols.at? id = some s ∧ s.kind ≠ .unknown) :
    g'.spelled ids = g.spelled ids := by
  refine h.spelled_of_actions (fun id mem => ?_) fun id mem => (known id mem).imp fun _ at_s => at_s.1
  obtain ⟨s, at_s, settled⟩ := known id mem
  obtain ⟨s', at_s', -, same⟩ := h at_s
  rw [isAction_eq at_s, isAction_eq at_s', Symbol.isAction, same settled]
  rfl

/-- A terminal is one of every grammar that keeps the symbols. -/
theorem Keeps.terminal (h : g.Keeps g') (at_s : g.symbols.at? id = some s) (kind : s.kind = .terminal) :
    g'.outline.terminal s.name := by
  obtain ⟨s', at_s', named, same⟩ := h at_s
  refine ⟨id, s', at_s', ?_, named⟩
  rw [Symbol.isInput, same (by rw [kind]; decide), kind]
  rfl

/-- The name of a nonterminal is that of no terminal in any grammar that keeps the symbols. -/
theorem Keeps.not_terminal (h : g.Keeps g') (lawful : g'.Lawful) (at_s : g.symbols.at? id = some s)
    (kind : s.kind = .nonterminal) : ¬ g'.outline.terminal s.name := by
  rintro ⟨id', x, at_x, input, same_name⟩
  obtain ⟨s', at_s', named, same⟩ := h at_s
  rw [lawful.table.name_inj at_x at_s' (same_name.trans named.symm), at_s'] at at_x
  cases at_x
  rw [Symbol.isInput, same (by rw [kind]; decide), kind] at input
  cases input

theorem Lawful.not_terminal_of_produces (sound : g.Lawful) {s : String} {r : List String}
    (produced : g.outline.produces s r) : ¬ g.outline.terminal s := by
  obtain ⟨n, p, hp, rfl, -⟩ := produced
  obtain ⟨left, at_left, kind⟩ := sound.left hp
  rw [Grammar.nameAt_eq at_left]
  exact (Keeps.refl g).not_terminal sound at_left kind

/-- In a closed grammar every name in a right-hand side is that of a terminal or has a production. -/
theorem Settled.terminal_or_produces {marker start : Int} (settled : g.Settled marker start) {s n : String}
    {r : List String} (produced : g.outline.produces s r) (mem : n ∈ r) :
    g.outline.terminal n ∨ ∃ r', g.outline.produces n r' := by
  obtain ⟨k, p, hp, rfl, rfl⟩ := produced
  obtain ⟨id, kept, rfl⟩ := List.mem_map.1 mem
  obtain ⟨inside, plain⟩ := List.mem_filter.1 kept
  obtain ⟨-, x, at_x⟩ := settled.right hp id inside
  rw [Grammar.nameAt_eq at_x]
  rcases settled.cases_kind at_x with input | nonterminal | action
  · obtain ⟨y, at_y, input⟩ := isInput_iff.1 input
    rw [at_x] at at_y
    cases at_y
    exact .inl ⟨id, x, at_x, input, rfl⟩
  · obtain ⟨y, at_y, kind⟩ := isNonterminal_iff.1 nonterminal
    rw [at_x] at at_y
    cases at_y
    -- It has a production, which is filed with it.
    have own := settled.produced at_x kind
    rw [settled.filed at_x] at own
    obtain ⟨q, filed⟩ := List.exists_mem_of_ne_nil _ (mt (congrArg (List.map Production.number)) own)
    obtain ⟨listed, left⟩ := List.mem_filter.1 filed
    obtain ⟨m, hq⟩ := OrderedMap.mem_values.1 listed
    refine .inr ⟨_, m, q, hq, ?_, rfl⟩
    rw [of_decide_eq_true left, Grammar.nameAt_eq at_x]
  · simp [action] at plain

/-- Productions that stay and symbols that are kept leave the outline's productions as they are. -/
theorem produces_iff (same : g'.byNumber = g.byNumber)
    (spelled : ∀ {n p}, g.byNumber.get? n = some p →
      g'.nameAt p.left = g.nameAt p.left ∧ g'.spelled p.right = g.spelled p.right)
    {s : String} {r : List String} : g'.outline.produces s r ↔ g.outline.produces s r := by
  constructor
  · rintro ⟨n, p, hp, rfl, rfl⟩
    rw [same] at hp
    exact ⟨n, p, hp, (spelled hp).1.symm, (spelled hp).2.symm⟩
  · rintro ⟨n, p, hp, rfl, rfl⟩
    exact ⟨n, p, same ▸ hp, spelled hp⟩

/-- Kept symbols spell the productions of a grammar as they did. -/
theorem Keeps.spells (h : g.Keeps g') (sound : g.Lawful) (actions : g.ActionsNamed)
    (actions' : g'.ActionsNamed) {n : Int} {p : Production} (hp : g.byNumber.get? n = some p) :
    g'.nameAt p.left = g.nameAt p.left ∧ g'.spelled p.right = g.spelled p.right := by
  obtain ⟨left, at_left, -⟩ := sound.left hp
  exact ⟨h.nameAt_eq at_left, h.spelled_eq actions actions' fun id mem => (sound.right hp id mem).2⟩

theorem Declares.gains (h : g.Declares g') (sound : g.Open) (actions : g.ActionsNamed) :
    g.Gains g' fun _ _ => False where
  sound := h.open_of_open sound
  actions := h.actions
  keeps := h.keepsAll
  produces := by
    intro s r
    rw [produces_iff h.byNumber (h.keepsAll.spells sound.toLawful actions h.actions), or_false]

theorem Gains.trans {new new' : String → List String → Prop} (h : g.Gains g' new) (h' : g'.Gains g'' new') :
    g.Gains g'' fun s r => new s r ∨ new' s r where
  sound := h'.sound
  actions := h'.actions
  keeps := h.keeps.trans h'.keeps
  produces := by
    intro s r
    rw [h'.produces, h.produces, or_assoc]

/-! ## Declarations -/

/-- A kind for a name that leaves the names of actions to actions. -/
def Fitting (name : String) (kind : SymbolKind) : Prop := kind.isAction = true ↔ ∃ n, name = actionName n

theorem fitting_of_plain (plain : ¬ Marked name) (other : kind.isAction = false) : Fitting name kind :=
  iff_of_false (by simp [other]) fun named => plain (.inr named)

theorem fitting_action (n : Nat) (trailing : Bool) :
    Fitting (actionName n) (if trailing then .trailingAction else .innerAction) := by
  cases trailing <;> exact ⟨fun _ => ⟨n, rfl⟩, fun _ => rfl⟩

/-- Fitting declarations leave the names of actions to actions. -/
theorem GrowsBy.declares (h : g.GrowsBy Fitting g') (actions : g.ActionsNamed) : g.Declares g' where
  toGrows := h.toGrows
  actions := by
    intro id y at_y
    rcases h.origin at_y with ⟨x, at_x, named, same⟩ | fits
    · rw [Symbol.isAction, same, named]
      exact actions at_x
    · exact fits

section

variable (lawful : g.symbols.Lawful) (actions : g.ActionsNamed)
include lawful actions

theorem ends_declareTerminal_declares (plain : ¬ Marked name) :
    Ends (declareTerminal name) g (fun _ g' => g.Declares g' ∧ ∃ id s, g'.symbols.at? id = some s ∧
      s.name = name ∧ s.kind = .terminal) fun _ => True :=
  (ends_declareTerminal lawful (not_or.1 plain).1 (fitting_of_plain plain rfl)).mono
    (fun _ _ h => ⟨h.1.declares actions, h.2⟩) fun _ _ => trivial

theorem ends_declareNonterminal_declares (plain : ¬ Marked name) (initialiser : String) :
    Ends (declareNonterminal name initialiser) g (fun _ g' => g.Declares g' ∧
      ∃ id s, g'.symbols.at? id = some s ∧ s.name = name ∧ s.kind = .nonterminal) fun _ => True :=
  (ends_declareNonterminal lawful (not_or.1 plain).1 (fitting_of_plain plain rfl) initialiser).mono
    (fun _ _ h => ⟨h.1.declares actions, h.2⟩) fun _ _ => trivial

theorem ends_newAction_declares (text : String) (trailing : Bool) :
    Ends (newAction text trailing) g (fun s g' => g.Declares g' ∧ g'.symbols.at? s.id = some s ∧
      s.isAction = true) fun _ => True := by
  refine (ends_newAction lawful text trailing fun n => fitting_action n trailing).mono ?_ fun _ _ => trivial
  rintro s g' ⟨grown, ⟨at_s, -⟩, named⟩
  have declares := grown.declares actions
  exact ⟨declares, at_s, (declares.actions at_s).2 named⟩

theorem ends_declarePrecedence_declares (associativity : String) (labels : List String) :
    Ends (declarePrecedence associativity labels) g (fun _ => g.Declares) fun _ => True :=
  (ends_declarePrecedence lawful associativity labels).mono (fun _ _ h => h.declares actions)
    fun _ _ => trivial

end

/-! ## Productions -/

/-- What stands in a right-hand side is a name that is left to it, or an action symbol of the grammar. -/
def RightSymbol.Held (g : Grammar) : RightSymbol → Prop
  | .name n => ¬ Marked n
  | .interned s => ∃ x, g.symbols.at? s.id = some x ∧ x.isAction = true
  | .foreign _ => False

@[simp] theorem RightSymbol.held_name {n : String} : (RightSymbol.name n).Held g ↔ ¬ Marked n := Iff.rfl

theorem RightSymbol.Held.keeps {item : RightSymbol} (held : item.Held g) (h : g.Keeps g') : item.Held g' := by
  cases item with
  | name n => exact held
  | interned s =>
    obtain ⟨x, at_x, action⟩ := held
    obtain ⟨y, at_y, -, same⟩ := h at_x
    refine ⟨y, at_y, ?_⟩
    have known : x.kind ≠ .unknown := by
      intro unknown
      rw [Symbol.isAction, unknown] at action
      cases action
    rwa [Symbol.isAction, same known]
  | foreign n => exact held

theorem spelled_append (g : Grammar) (ids ids' : List Int) :
    g.spelled (ids ++ ids') = g.spelled ids ++ g.spelled ids' := by
  simp [spelled]

theorem spelled_of_action (at_s : g.symbols.at? id = some s) (action : s.isAction = true) :
    g.spelled [id] = [] := by
  rw [spelled, erased_cons_of_action (by rw [isAction_eq at_s, action])]
  rfl

theorem ActionsNamed.spelled_of_plain (actions : g.ActionsNamed) (at_s : g.symbols.at? id = some s)
    (other : ¬ ∃ n, s.name = actionName n) : g.spelled [id] = [s.name] := by
  have plain : g.isAction id = false := by
    rw [isAction_eq at_s, Bool.eq_false_iff]
    exact fun action => other ((actions at_s).1 action)
  rw [spelled, erased_cons plain]
  simp [nameAt_eq at_s, erased]

theorem RightSymbol.Held.ready {item : RightSymbol} (held : item.Held g) : item.Ready Fitting g := by
  cases item with
  | name n => exact ⟨fun marker => held (.inl marker), fitting_of_plain held rfl⟩
  | interned s =>
    obtain ⟨x, at_x, action⟩ := held
    refine ⟨x, at_x, fun _ ended => ?_⟩
    rw [Symbol.isAction, ended] at action
    cases action
  | foreign n => exact held.elim

/-- What stands in a right-hand side is spelled as it is called. -/
theorem ActionsNamed.spelled_of_has (actions : g.ActionsNamed) {item : RightSymbol} (held : item.Held g)
    (has : item.Has g id) : g.spelled [id] = item.spelled := by
  cases item with
  | name n =>
    obtain ⟨s, at_s, rfl⟩ := has
    exact actions.spelled_of_plain at_s fun named => held (.inr named)
  | interned s =>
    obtain ⟨x, at_x, action⟩ := held
    cases has
    exact spelled_of_action at_x action
  | foreign n => exact held.elim

theorem ActionsNamed.spelled_of_have (actions : g.ActionsNamed) {items : List RightSymbol}
    (held : ∀ item ∈ items, item.Held g) (have_ids : List.Forall₂ (fun item id => item.Has g id) items ids) :
    g.spelled ids = items.flatMap RightSymbol.spelled := by
  induction have_ids with
  | nil => rfl
  | cons has _ ih =>
    obtain ⟨first, later⟩ := List.forall_mem_cons.1 held
    rw [List.flatMap_cons, ← List.singleton_append, spelled_append, actions.spelled_of_has first has, ih later]

theorem ActionsNamed.spelled_actions (actions : g.ActionsNamed)
    (named : ∀ a ∈ ids, ∃ x n, g.symbols.at? a = some x ∧ x.name = actionName n) : g.spelled ids = [] := by
  rw [spelled, List.map_eq_nil_iff, erased, List.filter_eq_nil_iff]
  intro a mem
  obtain ⟨x, n, at_x, named⟩ := named a mem
  simp [isAction_eq at_x, (actions at_x).2 ⟨n, named⟩]

/-- A production that is filed is added to the outline. -/
theorem Open.gains_filed (sound : g.Open) (actions : g.ActionsNamed) {p : Production}
    (number : p.number = g.nextNumber) (at_s : g.symbols.at? p.left = some s) (kind : s.kind = .nonterminal)
    (usable : ∀ id ∈ p.right, g.Usable id) (start : Option String) :
    g.Gains { g.withProduction p s with nextNumber := g.nextNumber + 1, start := start }
      fun left right => left = s.name ∧ right = g.spelled p.right := by
  have sound' := sound.withProduction number at_s kind usable start
  have keeps : g.Keeps { g.withProduction p s with nextNumber := g.nextNumber + 1, start := start } :=
    sound.toLawful.keeps_withProduction at_s
  have actions' : ActionsNamed { g.withProduction p s with nextNumber := g.nextNumber + 1, start := start } := by
    intro id y at_y
    obtain ⟨x, at_x, named, same⟩ := sound.toLawful.of_withProduction at_s at_y
    rw [Symbol.isAction, same, named]
    exact actions at_x
  have own := keeps.spelled_eq actions actions' fun id mem => (usable id mem).2
  have left : nameAt { g.withProduction p s with nextNumber := g.nextNumber + 1, start := start } p.left = s.name :=
    (keeps.nameAt_eq at_s).trans (nameAt_eq at_s)
  refine ⟨sound', actions', keeps, ?_⟩
  intro l r
  constructor
  · rintro ⟨n, q, hq, rfl, rfl⟩
    have hq : (g.byNumber.insert p.number p).get? n = some q := hq
    rw [OrderedMap.get?_insert] at hq
    split at hq
    · cases hq
      exact .inr ⟨left, own⟩
    · obtain ⟨before, right⟩ := keeps.spells sound.toLawful actions actions' hq
      exact .inl ⟨n, q, hq, before.symm, right.symm⟩
  · rintro (⟨n, q, hq, rfl, rfl⟩ | ⟨rfl, rfl⟩)
    · refine ⟨n, q, ?_, keeps.spells sound.toLawful actions actions' hq⟩
      have other : p.number ≠ n := by
        rintro rfl
        rw [number, sound.absent] at hq
        cases hq
      exact OrderedMap.get?_insert.trans ((if_neg other).trans hq)
    · exact ⟨p.number, p, OrderedMap.get?_insert.trans (if_pos rfl), left, own⟩

/-- A production adds itself to the outline. -/
theorem ends_addProduction_gains (sound : g.Open) (actions : g.ActionsNamed) {left : String}
    (plain : ¬ Marked left) {items : List RightSymbol} (held : ∀ item ∈ items, item.Held g)
    (action label : Option String) :
    Ends (addProduction left items action label) g
      (fun _ g' => g.Gains g' fun s r => s = left ∧ r = items.flatMap RightSymbol.spelled) fun _ => True := by
  refine (ends_addProduction sound (not_or.1 plain).1 (fitting_of_plain plain rfl)
    (fun n => fitting_action n true) (fun item mem => (held item mem).ready) action label).mono ?_
    fun _ _ => trivial
  rintro p g' ⟨g₁, s, made, rfl⟩
  have declares := made.grown.declares actions
  have spelled : g₁.spelled p.right = items.flatMap RightSymbol.spelled := by
    obtain ⟨ids, own, eq, have_ids, named⟩ := made.right
    rw [eq, spelled_append, declares.actions.spelled_actions named, List.append_nil]
    exact declares.actions.spelled_of_have
      (fun item mem => (held item mem).keeps declares.keepsAll) have_ids
  have filed := (declares.gains sound actions).trans ((declares.open_of_open sound).gains_filed
    declares.actions made.number made.at_left made.kind made.usable (g₁.start <|> some left))
  simpa only [made.named, spelled, false_or] using filed

/-! ## Closing -/

theorem Open.keeps_marked (sound : g.Open) (start : Int) : g.Keeps (g.marked start) := by
  intro id s at_s
  exact ⟨s, sound.at?_marked_of_at? start at_s, rfl, fun _ => rfl⟩

/-- Closing keeps the symbols. -/
theorem ClosedFrom.keeps {g₁ : Grammar} (source : ClosedFrom g g₁ g') : g.Keeps g' := by
  obtain ⟨-, grown, ⟨_, start, checked, ps, rfl⟩, -⟩ := source
  exact grown.keepsAll.trans (checked.toOpen.keeps_marked start)

/-- Closing keeps the productions and adds one with the number 0. -/
theorem ClosedFrom.get?_eq {g₁ : Grammar} (source : ClosedFrom g g₁ g') {n : Int} (other : n ≠ 0) :
    g'.byNumber.get? n = g.byNumber.get? n := by
  obtain ⟨-, grown, ⟨_, start, checked, ps, rfl⟩, -⟩ := source
  have same : g₁.byNumber = g.byNumber := grown.byNumber
  show (g₁.marked start).byNumber.get? n = _
  rw [get?_marked, if_neg other.symm, same]

theorem ClosedFrom.start {g₁ : Grammar} (source : ClosedFrom g g₁ g') : g'.start = g.start := by
  obtain ⟨-, grown, ⟨_, start, checked, ps, rfl⟩, -⟩ := source
  exact grown.start

theorem ClosedFrom.labels_after {g₁ : Grammar} (source : ClosedFrom g g₁ g') : g'.labels = g.labels := by
  obtain ⟨-, -, ⟨_, start, checked, ps, rfl⟩, -, labels, -⟩ := source
  exact labels

/-- Closing adds the production of the start marker to the outline. -/
theorem ends_close_gains (sound : g.Open) (start : Option String) :
    Ends (close start) g (fun _ g' => ∃ marker first, g'.Settled marker first ∧ g.Keeps g' ∧
      ∀ {s r}, g'.outline.produces s r ↔
        g.outline.produces s r ∨ s = startMarkerName ∧ r = [g'.nameAt first]) fun _ => True := by
  refine (ends_close_of_open sound start).mono ?_ fun _ _ => trivial
  rintro - g' ⟨g₁, source⟩
  obtain ⟨⟨marker, first, settled⟩, -⟩ := source.complete
  have zero := settled.zero
  have keeps : g.Keeps g' := source.keeps
  have later : ∀ {n}, n ≠ 0 → g'.byNumber.get? n = g.byNumber.get? n := source.get?_eq
  have spells : ∀ {n p}, g.byNumber.get? n = some p →
      g'.nameAt p.left = g.nameAt p.left ∧ g'.spelled p.right = g.spelled p.right := by
    intro n p hp
    obtain ⟨left, at_left, -⟩ := sound.left hp
    refine ⟨keeps.nameAt_eq at_left, keeps.spelled_of_known fun id mem => ?_⟩
    obtain ⟨-, s, at_s⟩ := sound.right hp id mem
    exact ⟨s, at_s, source.known at_s⟩
  obtain ⟨m, at_m, named⟩ := settled.marker_name
  have marked : g'.nameAt marker = startMarkerName := (nameAt_eq at_m).trans named
  have begins : g'.spelled [first] = [g'.nameAt first] := by
    rw [spelled, erased_cons (isAction_of_isNonterminal (isNonterminal_iff.2 settled.start_kind))]
    rfl
  refine ⟨marker, first, settled, keeps, ?_⟩
  intro s r
  constructor
  · rintro ⟨n, p, hp, rfl, rfl⟩
    by_cases initial : n = 0
    · rw [initial, zero] at hp
      cases hp
      exact .inr ⟨marked, begins⟩
    · rw [later initial] at hp
      exact .inl ⟨n, p, hp, (spells hp).1.symm, (spells hp).2.symm⟩
  · rintro (⟨n, p, hp, rfl, rfl⟩ | ⟨rfl, rfl⟩)
    · refine ⟨n, p, ?_, spells hp⟩
      have other : n ≠ 0 := by
        rintro rfl
        rw [sound.get?_zero] at hp
        cases hp
      exact (later other).trans hp
    · exact ⟨0, _, zero, marked, begins⟩

end Grammar

end ParserGenerator
