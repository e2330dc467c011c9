import Mathlib.Data.List.Forall2
import ParserGenerator.Proofs.Grammar.Lawful

/-!
# Declarations make a grammar grow

Every declaration, whether it fails or not, leaves a grown grammar. The symbols that it returns are
registered there.
-/

namespace ParserGenerator.Grammar

open Build
open SymbolTable (Declarable)

variable {g g' g'' : Grammar} {name : String} {kind : SymbolKind} {may : String → SymbolKind → Prop}

/-- The symbol is registered under its identifier, which is not that of the end marker. -/
def Registered (g : Grammar) (s : Symbol) : Prop :=
  g.symbols.at? s.id = some s ∧ s.id ≠ endMarkerId

/-- The grammar has grown by declarations. Its symbols are old ones, with their names and kinds, or have
names and kinds that may be declared. -/
structure GrowsBy (may : String → SymbolKind → Prop) (g g' : Grammar) : Prop extends g.Grows g' where
  origin : ∀ {id y}, g'.symbols.at? id = some y →
    (∃ x, g.symbols.at? id = some x ∧ y.name = x.name ∧ y.kind = x.kind) ∨ may y.name y.kind

namespace GrowsBy

theorem refl (lawful : g.symbols.Lawful) : g.GrowsBy may g :=
  ⟨.refl lawful, fun at_y => .inl ⟨_, at_y, rfl, rfl⟩⟩

theorem trans (h : g.GrowsBy may g') (h' : g'.GrowsBy may g'') : g.GrowsBy may g'' where
  toGrows := h.toGrows.trans h'.toGrows
  origin := by
    intro id z at_z
    rcases h'.origin at_z with ⟨y, at_y, named, same⟩ | declared
    · rw [named, same]
      exact h.origin at_y
    · exact .inr declared

/-- Where a call fails behind others, the grammar has grown since the first of them. -/
theorem ends (h : g.GrowsBy may g') {α : Type} {x : Build α} {done : α → Grammar → Prop}
    (ended : Ends x g' done (g'.GrowsBy may)) : Ends x g' done (g.GrowsBy may) :=
  ended.mono (fun _ _ h => h) fun _ => h.trans

end GrowsBy

/-- Changes that leave the symbols and productions as they are. -/
theorem growsBy_of_eq (lawful : g.symbols.Lawful) (symbols : g'.symbols = g.symbols)
    (byNumber : g'.byNumber = g.byNumber) (productions : g'.productions = g.productions)
    (nextNumber : g'.nextNumber = g.nextNumber) (closed : g'.closed = g.closed)
    (start : g'.start = g.start) (facts : g'.facts = g.facts) : g.GrowsBy may g' where
  toGrows := ⟨symbols ▸ lawful, symbols ▸ .refl _, fun h => symbols ▸ h, byNumber, productions,
    nextNumber, closed, start, facts⟩
  origin := fun at_y => .inl ⟨_, symbols ▸ at_y, rfl, rfl⟩

theorem grows_update (lawful : g.symbols.Lawful) {s s' : Symbol} (h : g.symbols.at? s'.id = some s)
    (named : s'.name = s.name) (filed : s'.productions = s.productions) (kinds : s'.kind = s.kind) :
    g.Grows { g with symbols := g.symbols.update s' } := by
  refine ⟨lawful.update h named, lawful.extends_update h named filed (.inl kinds), ?_,
    rfl, rfl, rfl, rfl, rfl, rfl⟩
  intro unmarked
  rw [SymbolTable.find?_eq_none] at unmarked ⊢
  intro id x at_x
  rw [lawful.at?_update h named] at at_x
  split at at_x
  · cases at_x
    rw [named]
    exact unmarked _ s h
  · exact unmarked id x at_x

theorem growsBy_update (lawful : g.symbols.Lawful) {s s' : Symbol} (h : g.symbols.at? s'.id = some s)
    (named : s'.name = s.name) (filed : s'.productions = s.productions) (kinds : s'.kind = s.kind) :
    g.GrowsBy may { g with symbols := g.symbols.update s' } := by
  refine ⟨grows_update lawful h named filed kinds, fun {id y} at_y => ?_⟩
  rw [lawful.at?_update h named] at at_y
  split at at_y
  · rename_i place
    cases at_y
    exact .inl ⟨s, place ▸ h, named, kinds⟩
  · exact .inl ⟨y, at_y, rfl, rfl⟩

/-! ## Declarations -/

theorem onSymbols_eq {α : Type} {f : SymbolTable → Except Error (α × SymbolTable)} {a : α}
    {t : SymbolTable} (h : f g.symbols = .ok (a, t)) :
    onSymbols f g = .ok a { g with symbols := t } := by
  rw [onSymbols, h]

theorem onSymbols_eq_ok {α : Type} {f : SymbolTable → Except Error (α × SymbolTable)} {a : α} :
    onSymbols f g = .ok a g' ↔ ∃ t, f g.symbols = .ok (a, t) ∧ g' = { g with symbols := t } := by
  rw [onSymbols]
  cases f g.symbols with
  | ok r =>
    constructor
    · intro eq
      cases eq
      exact ⟨r.2, rfl, rfl⟩
    · rintro ⟨t, eq, rfl⟩
      cases eq
      rfl
  | error e => exact ⟨nofun, nofun⟩

theorem ends_resolve (lawful : g.symbols.Lawful) (kinds : Declarable kind)
    (plain : name ≠ startMarkerName) (declared : may name kind) :
    Ends (resolve name kind) g
      (fun s g' => g.GrowsBy may g' ∧ g'.symbols.at? s.id = some s ∧ s.name = name)
      (g.GrowsBy may) := by
  rw [Ends, resolve]
  rcases @SymbolTable.Lawful.resolve_cases g.symbols name kind lawful kinds with
    ⟨s, t', resolved, lawful', extended, at_s, named⟩ | refused
  · rw [onSymbols_eq resolved]
    refine ⟨⟨⟨lawful', extended, ?_, rfl, rfl, rfl, rfl, rfl, rfl⟩, fun at_y => ?_⟩, at_s, named⟩
    · intro unmarked
      rw [SymbolTable.find?_eq_none] at unmarked ⊢
      intro id y at_y
      rcases lawful.origin_of_resolve resolved at_y with ⟨x, at_x, same, -⟩ | ⟨same, -⟩
      · exact same ▸ unmarked id x at_x
      · exact same ▸ plain
    · refine (lawful.origin_of_resolve resolved at_y).imp_right ?_
      rintro ⟨named, same⟩
      rwa [named, same]
  · rw [onSymbols, refused]
    exact .refl lawful

theorem declarable_terminal : Declarable .terminal := ⟨nofun, nofun⟩
theorem declarable_nonterminal : Declarable .nonterminal := ⟨nofun, nofun⟩
theorem declarable_unknown : Declarable .unknown := ⟨nofun, nofun⟩
theorem declarable_action (trailing : Bool) :
    Declarable (if trailing then .trailingAction else .innerAction) := by
  cases trailing <;> exact ⟨nofun, nofun⟩

/-- A relation to the grammars that declarations lead to, if their names and kinds are allowed. -/
structure Carried (allowed : String → SymbolKind → Prop) (R : Grammar → Grammar → Prop) : Prop where
  refl : ∀ {g}, g.symbols.Lawful → R g g
  trans : ∀ {g g' g''}, R g g' → R g' g'' → R g g''
  lawful : ∀ {g g'}, R g g' → g'.symbols.Lawful
  resolve : ∀ {g name kind}, g.symbols.Lawful → Declarable kind → allowed name kind →
    Ends (resolve name kind) g (fun s g' => R g g' ∧ g'.symbols.at? s.id = some s ∧ s.name = name) (R g)
  update : ∀ {g s s'}, g.symbols.Lawful → g.symbols.at? s'.id = some s → s'.name = s.name →
    s'.productions = s.productions → s'.kind = s.kind → R g { g with symbols := g.symbols.update s' }
  labels : ∀ {g}, g.symbols.Lawful → ∀ level labels actionCount,
    R g { g with level := level, labels := labels, actionCount := actionCount }

theorem carried_growsBy : Carried (fun name kind => name ≠ startMarkerName ∧ may name kind) (GrowsBy may) where
  refl := .refl
  trans := .trans
  lawful := fun grown => grown.lawful
  resolve := fun lawful kinds allowed => ends_resolve lawful kinds allowed.1 allowed.2
  update := fun lawful at_s named filed kinds => growsBy_update lawful at_s named filed kinds
  labels := fun lawful _ _ _ => growsBy_of_eq lawful rfl rfl rfl rfl rfl rfl rfl

namespace Carried

variable {allowed : String → SymbolKind → Prop} {R : Grammar → Grammar → Prop} (carried : Carried allowed R)
include carried

/-- Where a call fails behind others, the relation leads on from the first of them. -/
theorem ends (h : R g g') {α : Type} {x : Build α} {done : α → Grammar → Prop} (ended : Ends x g' done (R g')) :
    Ends x g' done (R g) :=
  ended.mono (fun _ _ h => h) fun _ => carried.trans h

theorem updateSymbol (lawful : g.symbols.Lawful) {s : Symbol} (s' : Symbol)
    (h : g.symbols.at? s'.id = some s) (named : s'.name = s.name)
    (filed : s'.productions = s.productions) (kinds : s'.kind = s.kind) :
    Ends (updateSymbol s') g (fun _ g' => R g g' ∧ g'.symbols.at? s'.id = some s') (R g) :=
  ends_modify ⟨carried.update lawful h named filed kinds, by rw [lawful.at?_update h named, if_pos rfl]⟩

theorem declareTerminal (lawful : g.symbols.Lawful) (declared : allowed name .terminal) :
    Ends (declareTerminal name) g (fun _ g' => R g g' ∧
      ∃ id s, g'.symbols.at? id = some s ∧ s.name = name ∧ s.kind = .terminal) (R g) := by
  rw [Grammar.declareTerminal]
  apply ends_bind (carried.resolve lawful declarable_terminal declared)
  rintro s g' ⟨grown, at_s, named⟩
  by_cases clash : s.kind ≠ .terminal
  · rw [if_pos clash]
    exact ends_throw_bind grown
  · rw [if_neg clash]
    exact ends_pure ⟨grown, s.id, s, at_s, named, Classical.not_not.1 clash⟩

theorem declareNonterminal (lawful : g.symbols.Lawful) (declared : allowed name .nonterminal)
    (initialiser : String) :
    Ends (declareNonterminal name initialiser) g (fun _ g' => R g g' ∧
      ∃ id s, g'.symbols.at? id = some s ∧ s.name = name ∧ s.kind = .nonterminal) (R g) := by
  rw [Grammar.declareNonterminal]
  apply ends_bind (carried.resolve lawful declarable_nonterminal declared)
  rintro s g' ⟨grown, at_s, named⟩
  by_cases clash : s.kind ≠ .nonterminal
  · rw [if_pos clash]
    exact ends_throw_bind grown
  · rw [if_neg clash]
    have kind := Classical.not_not.1 clash
    by_cases plainSymbol : initialiser.isEmpty = true
    · rw [if_pos plainSymbol]
      exact ends_pure ⟨grown, s.id, s, at_s, named, kind⟩
    · rw [if_neg plainSymbol]
      apply ends_bind (carried.ends grown (carried.updateSymbol (carried.lawful grown)
        { s with initialiser := initialiser } at_s rfl rfl rfl))
      rintro - g'' ⟨grown', at_s'⟩
      exact ends_pure ⟨carried.trans grown grown', s.id, _, at_s', named, kind⟩

theorem declarePrecedence (lawful : g.symbols.Lawful) (associativity : String) (labels : List String) :
    Ends (declarePrecedence associativity labels) g (fun _ => R g) (R g) := by
  rw [Grammar.declarePrecedence]
  apply ends_modify_bind
  have levelled : R g { g with level := g.level + 1 } := carried.labels lawful _ g.labels g.actionCount
  cases Associativity.ofName? associativity with
  | none => exact ends_throw levelled
  | some a =>
    apply ends_get_bind
    have declared : Ends (labels.forM (declareLabel ⟨a, g.level + 1⟩))
        { g with level := g.level + 1 } (fun _ => R g) (R g) := by
      apply ends_forM _ levelled
      intro label _ g' grown
      rw [declareLabel]
      apply ends_get_bind
      by_cases twice : g'.labels.contains label = true
      · rw [if_pos twice]
        exact ends_throw_bind grown
      · rw [if_neg twice]
        exact ends_modify (carried.trans grown
          (carried.labels (carried.lawful grown) g'.level _ g'.actionCount))
    exact ends_bind declared fun _ _ h => ends_pure h

theorem newAction (lawful : g.symbols.Lawful) (text : String) (trailing : Bool)
    (declared : ∀ n, allowed (actionName n) (if trailing then .trailingAction else .innerAction)) :
    Ends (newAction text trailing) g
      (fun s g' => R g g' ∧ g'.symbols.at? s.id = some s ∧ ∃ n, s.name = actionName n) (R g) := by
  rw [Grammar.newAction]
  apply ends_modify_bind
  apply ends_get_bind
  have counted : R g { g with actionCount := g.actionCount + 1 } := carried.labels lawful g.level g.labels _
  apply ends_bind (carried.ends counted (carried.resolve (carried.lawful counted) (declarable_action trailing)
    (declared _)))
  rintro s g' ⟨grown, at_s, named⟩
  have grown := carried.trans counted grown
  apply ends_bind (carried.ends grown (carried.updateSymbol (carried.lawful grown)
    { s with actionText := some text } at_s rfl rfl rfl))
  rintro - g'' ⟨grown', at_s'⟩
  exact ends_pure ⟨carried.trans grown grown', at_s', _, named⟩

theorem rightId {item : RightSymbol} (lawful : g.symbols.Lawful) (left : String)
    (declared : ∀ name, allowed name .unknown) : Ends (rightId left item) g (fun _ => R g) (R g) := by
  have found : Ends (rightSymbol left item) g (fun _ => R g) (R g) := by
    cases item with
    | name name =>
      rw [rightSymbol]
      by_cases nameless : name.isEmpty = true
      · rw [if_pos nameless]
        exact ends_throw_bind (carried.refl lawful)
      · rw [if_neg nameless]
        exact (carried.resolve lawful declarable_unknown (declared name)).mono (fun _ _ h => h.1) fun _ h => h
    | interned s =>
      rw [rightSymbol]
      apply ends_get_bind
      split
      · exact ends_throw_bind (carried.refl lawful)
      · exact ends_pure (carried.refl lawful)
    | foreign name => exact ends_throw (carried.refl lawful)
  rw [Grammar.rightId]
  apply ends_bind found
  intro s g' grown
  by_cases inside : s.kind = .endMarker
  · rw [if_pos inside]
    exact ends_throw_bind grown
  · rw [if_neg inside]
    exact ends_pure grown

theorem rightIds {items : List RightSymbol} (lawful : g.symbols.Lawful) (left : String)
    (declared : ∀ name, allowed name .unknown) :
    Ends (items.mapM (Grammar.rightId left)) g (fun _ => R g) (R g) := by
  induction items generalizing g with
  | nil => exact ends_pure (carried.refl lawful)
  | cons item items ih =>
    rw [List.mapM_cons]
    apply ends_bind (carried.rightId lawful left declared)
    intro id g₁ grown₁
    apply ends_bind (carried.ends grown₁ (ih (carried.lawful grown₁)))
    intro ids g₂ grown₂
    exact ends_pure (carried.trans grown₁ grown₂)

end Carried

theorem ends_updateSymbol (lawful : g.symbols.Lawful) {s : Symbol} (s' : Symbol)
    (h : g.symbols.at? s'.id = some s) (named : s'.name = s.name)
    (filed : s'.productions = s.productions) (kinds : s'.kind = s.kind) :
    Ends (updateSymbol s') g (fun _ g' => g.GrowsBy may g' ∧ g'.symbols.at? s'.id = some s')
      (g.GrowsBy may) :=
  carried_growsBy.updateSymbol lawful s' h named filed kinds

theorem ends_declareTerminal (lawful : g.symbols.Lawful) (plain : name ≠ startMarkerName)
    (declared : may name .terminal) :
    Ends (declareTerminal name) g (fun _ g' => g.GrowsBy may g' ∧
      ∃ id s, g'.symbols.at? id = some s ∧ s.name = name ∧ s.kind = .terminal) (g.GrowsBy may) :=
  carried_growsBy.declareTerminal lawful ⟨plain, declared⟩

theorem ends_declareNonterminal (lawful : g.symbols.Lawful) (plain : name ≠ startMarkerName)
    (declared : may name .nonterminal) (initialiser : String) :
    Ends (declareNonterminal name initialiser) g (fun _ g' => g.GrowsBy may g' ∧
      ∃ id s, g'.symbols.at? id = some s ∧ s.name = name ∧ s.kind = .nonterminal) (g.GrowsBy may) :=
  carried_growsBy.declareNonterminal lawful ⟨plain, declared⟩ initialiser

theorem ends_declarePrecedence (lawful : g.symbols.Lawful) (associativity : String)
    (labels : List String) :
    Ends (declarePrecedence associativity labels) g (fun _ => g.GrowsBy may) (g.GrowsBy may) :=
  carried_growsBy.declarePrecedence lawful associativity labels

theorem actionName_ne {n : Nat} {name : String} (other : name.toList.head? ≠ some '%') :
    actionName n ≠ name := by
  rintro rfl
  apply other
  have : (actionName n).toList = "%action".toList ++ (toString n).toList := by
    simp [actionName, toString]
  rw [this]
  rfl

theorem Registered.of_name (lawful : g.symbols.Lawful) {s : Symbol}
    (at_s : g.symbols.at? s.id = some s) (named : s.name ≠ endMarkerName) : g.Registered s := by
  refine ⟨at_s, fun eq => named ?_⟩
  obtain ⟨x, at_x, name_x⟩ := lawful.endMarker
  rw [← eq, at_s] at at_x
  cases at_x
  exact name_x

theorem ends_newAction (lawful : g.symbols.Lawful) (text : String) (trailing : Bool)
    (declared : ∀ n, may (actionName n) (if trailing then .trailingAction else .innerAction)) :
    Ends (newAction text trailing) g
      (fun s g' => g.GrowsBy may g' ∧ g'.Registered s ∧ ∃ n, s.name = actionName n)
      (g.GrowsBy may) := by
  refine (carried_growsBy.newAction lawful text trailing
    fun n => ⟨actionName_ne (by decide), declared n⟩).mono ?_ fun _ h => h
  rintro s g' ⟨grown, at_s, n, named⟩
  have other : s.name ≠ endMarkerName := by
    rw [named]
    exact actionName_ne (by decide)
  exact ⟨grown, .of_name grown.lawful at_s other, n, named⟩

/-! ## Right-hand sides -/

/-- A symbol in a right-hand side is one of the grammar, and a name is not that of the start marker. -/
def RightSymbol.Fits (g : Grammar) : RightSymbol → Prop
  | .name name => name ≠ startMarkerName
  | .interned s => g.symbols.get? s.name = some s
  | .foreign _ => True

/-- A name in a right-hand side may be declared, and a symbol there is registered, as the end marker only if
it is the end marker's. -/
def RightSymbol.Ready (may : String → SymbolKind → Prop) (g : Grammar) : RightSymbol → Prop
  | .name name => name ≠ startMarkerName ∧ may name .unknown
  | .interned s => ∃ x, g.symbols.at? s.id = some x ∧ (s.kind ≠ .endMarker → x.kind ≠ .endMarker)
  | .foreign _ => True

/-- The identifier is that of what stands in a right-hand side. -/
def RightSymbol.Has (g : Grammar) (id : Int) : RightSymbol → Prop
  | .name name => ∃ s, g.symbols.at? id = some s ∧ s.name = name
  | .interned s => id = s.id
  | .foreign _ => False

/-- The identifier is one of a registered symbol, and not that of the end marker. -/
def Usable (g : Grammar) (id : Int) : Prop := id ≠ endMarkerId ∧ ∃ s, g.symbols.at? id = some s

section

variable {item : RightSymbol} {items : List RightSymbol} {id : Int} {left : String}

theorem RightSymbol.Fits.ready (fits : item.Fits g) (lawful : g.symbols.Lawful) :
    item.Ready (fun _ _ => True) g := by
  cases item with
  | name name => exact ⟨fits, trivial⟩
  | interned s => exact ⟨s, (lawful.get?_eq_some.1 fits).1, fun kind => kind⟩
  | foreign name => trivial

theorem RightSymbol.Ready.grows (ready : item.Ready may g) (h : g.Grows g') : item.Ready may g' := by
  cases item with
  | name name => exact ready
  | interned s =>
    obtain ⟨x, at_x, kinds⟩ := ready
    obtain ⟨y, at_y, -, -, same | ⟨-, declarable⟩⟩ := h.extended.old at_x
    · exact ⟨y, at_y, same ▸ kinds⟩
    · exact ⟨y, at_y, fun _ => declarable.1⟩
  | foreign name => trivial

theorem RightSymbol.Has.grows (has : item.Has g id) (h : g.Grows g') : item.Has g' id := by
  cases item with
  | name name =>
    obtain ⟨s, at_s, named⟩ := has
    obtain ⟨s', at_s', same, -⟩ := h.extended.old at_s
    exact ⟨s', at_s', same.trans named⟩
  | interned s => exact has
  | foreign name => exact has

theorem Usable.grows (usable : g.Usable id) (h : g.Grows g') : g'.Usable id := by
  obtain ⟨other, s, at_s⟩ := usable
  obtain ⟨s', at_s', -⟩ := h.extended.old at_s
  exact ⟨other, s', at_s'⟩

/-- What a grammar holds at an identifier that is not of the kind of the end marker. -/
theorem Lawful.usable (sound : g.Lawful) {s : Symbol} (at_s : g.symbols.at? id = some s)
    (kind : s.kind ≠ .endMarker) : g.Usable id := by
  rcases sound.kinds at_s with ⟨ended, -⟩ | ⟨-, other⟩
  · exact absurd ended kind
  · exact ⟨other, s, at_s⟩

theorem ends_rightId (sound : g.Lawful) (ready : item.Ready may g) :
    Ends (rightId left item) g (fun id g' => g.GrowsBy may g' ∧ g'.Usable id ∧ item.Has g' id)
      (g.GrowsBy may) := by
  -- The symbol of a name may be the end marker, which is refused afterwards.
  have known : Ends (rightSymbol left item) g
      (fun s g' => g.GrowsBy may g' ∧ item.Has g' s.id ∧ ∃ x, g'.symbols.at? s.id = some x ∧
        (s.kind ≠ .endMarker → x.kind ≠ .endMarker)) (g.GrowsBy may) := by
    cases item with
    | name name =>
      rw [rightSymbol]
      by_cases nameless : name.isEmpty = true
      · rw [if_pos nameless]
        exact ends_throw_bind (.refl sound.table)
      · rw [if_neg nameless]
        refine (ends_resolve sound.table declarable_unknown ready.1 ready.2).mono ?_ fun _ h => h
        rintro s g' ⟨grown, at_s, named⟩
        exact ⟨grown, ⟨s, at_s, named⟩, s, at_s, fun kind => kind⟩
    | interned s =>
      rw [rightSymbol]
      apply ends_get_bind
      split
      · exact ends_throw_bind (.refl sound.table)
      · exact ends_pure ⟨.refl sound.table, rfl, ready⟩
    | foreign name => exact ends_throw (.refl sound.table)
  rw [rightId]
  apply ends_bind known
  rintro s g' ⟨grown, has, x, at_x, kinds⟩
  by_cases inside : s.kind = .endMarker
  · rw [if_pos inside]
    exact ends_throw_bind grown
  · rw [if_neg inside]
    have sound' := grown.lawful_of_lawful sound
    exact ends_pure ⟨grown, sound'.usable at_x (kinds inside), has⟩

theorem ends_rightIds (sound : g.Lawful) (ready : ∀ item ∈ items, item.Ready may g) :
    Ends (items.mapM (rightId left)) g
      (fun ids g' => g.GrowsBy may g' ∧ (∀ id ∈ ids, g'.Usable id) ∧
        List.Forall₂ (fun item id => item.Has g' id) items ids) (g.GrowsBy may) := by
  induction items generalizing g with
  | nil => exact ends_pure ⟨.refl sound.table, by simp, .nil⟩
  | cons item items ih =>
    obtain ⟨first, later⟩ := List.forall_mem_cons.1 ready
    rw [List.mapM_cons]
    apply ends_bind (ends_rightId sound first)
    rintro id g₁ ⟨grown₁, usable, has⟩
    apply ends_bind (grown₁.ends (ih (grown₁.lawful_of_lawful sound)
      fun item mem => (later item mem).grows grown₁.toGrows))
    rintro ids g₂ ⟨grown₂, usables, have_ids⟩
    exact ends_pure ⟨grown₁.trans grown₂,
      List.forall_mem_cons.2 ⟨usable.grows grown₂.toGrows, usables⟩,
      .cons (has.grows grown₂.toGrows) have_ids⟩

end

end ParserGenerator.Grammar
