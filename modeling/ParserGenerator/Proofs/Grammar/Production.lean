import ParserGenerator.Proofs.Grammar.Growth

/-!
# Adding a production

A production is filed under the next number and with its left-hand side. An open grammar stays open
whether the call fails or not.
-/

namespace ParserGenerator.Grammar

open Build
open SymbolTable (Declarable)

variable {g g' : Grammar} {p : Production} {s : Symbol} {name : String}

/-- The grammar with a production filed under its number and with its left-hand side. -/
def withProduction (g : Grammar) (p : Production) (s : Symbol) : Grammar :=
  { g with
    byNumber := g.byNumber.insert p.number p
    symbols := g.symbols.update { s with productions := s.productions ++ [p.number] } }

theorem register_eq (absent : g.byNumber.get? p.number = none)
    (at_s : g.symbols.at? p.left = some s) : register p g = .ok () (g.withProduction p s) := by
  have found : g.symbols.symbol p.left = .ok s := SymbolTable.symbol_eq_ok at_s
  rw [register]
  apply bind_eq_ok.2
  refine ⟨g, g, rfl, ?_⟩
  rw [absent]
  apply bind_eq_ok.2
  refine ⟨(), _, rfl, ?_⟩
  exact bind_eq_ok.2 ⟨s, _, query_of_ok found, rfl⟩

/-- What has been filed had a new number and a registered left-hand side. -/
theorem register_eq_ok (registered : register p g = .ok () g') :
    ∃ s, g.byNumber.get? p.number = none ∧ g.symbols.at? p.left = some s ∧ g' = g.withProduction p s := by
  cases taken : g.byNumber.get? p.number with
  | some other =>
    rw [register] at registered
    obtain ⟨_, _, got, registered⟩ := bind_eq_ok.1 registered
    cases got
    simp only [taken] at registered
    obtain ⟨first, _, -, registered⟩ := bind_eq_ok.1 registered
    obtain ⟨second, _, -, registered⟩ := bind_eq_ok.1 registered
    cases registered
  | none =>
    cases at_s : g.symbols.at? p.left with
    | some s =>
      rw [register_eq taken at_s] at registered
      cases registered
      exact ⟨s, rfl, rfl, rfl⟩
    | none =>
      rw [register] at registered
      obtain ⟨_, _, got, registered⟩ := bind_eq_ok.1 registered
      cases got
      simp only [taken] at registered
      obtain ⟨_, _, modified, registered⟩ := bind_eq_ok.1 registered
      cases modified
      obtain ⟨s, _, queried, -⟩ := bind_eq_ok.1 registered
      have found := SymbolTable.at?_of_symbol (query_eq_ok.1 queried).1
      rw [at_s] at found
      cases found

theorem at?_withProduction (seated : g.symbols.Seated) (at_s : g.symbols.at? p.left = some s) (id : Int) :
    (g.withProduction p s).symbols.at? id =
      if id = p.left then some { s with productions := s.productions ++ [p.number] }
      else g.symbols.at? id := by
  have place := seated.id_eq at_s
  have h : g.symbols.at? ({ s with productions := s.productions ++ [p.number] } : Symbol).id =
      some s := by rw [place, at_s]
  rw [withProduction, seated.at?_update h rfl, place]

theorem get?_withProduction {n : Int} : (g.withProduction p s).byNumber.get? n =
    if p.number = n then some p else g.byNumber.get? n :=
  OrderedMap.get?_insert

/-- Under a new number nothing is lost. -/
theorem get?_withProduction_of_absent (absent : g.byNumber.get? p.number = none) {n : Int} {q : Production}
    (hq : g.byNumber.get? n = some q) : (g.withProduction p s).byNumber.get? n = some q := by
  rw [get?_withProduction, if_neg, hq]
  rintro rfl
  cases absent.symm.trans hq

/-- What is registered stays registered, with its name and kind. -/
theorem old_withProduction (seated : g.symbols.Seated) (at_s : g.symbols.at? p.left = some s) {id : Int}
    {x : Symbol} (at_x : g.symbols.at? id = some x) :
    ∃ y, (g.withProduction p s).symbols.at? id = some y ∧ y.name = x.name ∧ y.kind = x.kind := by
  rw [at?_withProduction seated at_s]
  split
  · rename_i place
    rw [place, at_s] at at_x
    cases at_x
    exact ⟨_, rfl, rfl, rfl⟩
  · exact ⟨x, at_x, rfl, rfl⟩

/-- What is registered was registered before, with its name and kind. -/
theorem of_withProduction (seated : g.symbols.Seated) (at_s : g.symbols.at? p.left = some s) {id : Int}
    {y : Symbol} (at_y : (g.withProduction p s).symbols.at? id = some y) :
    ∃ x, g.symbols.at? id = some x ∧ y.name = x.name ∧ y.kind = x.kind := by
  rw [at?_withProduction seated at_s] at at_y
  split at at_y
  · rename_i place
    cases at_y
    exact ⟨s, place ▸ at_s, rfl, rfl⟩
  · exact ⟨y, at_y, rfl, rfl⟩

theorem Lawful.at?_withProduction (sound : g.Lawful) (at_s : g.symbols.at? p.left = some s) (id : Int) :
    (g.withProduction p s).symbols.at? id =
      if id = p.left then some { s with productions := s.productions ++ [p.number] }
      else g.symbols.at? id :=
  Grammar.at?_withProduction sound.table.seated at_s id

theorem Lawful.old_withProduction (sound : g.Lawful) (at_s : g.symbols.at? p.left = some s) {id : Int}
    {x : Symbol} (at_x : g.symbols.at? id = some x) :
    ∃ y, (g.withProduction p s).symbols.at? id = some y ∧ y.name = x.name ∧ y.kind = x.kind :=
  Grammar.old_withProduction sound.table.seated at_s at_x

theorem Lawful.of_withProduction (sound : g.Lawful) (at_s : g.symbols.at? p.left = some s) {id : Int}
    {y : Symbol} (at_y : (g.withProduction p s).symbols.at? id = some y) :
    ∃ x, g.symbols.at? id = some x ∧ y.name = x.name ∧ y.kind = x.kind :=
  Grammar.of_withProduction sound.table.seated at_s at_y

/-- A production of a new number is filed behind all others. -/
theorem values_withProduction (absent : g.byNumber.get? p.number = none) (s : Symbol) :
    (g.withProduction p s).byNumber.values = g.byNumber.values ++ [p] := by
  rw [withProduction, OrderedMap.values, OrderedMap.toList_insert absent, List.map_append]
  rfl

theorem Lawful.withProduction (sound : g.Lawful) (absent : g.byNumber.get? p.number = none)
    (at_s : g.symbols.at? p.left = some s) (kind : s.kind = .nonterminal)
    (usable : ∀ id ∈ p.right, g.Usable id) : (g.withProduction p s).Lawful where
  table := by
    have h : g.symbols.at? ({ s with productions := s.productions ++ [p.number] } : Symbol).id =
        some s := by rw [sound.table.id_eq at_s, at_s]
    exact sound.table.update h rfl
  kinds := by
    intro id y at_y
    obtain ⟨x, at_x, -, same⟩ := sound.of_withProduction at_s at_y
    rw [same]
    exact sound.kinds at_x
  number_eq := by
    intro n q hq
    rw [get?_withProduction] at hq
    split at hq
    · rename_i eq
      cases hq
      exact eq
    · exact sound.number_eq hq
  left := by
    intro n q hq
    rw [get?_withProduction] at hq
    split at hq
    · cases hq
      obtain ⟨y, at_y, -, same⟩ := sound.old_withProduction at_s at_s
      exact ⟨y, at_y, same.trans kind⟩
    · obtain ⟨x, at_x, kind_x⟩ := sound.left hq
      obtain ⟨y, at_y, -, same⟩ := sound.old_withProduction at_s at_x
      exact ⟨y, at_y, same.trans kind_x⟩
  right := by
    intro n q hq id hid
    rw [get?_withProduction] at hq
    have before : g.Usable id := by
      split at hq
      · cases hq
        exact usable id hid
      · exact sound.right hq id hid
    obtain ⟨other, x, at_x⟩ := before
    obtain ⟨y, at_y, -⟩ := sound.old_withProduction at_s at_x
    exact ⟨other, y, at_y⟩
  filed := by
    intro id y at_y
    rw [sound.at?_withProduction at_s] at at_y
    rw [values_withProduction absent, List.filter_append, List.map_append]
    by_cases place : id = p.left
    · rw [if_pos place] at at_y
      cases at_y
      rw [sound.filed at_s, ← place]
      simp [place]
    · rw [if_neg place] at at_y
      rw [sound.filed at_y]
      have : p.left ≠ id := fun eq => place eq.symm
      simp [this]

/-! ## The next production -/

theorem Open.absent (sound : g.Open) : g.byNumber.get? g.nextNumber = none := by
  obtain ⟨n, next, keys⟩ := sound.numbered
  rw [OrderedMap.get?_eq_none, keys, next]
  intro mem
  obtain ⟨i, hi, eq⟩ := List.mem_map.1 mem
  have := List.mem_range.1 hi
  omega

theorem Open.withProduction (sound : g.Open) (number : p.number = g.nextNumber)
    (at_s : g.symbols.at? p.left = some s) (kind : s.kind = .nonterminal)
    (usable : ∀ id ∈ p.right, g.Usable id) (start : Option String) :
    Open { g.withProduction p s with nextNumber := g.nextNumber + 1, start := start } where
  toLawful :=
    have lawful := sound.toLawful.withProduction (number ▸ sound.absent) at_s kind usable
    ⟨lawful.table, lawful.kinds, lawful.number_eq, lawful.left, lawful.right, lawful.filed⟩
  closed := sound.closed
  frozen := sound.frozen
  unmarked := by
    have unmarked := sound.unmarked
    rw [SymbolTable.find?_eq_none] at unmarked ⊢
    intro id y at_y
    obtain ⟨x, at_x, same, -⟩ := sound.of_withProduction at_s at_y
    rw [same]
    exact unmarked id x at_x
  facts := sound.facts
  numbered := by
    obtain ⟨n, next, keys⟩ := sound.numbered
    refine ⟨n + 1, by rw [next]; push_cast; rfl, ?_⟩
    have absent : p.number ∉ g.byNumber.keys := OrderedMap.get?_eq_none.1 (number ▸ sound.absent)
    show (g.byNumber.insert p.number p).keys = _
    rw [OrderedMap.keys_insert, if_neg absent, keys, List.range_succ, List.map_append, number, next]
    rfl

/-- Behind the checks a production is filed under the next number. -/
theorem Open.file_eq (sound : g.Open) {left : Int} (at_s : g.symbols.at? left = some s) (ids : List Int)
    (action label : Option String) (first : String) :
    (do
      let number := (← get).nextNumber
      modify fun g => { g with nextNumber := number + 1 }
      let p : Production := ⟨number, left, ids, action, label⟩
      register p
      modify fun g => { g with start := g.start <|> some first }
      return p : Build Production) g =
    .ok ⟨g.nextNumber, left, ids, action, label⟩
      { g.withProduction ⟨g.nextNumber, left, ids, action, label⟩ s with
        nextNumber := g.nextNumber + 1
        start := g.start <|> some first } := by
  have registered : register ⟨g.nextNumber, left, ids, action, label⟩
      { g with nextNumber := g.nextNumber + 1 } = .ok () _ := register_eq sound.absent at_s
  refine bind_eq_ok.2 ⟨g, g, rfl, bind_eq_ok.2 ⟨(), _, rfl, ?_⟩⟩
  rw [bind_of_ok registered]
  rfl

/-- The identifiers of the symbol of an action behind a right-hand side, and the grammar with the symbol. -/
def EndsWith : Option String → Grammar → List Int → Grammar → Prop
  | none, g, ids, g' => ids = [] ∧ g' = g
  | some text, g, ids, g' => ∃ a, newAction text true g = .ok a g' ∧ ids = [a.id]

/-- The stages of a call that adds a production: the left-hand side is resolved, the right-hand side is found,
the symbol of the action is made, and the production is filed under the next number. -/
structure Stages (left : String) (items : List RightSymbol) (action label : Option String) (g : Grammar)
    (p : Production) (g' : Grammar) (s x : Symbol) (ids actions : List Int) (g₁ g₂ g₃ : Grammar) : Prop where
  resolved : resolve left .nonterminal g = .ok s g₁
  kind : s.kind = .nonterminal
  found : items.mapM (rightId left) g₁ = .ok ids g₂
  ended : EndsWith action g₂ actions g₃
  made : p = ⟨g₃.nextNumber, s.id, ids ++ actions, action, label⟩
  at_left : g₃.symbols.at? s.id = some x
  after : g' = { g₃.withProduction p x with
    nextNumber := g₃.nextNumber + 1
    start := g₃.start <|> some left }

theorem exists_stages {left : String} {items : List RightSymbol} {action label : Option String}
    (added : addProduction left items action label g = .ok p g') :
    ∃ s x ids actions g₁ g₂ g₃, Stages left items action label g p g' s x ids actions g₁ g₂ g₃ := by
  rw [addProduction] at added
  obtain ⟨_, _, ⟨⟩, added⟩ := bind_eq_ok.1 added
  by_cases closed : g.closed = true
  · rw [if_pos closed] at added
    cases added
  rw [if_neg closed] at added
  by_cases nameless : left.isEmpty = true
  · rw [if_pos nameless] at added
    cases added
  rw [if_neg nameless] at added
  obtain ⟨s, g₁, resolved, added⟩ := bind_eq_ok.1 added
  by_cases other : s.kind ≠ .nonterminal
  · rw [if_pos other] at added
    cases added
  rw [if_neg other] at added
  obtain ⟨ids, g₂, found, added⟩ := bind_eq_ok.1 added
  -- The rest is the same with an action and without one.
  have file : ∀ (actions : List Int) {g₃ : Grammar}, EndsWith action g₂ actions g₃ → (do
      let number := (← get).nextNumber
      modify fun g => { g with nextNumber := number + 1 }
      let p : Production := ⟨number, s.id, ids ++ actions, action, label⟩
      register p
      modify fun g => { g with start := g.start <|> some left }
      return p : Build Production) g₃ = .ok p g' →
      ∃ s x ids actions g₁ g₂ g₃, Stages left items action label g p g' s x ids actions g₁ g₂ g₃ := by
    intro actions g₃ ended added
    obtain ⟨_, _, ⟨⟩, added⟩ := bind_eq_ok.1 added
    obtain ⟨_, _, ⟨⟩, added⟩ := bind_eq_ok.1 added
    obtain ⟨⟨⟩, g₄, registered, added⟩ := bind_eq_ok.1 added
    obtain ⟨x, -, at_x, rfl⟩ := register_eq_ok registered
    cases added
    exact ⟨s, x, ids, actions, g₁, g₂, g₃, resolved, Classical.not_not.1 other, found, ended, rfl, at_x, rfl⟩
  cases action with
  | none =>
    refine file [] ⟨rfl, rfl⟩ ?_
    rw [List.append_nil]
    exact added
  | some text =>
    obtain ⟨a, g₃, made, added⟩ := bind_eq_ok.1 added
    exact file [a.id] ⟨a, made, rfl⟩ added

/-- A production has been made, where the grammar has grown, for a left-hand side and for what stands on the
right of it. Behind that stands the symbol of its action, if it has one. -/
structure Makes (may : String → SymbolKind → Prop) (g : Grammar) (left : String) (items : List RightSymbol)
    (p : Production) (g₁ : Grammar) (s : Symbol) : Prop where
  grown : g.GrowsBy may g₁
  number : p.number = g₁.nextNumber
  at_left : g₁.symbols.at? p.left = some s
  named : s.name = left
  kind : s.kind = .nonterminal
  usable : ∀ id ∈ p.right, g₁.Usable id
  right : ∃ ids actions, p.right = ids ++ actions ∧
    List.Forall₂ (fun item id => item.Has g₁ id) items ids ∧
    ∀ a ∈ actions, ∃ x n, g₁.symbols.at? a = some x ∧ x.name = actionName n

/-- A production is made and filed, or the grammar has grown at most. -/
theorem ends_addProduction (sound : g.Open) {left : String} {items : List RightSymbol}
    {may : String → SymbolKind → Prop} (plain : left ≠ startMarkerName) (declared : may left .nonterminal)
    (actions : ∀ n, may (actionName n) .trailingAction) (ready : ∀ item ∈ items, item.Ready may g)
    (action label : Option String) :
    Ends (addProduction left items action label) g
      (fun p g' => ∃ g₁ s, g.Makes may left items p g₁ s ∧
        g' = { g₁.withProduction p s with
          nextNumber := g₁.nextNumber + 1
          start := g₁.start <|> some left }) (g.GrowsBy may) := by
  rw [addProduction]
  apply ends_get_bind
  rw [if_neg (by rw [sound.closed]; exact Bool.false_ne_true)]
  by_cases nameless : left.isEmpty = true
  · rw [if_pos nameless]
    exact ends_throw_bind (.refl sound.table)
  rw [if_neg nameless]
  apply ends_bind (ends_resolve sound.table declarable_nonterminal plain declared)
  rintro s g₁ ⟨grown₁, at_s, named⟩
  by_cases kind : s.kind ≠ .nonterminal
  · rw [if_pos kind]
    exact ends_throw_bind grown₁
  rw [if_neg kind]
  have kind : s.kind = .nonterminal := Classical.not_not.1 kind
  apply ends_bind (grown₁.ends (ends_rightIds (grown₁.lawful_of_lawful sound.toLawful)
    fun item mem => (ready item mem).grows grown₁.toGrows))
  rintro ids g₂ ⟨grown₂, usable, right⟩
  -- The action adds a symbol behind those that have been found.
  have finish : ∀ actions g₃, g₂.GrowsBy may g₃ → (∀ a ∈ actions, g₃.Usable a) →
      (∀ a ∈ actions, ∃ x n, g₃.symbols.at? a = some x ∧ x.name = actionName n) →
      Ends (do
        let number := (← get).nextNumber
        modify fun g => { g with nextNumber := number + 1 }
        let p : Production := ⟨number, s.id, ids ++ actions, action, label⟩
        register p
        modify fun g => { g with start := g.start <|> some left }
        return p) g₃ (fun p g' => ∃ g₁ s, g.Makes may left items p g₁ s ∧
          g' = { g₁.withProduction p s with
            nextNumber := g₁.nextNumber + 1
            start := g₁.start <|> some left }) (g.GrowsBy may) := by
    intro actions g₃ grown₃ more names
    have grown := (grown₁.trans grown₂).trans grown₃
    obtain ⟨s', at_s', named', same⟩ := (grown₂.trans grown₃).keeps at_s (by rw [kind]; decide)
    rw [Ends, (grown.open_of_open sound).file_eq at_s']
    refine ⟨g₃, s', ⟨grown, rfl, at_s', named'.trans named, same.trans kind, ?_, ids, actions, rfl, ?_, names⟩,
      rfl⟩
    · exact List.forall_mem_append.2 ⟨fun id mem => (usable id mem).grows grown₃.toGrows, more⟩
    · exact right.imp fun _ _ has => has.grows grown₃.toGrows
  have grown := grown₁.trans grown₂
  cases action with
  | none =>
    have := finish [] g₂ (.refl grown₂.lawful) (by simp) (by simp)
    simpa using this
  | some text =>
    apply ends_bind (grown.ends (ends_newAction grown.lawful text true actions))
    rintro a g₃ ⟨grown₃, ⟨at_a, other⟩, n, named_a⟩
    refine finish [a.id] g₃ grown₃ ?_ ?_
    · simpa using ⟨other, a, at_a⟩
    · simpa using ⟨a, at_a, n, named_a⟩

/-- An open grammar stays open whether a production is added to it or not. -/
theorem ends_addProduction_open (sound : g.Open) {left : String} {items : List RightSymbol}
    (plain : left ≠ startMarkerName) (fits : ∀ item ∈ items, item.Fits g)
    (action label : Option String) :
    Ends (addProduction left items action label) g (fun _ => Open) Open := by
  refine (ends_addProduction sound plain trivial (fun _ => trivial)
    (fun item mem => (fits item mem).ready sound.table) action label).mono ?_
    fun _ grown => grown.open_of_open sound
  rintro p g' ⟨g₁, s, made, rfl⟩
  exact (made.grown.open_of_open sound).withProduction made.number made.at_left made.kind made.usable _

end ParserGenerator.Grammar
