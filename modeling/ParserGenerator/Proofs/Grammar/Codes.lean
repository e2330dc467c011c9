import ParserGenerator.Proofs.Grammar.Close

/-!
# The code of actions

The code of an action is kept with its symbol. A call that goes through leaves it there, and the symbol that
is made for the next action is the only one to get new code.
-/

namespace ParserGenerator

open SymbolTable (Declarable)

theorem SymbolTable.Lawful.code_of_resolve {t t' : SymbolTable} (lawful : t.Lawful) {name : String}
    {kind : SymbolKind} {s : Symbol} (h : t.resolve name kind = .ok (s, t')) {id : Int} {x : Symbol}
    (at_x : t.at? id = some x) :
    ∃ y, t'.at? id = some y ∧ y.name = x.name ∧ y.actionText = x.actionText := by
  rw [resolve] at h
  cases found : t.find? name with
  | some z =>
    obtain ⟨at_z, -⟩ := lawful.find?_eq_some.1 found
    simp only [found, lawful.current?_eq at_z] at h
    split at h
    · cases h
      have at_z : t.at? ({ z with kind := kind } : Symbol).id = some z := at_z
      rw [lawful.at?_update at_z rfl]
      split
      · rename_i place
        rw [place, at_z] at at_x
        cases at_x
        exact ⟨_, rfl, rfl, rfl⟩
      · exact ⟨x, at_x, rfl, rfl⟩
    · cases h
      exact ⟨x, at_x, rfl, rfl⟩
  | none =>
    simp only [found] at h
    split at h
    · cases h
    · cases h
      refine ⟨x, ?_, rfl, rfl⟩
      rw [at?_install_size, if_neg, at_x]
      rintro rfl
      rw [at?_size] at at_x
      cases at_x

namespace Grammar

open Build

variable {g g' g'' : Grammar} {s : Symbol} {name left : String} {kind : SymbolKind}
  {may : String → SymbolKind → Prop} {but : String → Prop} {item : RightSymbol}
  {items : List RightSymbol} {id : Int}

/-- The symbols stay registered with their names and codes, but for those of some names. -/
def KeepsCodes (but : String → Prop) (g g' : Grammar) : Prop :=
  ∀ ⦃id s⦄, g.symbols.at? id = some s → ¬ but s.name →
    ∃ s', g'.symbols.at? id = some s' ∧ s'.name = s.name ∧ s'.actionText = s.actionText

theorem KeepsCodes.of_eq (same : g'.symbols = g.symbols) : g.KeepsCodes but g' :=
  fun _ s at_s _ => ⟨s, same ▸ at_s, rfl, rfl⟩

theorem KeepsCodes.trans (h : g.KeepsCodes but g') (h' : g'.KeepsCodes but g'') : g.KeepsCodes but g'' := by
  intro id s at_s other
  obtain ⟨a, at_a, name_a, code_a⟩ := h at_s other
  obtain ⟨b, at_b, name_b, code_b⟩ := h' at_a (name_a ▸ other)
  exact ⟨b, at_b, name_b.trans name_a, code_b.trans code_a⟩

/-- A symbol is replaced by one that may have another code. -/
theorem keepsCodes_update (lawful : g.symbols.Lawful) {z : Symbol} (h : g.symbols.at? z.id = some s)
    (named : z.name = s.name) (code : ¬ but s.name → z.actionText = s.actionText)
    (updated : g'.symbols = g.symbols.update z) : g.KeepsCodes but g' := by
  intro id x at_x other
  have after := lawful.at?_update h named id
  rw [← updated] at after
  by_cases place : id = z.id
  · rw [place, h] at at_x
    cases at_x
    rw [if_pos place] at after
    exact ⟨z, after, named, code other⟩
  · rw [if_neg place] at after
    exact ⟨x, after.trans at_x, rfl, rfl⟩

/-! ## Names -/

/-- The grammar has grown by declarations; they leave codes alone and make no action. -/
structure Registers (may : String → SymbolKind → Prop) (g g' : Grammar) : Prop extends g.GrowsBy may g' where
  codes : g.KeepsCodes (fun _ => False) g'
  counted : g'.actionCount = g.actionCount

namespace Registers

theorem refl (lawful : g.symbols.Lawful) : g.Registers may g := ⟨.refl lawful, .of_eq rfl, rfl⟩

theorem trans (h : g.Registers may g') (h' : g'.Registers may g'') : g.Registers may g'' :=
  ⟨h.toGrowsBy.trans h'.toGrowsBy, h.codes.trans h'.codes, h'.counted.trans h.counted⟩

end Registers

theorem resolve_eq_ok : resolve name kind g = .ok s g' ↔
    ∃ t, g.symbols.resolve name kind = .ok (s, t) ∧ g' = { g with symbols := t } := by
  rw [resolve, onSymbols]
  split
  · rename_i x t resolved
    rw [resolved]
    constructor
    · intro eq
      cases eq
      exact ⟨t, rfl, rfl⟩
    · rintro ⟨t', eq, rfl⟩
      cases eq
      rfl
  · rename_i e refused
    rw [refused]
    constructor
    · intro eq
      cases eq
    · rintro ⟨t', eq, -⟩
      cases eq

theorem resolve_registers (lawful : g.symbols.Lawful) (kinds : Declarable kind)
    (plain : name ≠ startMarkerName) (declared : may name kind) (done : resolve name kind g = .ok s g') :
    g.Registers may g' ∧ g'.symbols.at? s.id = some s ∧ s.name = name := by
  have ends := ends_resolve lawful kinds plain declared
  rw [Ends, done] at ends
  obtain ⟨t, resolved, rfl⟩ := resolve_eq_ok.1 done
  exact ⟨⟨ends.1, fun _ _ at_x _ => lawful.code_of_resolve resolved at_x, rfl⟩, ends.2⟩

variable (may) in
theorem declareTerminal_registers (lawful : g.symbols.Lawful) (plain : name ≠ startMarkerName)
    (declared : may name .terminal) (done : declareTerminal name g = .ok s g') : g.Registers may g' := by
  obtain ⟨x, g₁, resolved, rest⟩ := bind_eq_ok.1 done
  split at rest
  · cases rest
  · cases rest
    exact (resolve_registers lawful declarable_terminal plain declared resolved).1

variable (may) in
theorem declareNonterminal_registers (lawful : g.symbols.Lawful) (plain : name ≠ startMarkerName)
    (declared : may name .nonterminal) {initialiser : String}
    (done : declareNonterminal name initialiser g = .ok s g') :
    g.Registers may g' ∧ ∃ id x, g'.symbols.at? id = some x ∧ x.name = name ∧ x.kind = .nonterminal := by
  have ends := ends_declareNonterminal lawful plain declared initialiser
  rw [Ends, done] at ends
  refine ⟨?_, ends.2⟩
  obtain ⟨x, g₁, resolved, rest⟩ := bind_eq_ok.1 done
  obtain ⟨registers, at_x, -⟩ := resolve_registers lawful declarable_nonterminal plain declared resolved
  split at rest
  · cases rest
  · split at rest
    · cases rest
      exact registers
    · cases rest
      exact ⟨ends.1, registers.codes.trans (keepsCodes_update (z := { x with initialiser := initialiser })
        registers.lawful at_x rfl (fun _ => rfl) rfl), registers.counted⟩

theorem declareLabels_eq_ok {p : Precedence} {labels : List String} {u : Unit}
    (done : labels.forM (declareLabel p) g = .ok u g') :
    g'.symbols = g.symbols ∧ g'.actionCount = g.actionCount := by
  induction labels generalizing g with
  | nil =>
    cases done
    exact ⟨rfl, rfl⟩
  | cons label labels ih =>
    obtain ⟨_, g₁, first, rest⟩ := bind_eq_ok.1 done
    obtain ⟨_, _, ⟨⟩, first⟩ := bind_eq_ok.1 first
    split at first
    · cases first
    · cases first
      obtain ⟨symbols, counted⟩ := ih rest
      exact ⟨symbols, counted⟩

theorem declarePrecedence_registers (lawful : g.symbols.Lawful) {associativity : String}
    {labels : List String} {p : Precedence} (done : declarePrecedence associativity labels g = .ok p g') :
    g.Registers may g' := by
  have ends : Ends _ g (fun _ => g.GrowsBy may) _ := ends_declarePrecedence lawful associativity labels
  rw [Ends, done] at ends
  obtain ⟨_, g₁, levelled, rest⟩ := bind_eq_ok.1 done
  cases levelled
  cases found : Associativity.ofName? associativity with
  | none =>
    rw [found] at rest
    cases rest
  | some a =>
    rw [found] at rest
    obtain ⟨_, g₂, ⟨⟩, rest⟩ := bind_eq_ok.1 rest
    obtain ⟨_, g₃, labelled, rest⟩ := bind_eq_ok.1 rest
    cases rest
    obtain ⟨symbols, counted⟩ := declareLabels_eq_ok labelled
    exact ⟨ends, .of_eq symbols, counted⟩

/-! ## Actions -/

theorem newAction_eq_ok {text : String} {trailing : Bool} : newAction text trailing g = .ok s g' ↔
    ∃ x g₁, resolve (actionName (g.actionCount + 1)) (if trailing then .trailingAction else .innerAction)
        { g with actionCount := g.actionCount + 1 } = .ok x g₁ ∧
      s = { x with actionText := some text } ∧
      g' = { g₁ with symbols := g₁.symbols.update { x with actionText := some text } } := by
  constructor
  · intro done
    obtain ⟨_, g₁, counted, rest⟩ := bind_eq_ok.1 done
    cases counted
    obtain ⟨_, g₂, ⟨⟩, rest⟩ := bind_eq_ok.1 rest
    obtain ⟨x, g₃, resolved, rest⟩ := bind_eq_ok.1 rest
    obtain ⟨_, g₄, updated, rest⟩ := bind_eq_ok.1 rest
    cases updated
    cases rest
    exact ⟨x, g₃, resolved, rfl, rfl⟩
  · rintro ⟨x, g₁, resolved, rfl, rfl⟩
    exact bind_eq_ok.2 ⟨(), _, rfl, bind_eq_ok.2 ⟨_, _, rfl, bind_eq_ok.2 ⟨x, g₁, resolved,
      bind_eq_ok.2 ⟨(), _, rfl, rfl⟩⟩⟩⟩

/-- The name and the kind are those of the symbol of an action. -/
def IsAction (n : Nat) (trailing : Bool) (name : String) (kind : SymbolKind) : Prop :=
  name = actionName n ∧ kind = if trailing then .trailingAction else .innerAction

/-- The next action has been made: its symbol has the next name and the code, and no other symbol has got
a code. -/
structure Acts (text : String) (trailing : Bool) (g : Grammar) (s : Symbol) (g' : Grammar) : Prop
    extends g.GrowsBy (IsAction (g.actionCount + 1) trailing) g' where
  codes : g.KeepsCodes (· = actionName (g.actionCount + 1)) g'
  counted : g'.actionCount = g.actionCount + 1
  at_s : g'.symbols.at? s.id = some s
  named : s.name = actionName (g.actionCount + 1)
  code : s.actionText = some text

theorem newAction_acts (lawful : g.symbols.Lawful) {text : String} {trailing : Bool}
    (done : newAction text trailing g = .ok s g') : g.Acts text trailing s g' := by
  obtain ⟨x, g₁, resolved, rfl, rfl⟩ := newAction_eq_ok.1 done
  let may := IsAction (g.actionCount + 1) trailing
  have counted : g.GrowsBy may { g with actionCount := g.actionCount + 1 } :=
    growsBy_of_eq lawful rfl rfl rfl rfl rfl rfl rfl
  have declared : may (actionName (g.actionCount + 1)) (if trailing then .trailingAction else .innerAction) :=
    ⟨rfl, rfl⟩
  obtain ⟨registers, at_x, named⟩ :=
    resolve_registers counted.lawful (declarable_action trailing) (actionName_ne (by decide)) declared resolved
  have updated : g₁.GrowsBy may _ ∧ _ :=
    ends_updateSymbol registers.lawful { x with actionText := some text } at_x rfl rfl rfl
  have codes : g.KeepsCodes (· = actionName (g.actionCount + 1)) g₁ :=
    fun _ _ at_y _ => registers.codes at_y not_false
  exact {
    toGrowsBy := (counted.trans registers.toGrowsBy).trans updated.1
    codes := codes.trans (keepsCodes_update (z := { x with actionText := some text }) registers.lawful at_x rfl
      (fun other => absurd named other) rfl)
    counted := registers.counted
    at_s := updated.2
    named := named
    code := rfl }

/-! ## Right-hand sides -/

theorem rightId_registers (sound : g.Lawful) (ready : item.Ready may g)
    (done : rightId left item g = .ok id g') :
    g.Registers may g' ∧ g'.Usable id ∧ item.Has g' id := by
  have ends : Ends (rightId left item) g _ _ := ends_rightId sound ready
  rw [Ends, done] at ends
  refine ⟨?_, ends.2⟩
  obtain ⟨s, g₁, found, rest⟩ := bind_eq_ok.1 done
  split at rest
  · cases rest
  · cases rest
    cases item with
    | name n =>
      rw [rightSymbol] at found
      split at found
      · cases found
      · exact (resolve_registers sound.table declarable_unknown ready.1 ready.2 found).1
    | interned x =>
      obtain ⟨_, _, ⟨⟩, found⟩ := bind_eq_ok.1 found
      split at found
      · cases found
      · cases found
        exact .refl sound.table
    | foreign n => cases found

theorem rightIds_registers (sound : g.Lawful) (ready : ∀ item ∈ items, item.Ready may g) {ids : List Int}
    (done : items.mapM (rightId left) g = .ok ids g') :
    g.Registers may g' ∧ (∀ id ∈ ids, g'.Usable id) ∧
      List.Forall₂ (fun item id => item.Has g' id) items ids := by
  induction items generalizing g ids with
  | nil =>
    cases done
    exact ⟨.refl sound.table, by simp, .nil⟩
  | cons item items ih =>
    obtain ⟨first, later⟩ := List.forall_mem_cons.1 ready
    rw [List.mapM_cons] at done
    obtain ⟨id, g₁, done₁, rest⟩ := bind_eq_ok.1 done
    obtain ⟨ids', g₂, done₂, rest⟩ := bind_eq_ok.1 rest
    cases rest
    obtain ⟨registers, usable, has⟩ := rightId_registers sound first done₁
    obtain ⟨registers', usable', has'⟩ := ih (registers.lawful_of_lawful sound)
      (fun item mem => (later item mem).grows registers.toGrows) done₂
    exact ⟨registers.trans registers',
      List.forall_mem_cons.2 ⟨usable.grows registers'.toGrows, usable'⟩,
      .cons (has.grows registers'.toGrows) has'⟩

/-! ## Productions -/

theorem EndsWith.grows (lawful : g.symbols.Lawful) : ∀ {action : Option String} {ids : List Int},
    EndsWith action g ids g' → g.Grows g' ∧ ∀ id ∈ ids, g'.Usable id
  | none, _, ⟨eq, eq'⟩ => by
    subst eq eq'
    exact ⟨.refl lawful, by simp⟩
  | some text, _, ⟨a, done, eq⟩ => by
    subst eq
    have acts := newAction_acts lawful done
    refine ⟨acts.toGrows, ?_⟩
    have other : a.name ≠ endMarkerName := by
      rw [acts.named]
      exact actionName_ne (by decide)
    have registered := Registered.of_name acts.lawful acts.at_s other
    simpa using ⟨registered.2, a, registered.1⟩

/-- A production has been filed: its names were registered first, then its action was made. -/
structure Filed (may : String → SymbolKind → Prop) (left : String) (items : List RightSymbol)
    (action label : Option String) (g : Grammar) (p : Production) (g' g₁ g₂ : Grammar) (s : Symbol)
    (ids actions : List Int) : Prop where
  registers : g.Registers may g₁
  has : List.Forall₂ (fun item id => item.Has g₁ id) items ids
  ended : EndsWith action g₁ actions g₂
  at_left : g₂.symbols.at? p.left = some s
  named : s.name = left
  kind : s.kind = .nonterminal
  usable : ∀ id ∈ p.right, g₂.Usable id
  made : p = ⟨g₂.nextNumber, p.left, ids ++ actions, action, label⟩
  after : g' = { g₂.withProduction p s with
    nextNumber := g₂.nextNumber + 1
    start := g₂.start <|> some left }

variable (may) in
theorem addProduction_filed (sound : g.Open) (plain : left ≠ startMarkerName) (declared : may left .nonterminal)
    (ready : ∀ item ∈ items, item.Ready may g) {action label : Option String} {p : Production}
    (done : addProduction left items action label g = .ok p g') :
    ∃ g₁ g₂ s ids actions, Filed may left items action label g p g' g₁ g₂ s ids actions := by
  obtain ⟨s, x, ids, actions, g₁, g₂, g₃, stages⟩ := exists_stages done
  obtain ⟨registers, at_s, named⟩ :=
    resolve_registers sound.table declarable_nonterminal plain declared stages.resolved
  obtain ⟨registers', usable, has⟩ := rightIds_registers (registers.lawful_of_lawful sound.toLawful)
    (fun item mem => (ready item mem).grows registers.toGrows) stages.found
  have registers := registers.trans registers'
  obtain ⟨grown, more⟩ := stages.ended.grows registers.lawful
  obtain ⟨s', at_s', named', same⟩ :=
    (registers'.toGrows.trans grown).keeps at_s (by rw [stages.kind]; decide)
  obtain rfl : s' = x := Option.some.inj (at_s'.symm.trans stages.at_left)
  obtain rfl := stages.made
  exact ⟨g₂, g₃, s', ids, actions, registers, has, stages.ended, at_s', named'.trans named,
    same.trans stages.kind, List.forall_mem_append.2 ⟨fun id mem => (usable id mem).grows grown, more⟩, rfl,
    stages.after⟩

/-! ## Closing -/

theorem applyLabel_keepsCodes (lawful : g.symbols.Lawful) {label : String × Precedence} {u : Unit}
    (done : applyLabel label g = .ok u g') : g'.symbols.Lawful ∧ g.KeepsCodes (fun _ => False) g' := by
  obtain ⟨_, _, ⟨⟩, done⟩ := bind_eq_ok.1 done
  cases found : g.symbols.get? label.1 with
  | none =>
    simp only [found] at done
    cases done
    exact ⟨lawful, .of_eq rfl⟩
  | some s =>
    simp only [found] at done
    split at done
    · cases done
      obtain ⟨at_s, -⟩ := lawful.get?_eq_some.1 found
      have at_s : g.symbols.at? ({ s with precedence := some label.2 } : Symbol).id = some s := at_s
      exact ⟨lawful.update at_s rfl, keepsCodes_update lawful at_s rfl (fun _ => rfl) rfl⟩
    · cases done
      exact ⟨lawful, .of_eq rfl⟩

theorem applyLabels_keepsCodes (lawful : g.symbols.Lawful) {labels : List (String × Precedence)} {u : Unit}
    (done : labels.forM applyLabel g = .ok u g') : g.KeepsCodes (fun _ => False) g' := by
  induction labels generalizing g with
  | nil =>
    cases done
    exact .of_eq rfl
  | cons label labels ih =>
    obtain ⟨_, g₁, first, rest⟩ := bind_eq_ok.1 done
    obtain ⟨lawful₁, codes⟩ := applyLabel_keepsCodes lawful first
    exact codes.trans (ih lawful₁ rest)

theorem keepsCodes_marked (sound : g.Open) (start : Int) : g.KeepsCodes (fun _ => False) (g.marked start) := by
  intro id s at_s _
  exact ⟨s, sound.at?_marked_of_at? start at_s, rfl, rfl⟩

theorem close_keepsCodes (sound : g.Open) {start : Option String} {u : Unit}
    (done : close start g = .ok u g') : g.KeepsCodes (fun _ => False) g' := by
  obtain ⟨_, _, ⟨⟩, done⟩ := bind_eq_ok.1 done
  rw [if_neg (by rw [sound.closed]; exact Bool.false_ne_true)] at done
  obtain ⟨_, _, chosen, done⟩ := bind_eq_ok.1 done
  cases chosen
  obtain ⟨_, _, ⟨⟩, done⟩ := bind_eq_ok.1 done
  have sound := sound.with_start (start <|> g.start)
  cases chosen : start <|> g.start with
  | none =>
    simp only [chosen] at done
    cases done
  | some name =>
  simp only [chosen] at done sound
  obtain ⟨_, _, first, done⟩ := bind_eq_ok.1 done
  obtain ⟨-, rfl⟩ := query_eq_ok.1 first
  obtain ⟨_, _, second, done⟩ := bind_eq_ok.1 done
  obtain ⟨symbols, rfl⟩ := query_eq_ok.1 second
  obtain ⟨s, _, third, done⟩ := bind_eq_ok.1 done
  obtain ⟨found, rfl⟩ := query_eq_ok.1 third
  obtain ⟨_, _, ⟨⟩, done⟩ := bind_eq_ok.1 done
  obtain ⟨_, g₁, applied, done⟩ := bind_eq_ok.1 done
  have passed := ends_applyLabels g.labels.nodup (sound.checked rfl symbols found)
  rw [Ends, applied] at passed
  rw [bind_of_ok (passed.1.toOpen.markStart s)] at done
  obtain ⟨ps, _, listed, done⟩ := bind_eq_ok.1 done
  obtain ⟨-, rfl⟩ := query_eq_ok.1 listed
  cases done
  exact (applyLabels_keepsCodes sound.table applied).trans (keepsCodes_marked passed.1.toOpen s.id)

end Grammar

end ParserGenerator
