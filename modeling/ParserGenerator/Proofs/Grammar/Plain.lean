import ParserGenerator.Proofs.Analysis.FirstFollow
import ParserGenerator.Proofs.Collection.Attempt
import ParserGenerator.Proofs.Grammar.Outline

/-!
# Grammars that differ in action symbols

Two grammars can have the same symbols, productions and precedences but for their action symbols. The
identifiers of their symbols then differ, but not what is derived by name, which terminals begin or follow
a nonterminal, and which precedence a production has.
-/

namespace ParserGenerator.Grammar

variable {g h : Grammar} {x y y' n t u start start' : Int} {s : Symbol} {p : Production}
  {α α' β γ δ : List Int} {id : Int}

/-- The symbols that are no action symbols, without their identifiers. -/
def plainSymbols (g : Grammar) : List (String × SymbolKind × Option Precedence) :=
  (g.symbols.symbols.filter (!·.isAction)).map fun s => (s.name, s.kind, s.precedence)

/-- The productions by names, without action symbols. -/
def plainRules (g : Grammar) : List (Int × String × List String × Option String) :=
  g.byNumber.toList.map fun e => (e.1, g.nameAt e.2.left, g.spelled e.2.right, e.2.label)

/-- By their names the grammars are the same, but for action symbols. -/
structure SameButActions (g h : Grammar) : Prop where
  symbols : ∀ s, s ∈ g.plainSymbols ↔ s ∈ h.plainSymbols
  rules : ∀ r, r ∈ g.plainRules ↔ r ∈ h.plainRules
  labels : ∀ e, e ∈ g.labels.toList ↔ e ∈ h.labels.toList

instance (g h : Grammar) : Decidable (g.SameButActions h) :=
  decidable_of_iff
    (((∀ s ∈ g.plainSymbols, s ∈ h.plainSymbols) ∧ ∀ s ∈ h.plainSymbols, s ∈ g.plainSymbols) ∧
      ((∀ r ∈ g.plainRules, r ∈ h.plainRules) ∧ ∀ r ∈ h.plainRules, r ∈ g.plainRules) ∧
      (∀ e ∈ g.labels.toList, e ∈ h.labels.toList) ∧ ∀ e ∈ h.labels.toList, e ∈ g.labels.toList)
    ⟨fun ⟨symbols, rules, labels⟩ => ⟨fun s => ⟨symbols.1 s, symbols.2 s⟩,
        fun r => ⟨rules.1 r, rules.2 r⟩, fun e => ⟨labels.1 e, labels.2 e⟩⟩,
      fun same => ⟨⟨fun s => (same.symbols s).1, fun s => (same.symbols s).2⟩,
        ⟨fun r => (same.rules r).1, fun r => (same.rules r).2⟩,
        fun e => (same.labels e).1, fun e => (same.labels e).2⟩⟩

theorem SameButActions.symm (same : g.SameButActions h) : h.SameButActions g :=
  ⟨fun s => (same.symbols s).symm, fun r => (same.rules r).symm, fun e => (same.labels e).symm⟩

/-- The identifiers belong to symbols of one name, neither of them an action symbol. -/
def Namesakes (g h : Grammar) (x y : Int) : Prop :=
  ∃ s s', g.symbols.at? x = some s ∧ h.symbols.at? y = some s' ∧ s.name = s'.name ∧
    s.isAction = false ∧ s'.isAction = false

theorem Namesakes.symm (named : g.Namesakes h x y) : h.Namesakes g y x := by
  obtain ⟨s, s', at_x, at_y, same, plain, plain'⟩ := named
  exact ⟨s', s, at_y, at_x, same.symm, plain', plain⟩

theorem Namesakes.isAction (named : g.Namesakes h x y) : g.isAction x = false := by
  obtain ⟨s, s', at_x, -, -, plain, -⟩ := named
  exact (isAction_eq at_x).trans plain

theorem isAction_of_mem_erased (mem : id ∈ g.erased α) : g.isAction id = false := by
  simpa using (List.mem_filter.1 mem).2

theorem exists_of_related_append {R : Int → Int → Prop} {ε : List Int}
    (related : List.Forall₂ R (α ++ β) ε) :
    ∃ α' β', ε = α' ++ β' ∧ List.Forall₂ R α α' ∧ List.Forall₂ R β β' := by
  induction α generalizing ε with
  | nil => exact ⟨[], ε, rfl, .nil, related⟩
  | cons a α ih =>
    cases related with
    | cons first rest =>
      obtain ⟨α', β', rfl, front, back⟩ := ih rest
      exact ⟨_ :: α', β', rfl, .cons first front, back⟩

theorem mem_plainSymbols {e : String × SymbolKind × Option Precedence} :
    e ∈ g.plainSymbols ↔ ∃ id s, g.symbols.at? id = some s ∧ s.isAction = false ∧
      (s.name, s.kind, s.precedence) = e := by
  simp only [plainSymbols, List.mem_map, List.mem_filter, SymbolTable.mem_symbols, Bool.not_eq_true',
    and_assoc]
  constructor
  · rintro ⟨s, ⟨id, at_id⟩, plain, rfl⟩
    exact ⟨id, s, at_id, plain, rfl⟩
  · rintro ⟨id, s, at_id, plain, rfl⟩
    exact ⟨s, ⟨id, at_id⟩, plain, rfl⟩

/-- Symbols of one name in rows, registered and without action symbols, are namesakes one by one. -/
theorem forall₂_namesakes (plain : ∀ id ∈ α, g.isAction id = false ∧ ∃ s, g.symbols.at? id = some s)
    (plain' : ∀ id ∈ β, h.isAction id = false ∧ ∃ s, h.symbols.at? id = some s)
    (same : α.map g.nameAt = β.map h.nameAt) : List.Forall₂ (g.Namesakes h) α β := by
  have named : List.Forall₂ (fun x y => g.nameAt x = h.nameAt y) α β := by
    have := List.forall₂_eq_eq_eq.symm ▸ same
    rwa [List.forall₂_map_left_iff, List.forall₂_map_right_iff] at this
  clear same
  induction named with
  | nil => exact .nil
  | @cons x y α β name _ ih =>
    obtain ⟨⟨action, s, at_x⟩, rest⟩ := List.forall_mem_cons.1 plain
    obtain ⟨⟨action', s', at_y⟩, rest'⟩ := List.forall_mem_cons.1 plain'
    rw [nameAt_eq at_x, nameAt_eq at_y] at name
    rw [isAction_eq at_x] at action
    rw [isAction_eq at_y] at action'
    exact .cons ⟨s, s', at_x, at_y, name, action, action'⟩ (ih rest rest')

/-- Lawful grammars that are the same but for action symbols. -/
structure Kindred (g h : Grammar) : Prop where
  lawful : g.Lawful
  lawful' : h.Lawful
  same : g.SameButActions h

namespace Kindred

theorem symm (kin : g.Kindred h) : h.Kindred g := ⟨kin.lawful', kin.lawful, kin.same.symm⟩

variable (kin : g.Kindred h)
include kin

theorem unique (named : g.Namesakes h x y) (named' : g.Namesakes h x y') : y = y' := by
  obtain ⟨s, s', at_x, at_y, same, -⟩ := named
  obtain ⟨t, t', at_x', at_y', same', -⟩ := named'
  cases at_x.symm.trans at_x'
  exact kin.lawful'.table.name_inj at_y at_y' (same.symm.trans same')

theorem exists_namesake (at_x : g.symbols.at? x = some s) (plain : s.isAction = false) :
    ∃ y s', g.Namesakes h x y ∧ h.symbols.at? y = some s' ∧ s'.name = s.name ∧ s'.kind = s.kind ∧
      s'.precedence = s.precedence := by
  obtain ⟨y, s', at_y, plain', same⟩ :=
    mem_plainSymbols.1 ((kin.same.symbols _).1 (mem_plainSymbols.2 ⟨x, s, at_x, plain, rfl⟩))
  simp only [Prod.mk.injEq] at same
  obtain ⟨name, kind, precedence⟩ := same
  exact ⟨y, s', ⟨s, s', at_x, at_y, name.symm, plain, plain'⟩, at_y, name, kind, precedence⟩

/-- Namesakes are of one kind and have one precedence. -/
theorem symbols (named : g.Namesakes h x y) : ∃ s s', g.symbols.at? x = some s ∧
    h.symbols.at? y = some s' ∧ s'.name = s.name ∧ s'.kind = s.kind ∧ s'.precedence = s.precedence := by
  obtain ⟨s, -, at_x, -, -, plain, -⟩ := id named
  obtain ⟨y', s', named', at_y, rest⟩ := kin.exists_namesake at_x plain
  exact ⟨s, s', at_x, kin.unique named' named ▸ at_y, rest⟩

theorem isInput (named : g.Namesakes h x y) : h.isInput y = g.isInput x := by
  obtain ⟨s, s', at_x, at_y, -, kind, -⟩ := kin.symbols named
  rw [isInput_eq at_x, isInput_eq at_y, Symbol.isInput, Symbol.isInput, kind]

theorem isNonterminal (named : g.Namesakes h x y) : h.isNonterminal y = g.isNonterminal x := by
  obtain ⟨s, s', at_x, at_y, -, kind, -⟩ := kin.symbols named
  simp [Grammar.isNonterminal, at_x, at_y, kind]

theorem nameAt (named : g.Namesakes h x y) : h.nameAt y = g.nameAt x := by
  obtain ⟨s, s', at_x, at_y, name, -⟩ := kin.symbols named
  rw [nameAt_eq at_x, nameAt_eq at_y, name]

theorem endMarker : g.Namesakes h endMarkerId endMarkerId := by
  have plain : ∀ {k : Grammar}, k.Lawful → ∃ s, k.symbols.at? endMarkerId = some s ∧
      s.name = endMarkerName ∧ s.isAction = false := by
    intro k sound
    obtain ⟨s, at_s, named⟩ := sound.table.endMarker
    refine ⟨s, at_s, named, ?_⟩
    rw [← isAction_eq at_s]
    exact isAction_of_isInput (isInput_endMarker sound)
  obtain ⟨s, at_s, named, action⟩ := plain kin.lawful
  obtain ⟨s', at_s', named', action'⟩ := plain kin.lawful'
  exact ⟨s, s', at_s, at_s', named.trans named'.symm, action, action'⟩

/-! ## Productions -/

/-- A production has its counterpart of the same number. -/
theorem rule (hp : g.byNumber.get? n = some p) : ∃ p', h.byNumber.get? n = some p' ∧
    g.Namesakes h p.left p'.left ∧ List.Forall₂ (g.Namesakes h) (g.erased p.right) (h.erased p'.right) ∧
    p'.label = p.label := by
  have listed : (n, g.nameAt p.left, g.spelled p.right, p.label) ∈ g.plainRules :=
    List.mem_map.2 ⟨(n, p), OrderedMap.mem_toList.2 hp, rfl⟩
  obtain ⟨⟨n', p'⟩, mem, same⟩ := List.mem_map.1 ((kin.same.rules _).1 listed)
  simp only [Prod.mk.injEq] at same
  obtain ⟨rfl, left, right, label⟩ := same
  have hp' := OrderedMap.mem_toList.1 mem
  have plain : ∀ {k : Grammar} {p : Production}, k.Lawful → k.byNumber.get? n' = some p →
      (∀ id ∈ [p.left], k.isAction id = false ∧ ∃ s, k.symbols.at? id = some s) ∧
        ∀ id ∈ k.erased p.right, k.isAction id = false ∧ ∃ s, k.symbols.at? id = some s := by
    intro k p sound hp
    obtain ⟨s, at_s, -⟩ := sound.left hp
    refine ⟨fun id mem => ?_, fun id mem => ⟨isAction_of_mem_erased mem, ?_⟩⟩
    · obtain rfl := List.mem_singleton.1 mem
      exact ⟨isAction_of_isNonterminal (sound.isNonterminal_left hp), s, at_s⟩
    · exact (sound.right hp id (List.mem_filter.1 mem).1).2
  obtain ⟨plain_left, plain_right⟩ := plain kin.lawful hp
  obtain ⟨plain_left', plain_right'⟩ := plain kin.lawful' hp'
  have lefts := forall₂_namesakes plain_left plain_left' (congrArg (fun name => [name]) left.symm)
  exact ⟨p', hp', (List.forall₂_cons.1 lefts).1, forall₂_namesakes plain_right plain_right' right.symm, label⟩

/-- An occurrence in a right-hand side has its counterpart. -/
theorem occurrence (hp : g.byNumber.get? n = some p) (right : p.right = α ++ x :: γ)
    (plain : g.isAction x = false) : ∃ p' α' y γ', h.byNumber.get? n = some p' ∧
      p'.right = α' ++ y :: γ' ∧ g.Namesakes h p.left p'.left ∧ g.Namesakes h x y ∧
      List.Forall₂ (g.Namesakes h) (g.erased α) (h.erased α') ∧
      List.Forall₂ (g.Namesakes h) (g.erased γ) (h.erased γ') := by
  obtain ⟨p', hp', left, rights, -⟩ := kin.rule hp
  rw [right, erased_append, erased_cons plain] at rights
  obtain ⟨front, back, split, before, behind⟩ := exists_of_related_append rights
  cases behind with
  | @cons _ y _ rest named behind =>
    obtain ⟨α', γ', right', rfl, rfl⟩ := exists_of_erased split
    exact ⟨p', α', y, γ', hp', right', left, named, before, behind⟩

/-! ## What is derived -/

theorem vanishes (vanishes : g.Vanishes x) (named : g.Namesakes h x y) : h.Vanishes y := by
  induction vanishes generalizing y with
  | action action =>
    rw [named.isAction] at action
    cases action
  | rule hp _ ih =>
    obtain ⟨p', hp', left, rights, -⟩ := kin.rule hp
    obtain rfl := kin.unique left named
    refine .rule hp' (vanish_of_erased fun id mem => ?_)
    obtain ⟨i, at_i⟩ := List.mem_iff_getElem?.1 mem
    obtain ⟨x, at_x, named⟩ := (Attempt.related_getElem? rights).2 id at_i
    exact ih x (List.mem_filter.1 (List.mem_of_getElem? at_x)).1 named

theorem all_vanish (related : List.Forall₂ (g.Namesakes h) (g.erased γ) (h.erased δ))
    (vanish : ∀ id ∈ γ, g.Vanishes id) : ∀ id ∈ δ, h.Vanishes id := by
  refine vanish_of_erased fun id mem => ?_
  obtain ⟨i, at_i⟩ := List.mem_iff_getElem?.1 mem
  obtain ⟨x, at_x, named⟩ := (Attempt.related_getElem? related).2 id at_i
  exact kin.vanishes (vanish x (List.mem_filter.1 (List.mem_of_getElem? at_x)).1) named

theorem begins (begins : g.Begins γ t) (named : g.Namesakes h t u)
    (related : List.Forall₂ (g.Namesakes h) (g.erased γ) (h.erased δ)) : h.Begins δ u := by
  rw [← begins_erased kin.lawful']
  generalize h.erased δ = δ' at related
  induction begins generalizing δ' with
  | read input =>
    rw [erased_cons (isAction_of_isInput input)] at related
    cases related with
    | cons named' _ =>
      obtain rfl := kin.unique named' named
      exact .read ((kin.isInput named).trans input)
  | @skip id _ _ vanishes _ ih =>
    by_cases action : g.isAction id = true
    · rw [erased_cons_of_action action] at related
      exact ih named δ' related
    · rw [erased_cons (by simpa using action)] at related
      cases related with
      | cons first rest => exact .skip (kin.vanishes vanishes first) (ih named _ rest)
  | rule hp _ ih =>
    rw [erased_cons (isAction_of_isNonterminal (kin.lawful.isNonterminal_left hp))] at related
    cases related with
    | cons first _ =>
      obtain ⟨p', hp', left, rights, -⟩ := kin.rule hp
      obtain rfl := kin.unique left first
      exact .rule hp' ((begins_erased kin.lawful').1 (ih named _ rights))

theorem succeeds (succeeds : g.Succeeds start x t) (started : g.Namesakes h start start')
    (named : g.Namesakes h x y) (terminal : g.Namesakes h t u) : h.Succeeds start' y u := by
  induction succeeds generalizing y with
  | ends =>
    obtain rfl := kin.unique named started
    obtain rfl := kin.unique terminal kin.endMarker
    exact .ends
  | closes hp =>
    obtain ⟨p', hp', left, -⟩ := kin.rule hp
    obtain rfl := kin.unique named left
    obtain rfl := kin.unique terminal kin.endMarker
    exact .closes hp'
  | begins hp right nonterminal begins =>
    obtain ⟨p', α', y', γ', hp', right', -, named', -, behind⟩ :=
      kin.occurrence hp right (isAction_of_isNonterminal nonterminal)
    obtain rfl := kin.unique named named'
    exact .begins hp' right' ((kin.isNonterminal named).trans nonterminal)
      (kin.begins begins terminal behind)
  | passes hp right nonterminal vanish _ ih =>
    obtain ⟨p', α', y', γ', hp', right', left, named', -, behind⟩ :=
      kin.occurrence hp right (isAction_of_isNonterminal nonterminal)
    obtain rfl := kin.unique named named'
    exact .passes hp' right' ((kin.isNonterminal named).trans nonterminal)
      (kin.all_vanish behind vanish) (ih left terminal)

/-! ## Precedence -/

omit kin in
theorem lastTerminal_erased (registered : ∀ id ∈ α, ∃ s, g.symbols.at? id = some s) :
    precedenceOf.lastTerminal g (g.erased α) = precedenceOf.lastTerminal g α := by
  induction α with
  | nil => rfl
  | cons id α ih =>
    obtain ⟨⟨s, at_s⟩, rest⟩ := List.forall_mem_cons.1 registered
    have known : g.symbols.symbol id = .ok s := SymbolTable.symbol_eq_ok at_s
    by_cases action : g.isAction id = true
    · have other : s.kind ≠ .terminal := by
        intro terminal
        rw [isAction_eq at_s, Symbol.isAction, terminal] at action
        cases action
      rw [erased_cons_of_action action, ih rest]
      simp only [precedenceOf.lastTerminal, known, bind, Except.bind, if_neg other]
    · rw [erased_cons (by simpa using action)]
      simp only [precedenceOf.lastTerminal, known, bind, Except.bind, ih rest]

theorem lastTerminal (related : List.Forall₂ (g.Namesakes h) α β) :
    precedenceOf.lastTerminal h β = precedenceOf.lastTerminal g α := by
  induction related with
  | nil => rfl
  | cons named _ ih =>
    obtain ⟨s, s', at_x, at_y, -, kind, precedence⟩ := kin.symbols named
    have known : g.symbols.symbol _ = .ok s := SymbolTable.symbol_eq_ok at_x
    have known' : h.symbols.symbol _ = .ok s' := SymbolTable.symbol_eq_ok at_y
    simp only [precedenceOf.lastTerminal, known, known', bind, Except.bind, kind, precedence, ih]

theorem levelOf {p' : Production} (hp : g.byNumber.get? n = some p) (hp' : h.byNumber.get? n = some p') :
    h.levelOf p' = g.levelOf p := by
  obtain ⟨_, same, -, rights, label⟩ := kin.rule hp
  cases hp'.symm.trans same
  have last : ∀ {k : Grammar} {p : Production}, k.Lawful → k.byNumber.get? n = some p →
      precedenceOf.lastTerminal k p.right.reverse =
        precedenceOf.lastTerminal k (k.erased p.right).reverse := by
    intro k p sound hp
    rw [erased, ← List.filter_reverse]
    exact (lastTerminal_erased fun id mem => (sound.right hp id (List.mem_reverse.1 mem)).2).symm
  have chosen : h.precedenceOf p' = g.precedenceOf p := by
    rw [precedenceOf, precedenceOf, label]
    cases p.label with
    | some label =>
      refine congrArg Except.ok (Option.ext fun precedence => ?_)
      rw [← OrderedMap.mem_toList, ← OrderedMap.mem_toList]
      exact (kin.same.labels _).symm
    | none =>
      dsimp only
      rw [last kin.lawful hp, last kin.lawful' hp']
      exact kin.lastTerminal (List.rel_reverse rights)
  rw [Grammar.levelOf, Grammar.levelOf, chosen]

end Kindred

end ParserGenerator.Grammar
