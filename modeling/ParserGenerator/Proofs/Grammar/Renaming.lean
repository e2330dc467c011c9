import Mathlib.Data.Set.Function
import ParserGenerator.Proofs.Analysis.Frame

/-!
# Grammars with other identifiers

Two grammars can be the same but for the identifiers of their symbols, as they are when terminals are
declared in another order. A map of the identifiers then carries what vanishes, what begins and what
succeeds over to the other grammar, and the inverse map carries it back.
-/

namespace ParserGenerator.Grammar

variable {g h : Grammar} {σ τ : Int → Int} {marker start x y t n : Int} {s : Symbol} {p p' : Production}
  {α γ : List Int}

/-- The map carries the symbols and the productions of one grammar to those of the other. Symbols keep
their kinds and terminals their precedences; productions keep their numbers and, where one has a label, the
precedence that it takes. The start symbol goes along with production 0. -/
structure Renames (g : Grammar) (σ : Int → Int) (h : Grammar) : Prop where
  bijective : Set.BijOn σ {x | x ∈ g.ids} {y | y ∈ h.ids}
  endMarker : σ endMarkerId = endMarkerId
  kind : ∀ x ∈ g.ids, (h.symbols.at? (σ x)).map Symbol.kind = (g.symbols.at? x).map Symbol.kind
  precedence : ∀ x ∈ g.ids, (g.symbols.at? x).map Symbol.kind = some .terminal →
    (h.symbols.at? (σ x)).bind Symbol.precedence = (g.symbols.at? x).bind Symbol.precedence
  rules : ∀ n, (h.byNumber.get? n).map (fun p => (p.left, p.right)) =
    (g.byNumber.get? n).map fun p => (σ p.left, p.right.map σ)
  labels : ∀ n p p', g.byNumber.get? n = some p → h.byNumber.get? n = some p' →
    p.label.isSome ∨ p'.label.isSome → h.precedenceOf p' = g.precedenceOf p

theorem renames_iff : g.Renames σ h ↔
    ((∀ x ∈ g.ids, σ x ∈ h.ids) ∧ (∀ x ∈ g.ids, ∀ y ∈ g.ids, σ x = σ y → x = y) ∧
      ∀ y ∈ h.ids, ∃ x ∈ g.ids, σ x = y) ∧
    σ endMarkerId = endMarkerId ∧
    (∀ x ∈ g.ids, (h.symbols.at? (σ x)).map Symbol.kind = (g.symbols.at? x).map Symbol.kind) ∧
    (∀ x ∈ g.ids, (g.symbols.at? x).map Symbol.kind = some .terminal →
      (h.symbols.at? (σ x)).bind Symbol.precedence = (g.symbols.at? x).bind Symbol.precedence) ∧
    (∀ n ∈ g.byNumber.keys ++ h.byNumber.keys, (h.byNumber.get? n).map (fun p => (p.left, p.right)) =
      (g.byNumber.get? n).map fun p => (σ p.left, p.right.map σ)) ∧
    ∀ n ∈ g.byNumber.keys, ∀ p ∈ g.byNumber.get? n, ∀ p' ∈ h.byNumber.get? n,
      p.label.isSome ∨ p'.label.isSome → h.precedenceOf p' = g.precedenceOf p := by
  constructor
  · rintro ⟨⟨maps, inj, surj⟩, endMarker, kind, precedence, rules, labels⟩
    exact ⟨⟨fun _ mem => maps mem, fun _ mem _ mem' => inj mem mem', fun _ mem => surj mem⟩, endMarker, kind,
      precedence, fun n _ => rules n, fun n _ p hp p' hp' => labels n p p' hp hp'⟩
  · rintro ⟨⟨maps, inj, surj⟩, endMarker, kind, precedence, rules, labels⟩
    refine ⟨⟨fun x mem => maps x mem, fun x mem y mem' => inj x mem y mem', fun y mem => surj y mem⟩,
      endMarker, kind, precedence, fun n => ?_, fun n p p' hp hp' => ?_⟩
    · by_cases listed : n ∈ g.byNumber.keys ++ h.byNumber.keys
      · exact rules n listed
      · rw [List.mem_append, not_or] at listed
        rw [OrderedMap.get?_eq_none.2 listed.1, OrderedMap.get?_eq_none.2 listed.2]
        rfl
    · exact labels n (OrderedMap.mem_keys.2 ⟨p, hp⟩) p hp p' hp'

instance : Decidable (g.Renames σ h) := decidable_of_iff _ renames_iff.symm

/-- Two maps that undo each other carry each grammar to the other. -/
structure Mirrored (g : Grammar) (σ τ : Int → Int) (h : Grammar) : Prop where
  lawful : g.Lawful
  lawful' : h.Lawful
  there : g.Renames σ h
  back : h.Renames τ g
  undone : ∀ x ∈ g.ids, τ (σ x) = x
  undone' : ∀ y ∈ h.ids, σ (τ y) = y

theorem Renames.having (renames : g.Renames σ h) (f f' : Facts) : (g.having f).Renames σ (h.having f') where
  bijective := renames.bijective
  endMarker := renames.endMarker
  kind := renames.kind
  precedence := renames.precedence
  rules := renames.rules
  labels := by
    intro n p p' hp hp' labelled
    rw [precedenceOf_having, precedenceOf_having]
    exact renames.labels n p p' hp hp' labelled

theorem Mirrored.having (mirrored : g.Mirrored σ τ h) (f f' : Facts) :
    (g.having f).Mirrored σ τ (h.having f') where
  lawful := mirrored.lawful.having f
  lawful' := mirrored.lawful'.having f'
  there := mirrored.there.having f f'
  back := mirrored.back.having f' f
  undone := mirrored.undone
  undone' := mirrored.undone'

theorem Lawful.left_mem_ids (sound : g.Lawful) (hp : g.byNumber.get? n = some p) : p.left ∈ g.ids := by
  obtain ⟨s, at_s, -⟩ := sound.left hp
  exact (mem_ids sound).2 ⟨s, at_s⟩

theorem Lawful.right_mem_ids (sound : g.Lawful) (hp : g.byNumber.get? n = some p) :
    ∀ x ∈ p.right, x ∈ g.ids :=
  fun x mem => (mem_ids sound).2 (sound.right hp x mem).2

theorem Renames.rule (renames : g.Renames σ h) (hp : g.byNumber.get? n = some p) :
    ∃ p', h.byNumber.get? n = some p' ∧ p'.left = σ p.left ∧ p'.right = p.right.map σ := by
  have same := renames.rules n
  rw [hp, Option.map_some, Option.map_eq_some_iff] at same
  obtain ⟨p', hp', eq⟩ := same
  exact ⟨p', hp', (Prod.mk.inj eq).1, (Prod.mk.inj eq).2⟩

/-- A map has an inverse that carries everything back. -/
theorem Renames.exists_inverse (renames : g.Renames σ h) (sound : g.Lawful) (sound' : h.Lawful) :
    ∃ τ, g.Mirrored σ τ h := by
  have inverse := renames.bijective.invOn_invFunOn
  set τ := Function.invFunOn σ {x | x ∈ g.ids}
  have undone : ∀ x ∈ g.ids, τ (σ x) = x := fun x mem => inverse.1 mem
  have undone' : ∀ y ∈ h.ids, σ (τ y) = y := fun y mem => inverse.2 mem
  have bijective : Set.BijOn τ {y | y ∈ h.ids} {x | x ∈ g.ids} := renames.bijective.symm inverse.symm
  have listed : ∀ y ∈ h.ids, τ y ∈ g.ids := fun y mem => bijective.mapsTo mem
  refine ⟨τ, sound, sound', renames, ⟨bijective, ?_, ?_, ?_, ?_, ?_⟩, undone, undone'⟩
  · have known : endMarkerId ∈ g.ids := by
      obtain ⟨s, at_s, -⟩ := sound.table.endMarker
      exact (mem_ids sound).2 ⟨s, at_s⟩
    have fixed := undone _ known
    rwa [renames.endMarker] at fixed
  · intro y mem
    have same := renames.kind (τ y) (listed y mem)
    rw [undone' y mem] at same
    exact same.symm
  · intro y mem terminal
    have same := renames.kind (τ y) (listed y mem)
    have carried := renames.precedence (τ y) (listed y mem)
    rw [undone' y mem] at same carried
    exact (carried (same.symm.trans terminal)).symm
  · intro n
    cases hp : g.byNumber.get? n with
    | none =>
      have same := renames.rules n
      rw [hp, Option.map_none, Option.map_eq_none_iff] at same
      rw [same]
      rfl
    | some p =>
      obtain ⟨p', hp', left, right⟩ := renames.rule hp
      have kept : (p.right.map σ).map τ = p.right := by
        rw [List.map_map]
        exact (List.map_congr_left fun x mem => undone x (sound.right_mem_ids hp x mem)).trans (List.map_id _)
      rw [hp', Option.map_some, Option.map_some, left, right, undone _ (sound.left_mem_ids hp), kept]
  · intro n p' p hp' hp labelled
    exact (renames.labels n p p' hp hp' labelled.symm).symm

namespace Mirrored

theorem symm (mirrored : g.Mirrored σ τ h) : h.Mirrored τ σ g :=
  ⟨mirrored.lawful', mirrored.lawful, mirrored.back, mirrored.there, mirrored.undone', mirrored.undone⟩

variable (mirrored : g.Mirrored σ τ h)
include mirrored

theorem known (mem : x ∈ g.ids) : σ x ∈ h.ids := mirrored.there.bijective.mapsTo mem

theorem inj (mem : x ∈ g.ids) (mem' : y ∈ g.ids) (same : σ x = σ y) : x = y :=
  mirrored.there.bijective.injOn mem mem' same

/-- A symbol has its counterpart. -/
theorem symbol (at_x : g.symbols.at? x = some s) : ∃ s', h.symbols.at? (σ x) = some s' ∧
    s'.kind = s.kind ∧ (s.kind = .terminal → s'.precedence = s.precedence) := by
  have mem : x ∈ g.ids := (mem_ids mirrored.lawful).2 ⟨s, at_x⟩
  have kind := mirrored.there.kind x mem
  have precedence := mirrored.there.precedence x mem
  rw [at_x, Option.map_some, Option.map_eq_some_iff] at kind
  obtain ⟨s', at_x', kind⟩ := kind
  rw [at_x, at_x'] at precedence
  exact ⟨s', at_x', kind, fun terminal => precedence (congrArg some terminal)⟩

theorem isInput (mem : x ∈ g.ids) : h.isInput (σ x) = g.isInput x := by
  obtain ⟨s, at_x⟩ := (mem_ids mirrored.lawful).1 mem
  obtain ⟨s', at_x', kind, -⟩ := mirrored.symbol at_x
  rw [isInput_eq at_x, isInput_eq at_x', Symbol.isInput, Symbol.isInput, kind]

theorem isAction (mem : x ∈ g.ids) : h.isAction (σ x) = g.isAction x := by
  obtain ⟨s, at_x⟩ := (mem_ids mirrored.lawful).1 mem
  obtain ⟨s', at_x', kind, -⟩ := mirrored.symbol at_x
  rw [isAction_eq at_x, isAction_eq at_x', Symbol.isAction, Symbol.isAction, kind]

theorem isNonterminal (nonterminal : g.isNonterminal x = true) : h.isNonterminal (σ x) = true := by
  obtain ⟨s, at_x, kind⟩ := isNonterminal_iff.1 nonterminal
  obtain ⟨s', at_x', same, -⟩ := mirrored.symbol at_x
  exact isNonterminal_iff.2 ⟨s', at_x', same.trans kind⟩

theorem erased (known : ∀ x ∈ α, x ∈ g.ids) : h.erased (α.map σ) = (g.erased α).map σ := by
  rw [Grammar.erased, Grammar.erased, List.filter_map]
  exact congrArg (List.map σ) (List.filter_congr fun x mem => congrArg not (mirrored.isAction (known x mem)))

theorem erased_right (hp : g.byNumber.get? n = some p) (right : p'.right = p.right.map σ) :
    h.erased p'.right = (g.erased p.right).map σ := by
  rw [right, mirrored.erased (mirrored.lawful.right_mem_ids hp)]

/-! ## What is derived -/

theorem vanishes (vanishes : g.Vanishes x) : h.Vanishes (σ x) := by
  induction vanishes with
  | action action =>
    obtain ⟨s, at_x, -⟩ := isAction_iff.1 action
    exact .action ((mirrored.isAction ((mem_ids mirrored.lawful).2 ⟨s, at_x⟩)).trans action)
  | rule hp _ ih =>
    obtain ⟨p', hp', left, right⟩ := mirrored.there.rule hp
    rw [← left]
    exact .rule hp' (by rw [right]; exact List.forall_mem_map.2 ih)

theorem begins (begins : g.Begins γ t) : h.Begins (γ.map σ) (σ t) := by
  induction begins with
  | read input =>
    obtain ⟨s, at_t, -⟩ := isInput_iff.1 input
    exact .read ((mirrored.isInput ((mem_ids mirrored.lawful).2 ⟨s, at_t⟩)).trans input)
  | skip vanishes _ ih => exact .skip (mirrored.vanishes vanishes) ih
  | rule hp _ ih =>
    obtain ⟨p', hp', left, right⟩ := mirrored.there.rule hp
    rw [List.map_cons, ← left]
    exact .rule hp' (right ▸ ih)

theorem succeeds (succeeds : g.Succeeds start x t) : h.Succeeds (σ start) (σ x) (σ t) := by
  induction succeeds with
  | ends =>
    rw [mirrored.there.endMarker]
    exact .ends
  | closes hp =>
    obtain ⟨p', hp', left, -⟩ := mirrored.there.rule hp
    rw [mirrored.there.endMarker, ← left]
    exact .closes hp'
  | begins hp right nonterminal begins =>
    obtain ⟨p', hp', -, right'⟩ := mirrored.there.rule hp
    rw [right, List.map_append, List.map_cons] at right'
    exact .begins hp' right' (mirrored.isNonterminal nonterminal) (mirrored.begins begins)
  | passes hp right nonterminal vanish _ ih =>
    obtain ⟨p', hp', left, right'⟩ := mirrored.there.rule hp
    rw [right, List.map_append, List.map_cons] at right'
    exact .passes hp' right' (mirrored.isNonterminal nonterminal)
      (List.forall_mem_map.2 fun x mem => mirrored.vanishes (vanish x mem)) (left ▸ ih)

/-! ## Precedence -/

theorem lastTerminal (known : ∀ x ∈ α, x ∈ g.ids) :
    precedenceOf.lastTerminal h (α.map σ) = precedenceOf.lastTerminal g α := by
  induction α with
  | nil => rfl
  | cons x α ih =>
    obtain ⟨first, rest⟩ := List.forall_mem_cons.1 known
    obtain ⟨s, at_x⟩ := (mem_ids mirrored.lawful).1 first
    obtain ⟨s', at_x', kind, precedence⟩ := mirrored.symbol at_x
    have found : g.symbols.symbol x = .ok s := SymbolTable.symbol_eq_ok at_x
    have found' : h.symbols.symbol (σ x) = .ok s' := SymbolTable.symbol_eq_ok at_x'
    simp only [List.map_cons, precedenceOf.lastTerminal, found, found', bind, Except.bind, kind, ih rest]
    by_cases terminal : s.kind = .terminal
    · rw [if_pos terminal, if_pos terminal, precedence terminal]
    · rw [if_neg terminal, if_neg terminal]

theorem levelOf (hp : g.byNumber.get? n = some p) (hp' : h.byNumber.get? n = some p') :
    h.levelOf p' = g.levelOf p := by
  have same : h.precedenceOf p' = g.precedenceOf p := by
    by_cases labelled : p.label.isSome ∨ p'.label.isSome
    · exact mirrored.there.labels n p p' hp hp' labelled
    · simp only [not_or, Bool.not_eq_true, Option.isSome_eq_false_iff, Option.isNone_iff_eq_none] at labelled
      obtain ⟨p'', hp'', -, right⟩ := mirrored.there.rule hp
      cases hp'.symm.trans hp''
      rw [precedenceOf, precedenceOf, labelled.1, labelled.2]
      dsimp only
      rw [right, ← List.map_reverse, mirrored.lastTerminal fun x mem =>
        mirrored.lawful.right_mem_ids hp x (List.mem_reverse.1 mem)]
  rw [Grammar.levelOf, Grammar.levelOf, same]

end Mirrored

end ParserGenerator.Grammar
