import Mathlib.Computability.Language
import Mathlib.Order.CompletePartialOrder
import ParserGenerator.Proofs.Grammar.Derivation

/-!
# Grammars by names

The outline of a grammar is what is seen of it by names: its productions, from which action symbols are
erased, and its terminals. The words that can be derived from the names are the least meaning that has a
place for every production and every terminal of the outline.
-/

namespace ParserGenerator

/-- What each name stands for. -/
abbrev Meaning := String → Language String

/-- The name is the start marker's or one of an action symbol. -/
def Marked (name : String) : Prop := name = Grammar.startMarkerName ∨ ∃ n, name = Grammar.actionName n

/-- Productions and terminals by their names. -/
structure Outline where
  produces : String → List String → Prop
  terminal : String → Prop

namespace Outline

variable (o : Outline)

/-- What names in a row stand for. -/
def row (σ : Meaning) (names : List String) : Language String := (names.map σ).prod

@[simp] theorem row_nil (σ : Meaning) : row σ [] = 1 := rfl

@[simp] theorem row_cons (σ : Meaning) (n : String) (ns : List String) :
    row σ (n :: ns) = σ n * row σ ns := List.prod_cons

@[simp] theorem row_append (σ : Meaning) (ns ms : List String) :
    row σ (ns ++ ms) = row σ ns * row σ ms := by
  simp [row]

/-- The meaning has a place for every production and for every terminal. -/
structure Closed (σ : Meaning) : Prop where
  production : ∀ {s r}, o.produces s r → row σ r ≤ σ s
  terminal : ∀ {t}, o.terminal t → [t] ∈ σ t

/-- The meaning is the least one with a place for every production and for every terminal. -/
structure Least (σ : Meaning) : Prop extends o.Closed σ where
  le : ∀ {τ}, o.Closed τ → σ ≤ τ

end Outline

open Outline (row)

namespace Grammar

/-- The name of the symbol of an identifier, which is empty where none is registered. -/
def nameAt (g : Grammar) (id : Int) : String := ((g.symbols.at? id).map Symbol.name).getD ""

/-- The names in a right-hand side. -/
def spelled (g : Grammar) (ids : List Int) : List String := (g.erased ids).map g.nameAt

def outline (g : Grammar) : Outline where
  produces s r := ∃ n p, g.byNumber.get? n = some p ∧ g.nameAt p.left = s ∧ g.spelled p.right = r
  terminal t := ∃ id s, g.symbols.at? id = some s ∧ s.isInput = true ∧ s.name = t

/-- The words of terminal names that can be derived from the symbol of a name. -/
def language (g : Grammar) : Meaning := fun name =>
  {ws | ∃ id w, g.symbols.idOf name = .ok id ∧ g.Terminals w ∧ g.Derives [id] w ∧ w.map g.nameAt = ws}

variable {g : Grammar} {id : Int} {s : Symbol} {name : String} {α w : List Int} {σ : Meaning}

theorem nameAt_eq (at_s : g.symbols.at? id = some s) : g.nameAt id = s.name := by
  simp [nameAt, at_s]

theorem mem_language (named : g.symbols.idOf name = .ok id) {ws : List String} :
    ws ∈ g.language name ↔ ∃ w, g.Yields [id] w ∧ w.map g.nameAt = ws := by
  constructor
  · rintro ⟨id', w, named', terminal, derives, eq⟩
    rw [named] at named'
    cases named'
    exact ⟨w, yields_of_derives derives terminal, eq⟩
  · rintro ⟨w, yields, eq⟩
    obtain ⟨ns, derived⟩ := yields.rightmost
    exact ⟨id, w, named, yields.terminals, derived.derives, eq⟩

/-- What a form yields is what its names in a row stand for, in every meaning with a place for it. -/
theorem Yields.mem_row (closed : g.outline.Closed σ) (yields : g.Yields α w) :
    w.map g.nameAt ∈ row σ (α.map g.nameAt) := by
  induction yields with
  | nil => exact Language.nil_mem_one
  | read input _ ih =>
    rename_i t _ _ _
    obtain ⟨s, at_s, input⟩ := isInput_iff.1 input
    have terminal : g.outline.terminal (g.nameAt t) := ⟨t, s, at_s, input, (nameAt_eq at_s).symm⟩
    simpa using Language.append_mem_mul (closed.terminal terminal) ih
  | rule hp _ _ own rest =>
    have inside := closed.production ⟨_, _, hp, rfl, rfl⟩ own
    simpa using Language.append_mem_mul inside rest

theorem Lawful.exists_yields (sound : g.Lawful) (registered : ∀ id ∈ α, ∃ s, g.symbols.at? id = some s) :
    ∀ {ws}, ws ∈ row g.language (α.map g.nameAt) → ∃ w, g.Yields α w ∧ w.map g.nameAt = ws := by
  induction α with
  | nil =>
    intro ws mem
    exact ⟨[], .nil, mem.symm⟩
  | cons id α ih =>
    intro ws mem
    obtain ⟨⟨s, at_s⟩, rest⟩ := List.forall_mem_cons.1 registered
    have named : g.symbols.idOf (g.nameAt id) = .ok id :=
      sound.table.idOf_eq_ok.2 ⟨s, at_s, (nameAt_eq at_s).symm⟩
    rw [List.map_cons, Outline.row_cons, Language.mem_mul] at mem
    obtain ⟨us, first, vs, second, rfl⟩ := mem
    obtain ⟨u, yields, rfl⟩ := (mem_language named).1 first
    obtain ⟨v, yields', rfl⟩ := ih rest second
    exact ⟨u ++ v, yields.append yields', List.map_append⟩

theorem Lawful.closed_language (sound : g.Lawful) : g.outline.Closed g.language where
  production := by
    rintro s r ⟨n, p, hp, rfl, rfl⟩ ws mem
    obtain ⟨left, at_left, -⟩ := sound.left hp
    have named : g.symbols.idOf (g.nameAt p.left) = .ok p.left :=
      sound.table.idOf_eq_ok.2 ⟨left, at_left, (nameAt_eq at_left).symm⟩
    have registered : ∀ id ∈ g.erased p.right, ∃ s, g.symbols.at? id = some s :=
      fun id kept => (sound.right hp id (List.mem_of_mem_filter kept)).2
    obtain ⟨w, yields, rfl⟩ := sound.exists_yields registered mem
    refine (mem_language named).2 ⟨w, ?_, rfl⟩
    have := Yields.rule hp yields .nil
    rwa [List.append_nil] at this
  terminal := by
    rintro t ⟨id, s, at_s, input, rfl⟩
    have named : g.symbols.idOf s.name = .ok id := sound.table.idOf_eq_ok.2 ⟨s, at_s, rfl⟩
    refine (mem_language named).2 ⟨[id], .read (isInput_iff.2 ⟨s, at_s, input⟩) .nil, ?_⟩
    simp [nameAt_eq at_s]

/-- The derived words are the least meaning of the outline. -/
theorem Lawful.least_language (sound : g.Lawful) : g.outline.Least g.language where
  toClosed := sound.closed_language
  le := by
    rintro τ closed name ws ⟨id, w, named, terminal, derives, rfl⟩
    have mem := (yields_of_derives derives terminal).mem_row closed
    obtain ⟨s, at_s, rfl⟩ := sound.table.idOf_eq_ok.1 named
    rw [List.map_singleton, nameAt_eq at_s, Outline.row_cons, Outline.row_nil, mul_one] at mem
    exact mem

end Grammar

end ParserGenerator
