import Mathlib.Order.FixedPoints
import ParserGenerator.Description.Basic
import ParserGenerator.Proofs.Grammar.Outline

/-!
# The language of a description

Every rule name has a language: the least one that contains what its alternatives stand for, where the
names in them are taken for their languages. A name without a rule is a terminal. Action code and the
labels of alternatives stand for nothing.
-/

namespace ParserGenerator

open scoped Computability

/-- What something that stands for a language stands for with a suffix. -/
def Suffix.language (l : Language String) : Suffix → Language String
  | .once => l
  | .opt => 1 + l
  | .star => l∗
  | .plus => l * l∗

mutual

/-- What an atom stands for if the names have the given meaning. -/
def Atom.language (ρ : Meaning) : Atom → Language String
  | .name ident suffix _ => suffix.language (ρ ident)
  | .literal text suffix _ => suffix.language {[text]}
  | .group as suffix _ => suffix.language (Alternative.languageOfAll ρ as)
  | .action _ _ => 1

def Atom.languageOfAll (ρ : Meaning) : List Atom → Language String
  | [] => 1
  | a :: as => a.language ρ * Atom.languageOfAll ρ as

def Alternative.language (ρ : Meaning) : Alternative → Language String
  | .mk items _ => Atom.languageOfAll ρ items

def Alternative.languageOfAll (ρ : Meaning) : List Alternative → Language String
  | [] => 0
  | a :: as => a.language ρ + Alternative.languageOfAll ρ as

end

variable {ρ ρ' : Meaning}

theorem Suffix.language_mono {l l' : Language String} (h : l ≤ l') :
    ∀ suffix : Suffix, suffix.language l ≤ suffix.language l'
  | .once => h
  | .opt => add_le_add_right h 1
  | .star => kstar_mono h
  | .plus => mul_le_mul' h (kstar_mono h)

mutual

theorem Atom.language_mono (h : ρ ≤ ρ') : ∀ a : Atom, a.language ρ ≤ a.language ρ'
  | .name ident suffix _ => suffix.language_mono (h ident)
  | .literal _ _ _ => le_rfl
  | .group as suffix _ => suffix.language_mono (Alternative.languageOfAll_mono h as)
  | .action _ _ => le_rfl

theorem Atom.languageOfAll_mono (h : ρ ≤ ρ') :
    ∀ as : List Atom, Atom.languageOfAll ρ as ≤ Atom.languageOfAll ρ' as
  | [] => le_rfl
  | a :: as => mul_le_mul' (a.language_mono h) (Atom.languageOfAll_mono h as)

theorem Alternative.language_mono (h : ρ ≤ ρ') :
    ∀ a : Alternative, a.language ρ ≤ a.language ρ'
  | .mk items _ => Atom.languageOfAll_mono h items

theorem Alternative.languageOfAll_mono (h : ρ ≤ ρ') :
    ∀ as : List Alternative, Alternative.languageOfAll ρ as ≤ Alternative.languageOfAll ρ' as
  | [] => le_rfl
  | a :: as => add_le_add (a.language_mono h) (Alternative.languageOfAll_mono h as)

end

namespace Description

variable (d : Description)

/-- What a name stands for by its rules, if the names in them have the given meaning. -/
def step (ρ : Meaning) : Meaning := fun name =>
  if name ∈ d.rules.map Rule.name then
    ⨆ r ∈ d.rules, ⨆ _ : r.name = name, Alternative.languageOfAll ρ r.alternatives
  else {[name]}

theorem step_mono : Monotone d.step := by
  intro ρ ρ' h name
  rw [step, step]
  split
  · exact iSup₂_mono fun r _ => iSup_mono fun _ => Alternative.languageOfAll_mono h r.alternatives
  · exact le_rfl

def stepHom : Meaning →o Meaning := ⟨d.step, d.step_mono⟩

/-- What the names stand for: the least meaning that agrees with the rules. -/
noncomputable def language : Meaning := OrderHom.lfp d.stepHom

theorem step_language : d.step d.language = d.language := OrderHom.map_lfp d.stepHom

theorem language_le {σ : Meaning} (closed : d.step σ ≤ σ) : d.language ≤ σ :=
  OrderHom.lfp_le d.stepHom closed

variable {d}

theorem language_of_no_rule {name : String} (none : name ∉ d.rules.map Rule.name) :
    d.language name = {[name]} := by
  rw [← step_language, step, if_neg none]

/-- A rule contributes what its alternatives stand for. -/
theorem languageOfAll_le {r : Rule} (mem : r ∈ d.rules) :
    Alternative.languageOfAll d.language r.alternatives ≤ d.language r.name := by
  have own : Alternative.languageOfAll d.language r.alternatives ≤ d.step d.language r.name := by
    rw [step, if_pos (List.mem_map_of_mem mem)]
    exact le_iSup₂_of_le r mem (le_iSup_of_le rfl le_rfl)
  rwa [step_language] at own

end Description

end ParserGenerator
