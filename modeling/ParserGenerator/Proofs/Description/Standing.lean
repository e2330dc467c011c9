import Mathlib.Order.ConditionallyCompleteLattice.Basic
import ParserGenerator.Description.Lowering
import ParserGenerator.Proofs.Description.Language

/-!
# Rows of names that stand for parts of a description

A part of a description stands as a row of names, of which some have productions of their own: those of a
group are its alternatives, those of a repeated part are the empty one and one that goes on. The least
meaning of the names is then that of the description, in both directions: it has a place for whatever the
description stands for, and whatever it must have a place for is something the description stands for.
-/

namespace ParserGenerator

open scoped Computability

/-! ## Names -/

/-- The sorts of nonterminals that lowering makes. -/
inductive Helper where
  | group | repetition | option
  deriving DecidableEq

def Helper.name : Helper → Nat → String
  | .group => Lowering.groupName
  | .repetition => Lowering.repetitionName
  | .option => Lowering.optionName

/-- The name is marked or is one that a helper can have. -/
def Reserved (name : String) : Prop := Marked name ∨ ∃ (h : Helper) (n : Nat), name = h.name n

open Outline (row)

/-! ## What stands for a part -/

/-- The row stands for a name with a suffix. -/
def Suffix.Stands (o : Outline) (base : String) : Suffix → List String → Prop
  | .once, ns => ns = [base]
  | .opt, ns => ∃ s, ns = [s] ∧ ∀ r, o.produces s r ↔ r = [] ∨ r = [base]
  | .star, ns => ∃ s, ns = [s] ∧ ∀ r, o.produces s r ↔ r = [] ∨ r = [base, s]
  | .plus, ns => ∃ s, ns = [base, s] ∧ ∀ r, o.produces s r ↔ r = [] ∨ r = [base, s]

mutual

/-- The row stands for the atom. -/
def Atom.Stands (o : Outline) : Atom → List String → Prop
  | .name ident suffix _, ns => ¬ Reserved ident ∧ suffix.Stands o ident ns
  | .literal text suffix _, ns => o.terminal text ∧ suffix.Stands o text ns
  | .group as suffix _, ns => ∃ s, ¬ o.terminal s ∧
      (∀ r, o.produces s r → Alternative.SomeStands o as r) ∧ Alternative.AllStand o s as ∧
      suffix.Stands o s ns
  | .action _ _, ns => ns = []

def Atom.StandInRow (o : Outline) : List Atom → List String → Prop
  | [], ns => ns = []
  | a :: as, ns => ∃ ms ms', ns = ms ++ ms' ∧ a.Stands o ms ∧ Atom.StandInRow o as ms'

def Alternative.Stands (o : Outline) : Alternative → List String → Prop
  | .mk items _, ns => Atom.StandInRow o items ns

/-- The row stands for one of the alternatives. -/
def Alternative.SomeStands (o : Outline) : List Alternative → List String → Prop
  | [], _ => False
  | a :: as, ns => a.Stands o ns ∨ Alternative.SomeStands o as ns

/-- Every alternative stands as a production of the name. -/
def Alternative.AllStand (o : Outline) (name : String) : List Alternative → Prop
  | [] => True
  | a :: as => (∃ r, o.produces name r ∧ a.Stands o r) ∧ Alternative.AllStand o name as

end

/-- The productions of an outline are those of the rules and of helpers that stand for parts of them. -/
structure Outline.Realizes (o : Outline) (d : Description) : Prop where
  sound : ∀ {s r}, ¬ Reserved s → o.produces s r →
    ∃ rule ∈ d.rules, rule.name = s ∧ Alternative.SomeStands o rule.alternatives r
  complete : ∀ rule ∈ d.rules, Alternative.AllStand o rule.name rule.alternatives
  known : ∀ {s r n}, o.produces s r → n ∈ r → ¬ Reserved n →
    o.terminal n ∨ n ∈ d.rules.map Rule.name
  not_terminal : ∀ {s r}, o.produces s r → ¬ o.terminal s
  rules : ∀ rule ∈ d.rules, ¬ o.terminal rule.name ∧ ¬ Reserved rule.name

namespace Outline

variable {o : Outline} {d : Description} {σ : Meaning}

/-- The names in the row that no helper has are those of terminals and of rules. -/
def Known (o : Outline) (d : Description) (ns : List String) : Prop :=
  ∀ n ∈ ns, ¬ Reserved n → o.terminal n ∨ n ∈ d.rules.map Rule.name

/-! ## What the description stands for has a place -/

/-- Names of rules have their meaning in an outline, all others are terminals. -/
noncomputable def ruled (d : Description) (σ : Meaning) : Meaning := fun name =>
  if name ∈ d.rules.map Rule.name then σ name else {[name]}

theorem singleton_le {t : String} (h : [t] ∈ σ t) : ({[t]} : Language String) ≤ σ t := by
  rintro w rfl
  exact h

theorem Closed.ruled_le (closed : o.Closed σ) {name : String}
    (known : o.terminal name ∨ name ∈ d.rules.map Rule.name) : ruled d σ name ≤ σ name := by
  rw [ruled]
  split
  · exact le_rfl
  · rename_i other
    exact singleton_le (closed.terminal (known.resolve_right other))

/-- What goes on by a production with itself at the end contains all repetitions. -/
theorem Closed.kstar_le (closed : o.Closed σ) {base s : String} {l : Language String} (small : l ≤ σ base)
    (own : ∀ r, o.produces s r ↔ r = [] ∨ r = [base, s]) : l∗ ≤ σ s := by
  have empty : (1 : Language String) ≤ σ s := closed.production ((own []).2 (.inl rfl))
  have more : σ base * σ s ≤ σ s := by
    have := closed.production ((own _).2 (.inr rfl))
    rwa [row_cons, row_cons, row_nil, mul_one] at this
  have : l∗ * 1 ≤ σ s := kstar_mul_le empty ((mul_le_mul' small le_rfl).trans more)
  rwa [mul_one] at this

theorem Closed.suffix_le (closed : o.Closed σ) {base : String} {ns : List String} {l : Language String}
    (small : l ≤ σ base) : ∀ {suffix : Suffix}, suffix.Stands o base ns → suffix.language l ≤ row σ ns
  | .once, stands => by
    rw [Suffix.Stands] at stands
    rw [stands, row_cons, row_nil, mul_one]
    exact small
  | .opt, stands => by
    obtain ⟨s, rfl, own⟩ := stands
    have empty : (1 : Language String) ≤ σ s := closed.production ((own []).2 (.inl rfl))
    have one := closed.production ((own _).2 (.inr rfl))
    rw [row_cons, row_nil, mul_one] at one ⊢
    exact add_le empty (small.trans one)
  | .star, stands => by
    obtain ⟨s, rfl, own⟩ := stands
    rw [row_cons, row_nil, mul_one]
    exact closed.kstar_le small own
  | .plus, stands => by
    obtain ⟨s, rfl, own⟩ := stands
    rw [row_cons, row_cons, row_nil, mul_one]
    exact mul_le_mul' small (closed.kstar_le small own)

/-- What stands in a known row with a suffix is known itself. -/
theorem Realizes.known_base (real : o.Realizes d) {base : String} {ns : List String}
    (known : o.Known d ns) : ∀ {suffix : Suffix}, suffix.Stands o base ns → o.Known d [base]
  | .once, stands => by
    rw [Suffix.Stands] at stands
    rwa [stands] at known
  | .opt, ⟨_, _, own⟩ => fun _ mem => real.known ((own _).2 (.inr rfl)) mem
  | .star, ⟨_, _, own⟩ => fun n mem =>
    real.known ((own _).2 (.inr rfl)) (by rw [List.mem_singleton.1 mem]; exact List.mem_cons_self)
  | .plus, ⟨_, eq, _⟩ => fun n mem =>
    known n (by rw [eq, List.mem_singleton.1 mem]; exact List.mem_cons_self)

end Outline

open Outline (ruled)

variable {o : Outline} {d : Description} {σ : Meaning}

mutual

theorem Atom.language_le_row (real : o.Realizes d) (closed : o.Closed σ) :
    ∀ (a : Atom) {ns : List String}, a.Stands o ns → o.Known d ns → a.language (ruled d σ) ≤ row σ ns
  | .name ident suffix _, _, ⟨free, stands⟩, known =>
    closed.suffix_le (closed.ruled_le (real.known_base known stands ident List.mem_cons_self free)) stands
  | .literal _ suffix _, _, ⟨terminal, stands⟩, _ =>
    closed.suffix_le (Outline.singleton_le (closed.terminal terminal)) stands
  | .group as suffix _, _, ⟨_, _, _, all, stands⟩, _ =>
    closed.suffix_le (Alternative.languageOfAll_le_of_allStand real closed as all) stands
  | .action _ _, ns, stands, _ => by
    rw [Atom.Stands] at stands
    rw [stands, Atom.language]
    exact le_rfl

theorem Atom.languageOfAll_le_row (real : o.Realizes d) (closed : o.Closed σ) :
    ∀ (as : List Atom) {ns : List String}, Atom.StandInRow o as ns → o.Known d ns →
      Atom.languageOfAll (ruled d σ) as ≤ row σ ns
  | [], ns, stands, _ => by
    rw [Atom.StandInRow] at stands
    rw [stands, Atom.languageOfAll]
    exact le_rfl
  | a :: as, _, ⟨ms, ms', eq, first, rest⟩, known => by
    rw [eq] at known
    rw [eq, Outline.row_append]
    exact mul_le_mul'
      (a.language_le_row real closed first fun n mem => known n (List.mem_append_left _ mem))
      (Atom.languageOfAll_le_row real closed as rest fun n mem => known n (List.mem_append_right _ mem))

theorem Alternative.language_le_row (real : o.Realizes d) (closed : o.Closed σ) :
    ∀ (a : Alternative) {ns : List String}, a.Stands o ns → o.Known d ns →
      a.language (ruled d σ) ≤ row σ ns
  | .mk items _, _, stands, known => Atom.languageOfAll_le_row real closed items stands known

theorem Alternative.languageOfAll_le_of_allStand (real : o.Realizes d) (closed : o.Closed σ) :
    ∀ (as : List Alternative) {name : String}, Alternative.AllStand o name as →
      Alternative.languageOfAll (ruled d σ) as ≤ σ name
  | [], _, _ => bot_le
  | a :: as, _, ⟨⟨_, produced, stands⟩, rest⟩ =>
    add_le ((a.language_le_row real closed stands fun _ mem => real.known produced mem).trans
      (closed.production produced)) (Alternative.languageOfAll_le_of_allStand real closed as rest)

end

theorem Description.language_le_of_closed (real : o.Realizes d) (closed : o.Closed σ) {name : String}
    (mem : name ∈ d.rules.map Rule.name) : d.language name ≤ σ name := by
  have stepped : d.step (ruled d σ) ≤ ruled d σ := by
    intro name
    rw [Description.step, ruled]
    split
    · refine iSup₂_le fun r rule => iSup_le ?_
      rintro rfl
      exact Alternative.languageOfAll_le_of_allStand real closed _ (real.complete r rule)
    · exact le_rfl
  have := d.language_le stepped name
  rwa [ruled, if_pos mem] at this

/-! ## Nothing else has a place -/

/-- What everything that the name stands for by itself has in common. -/
noncomputable def Outline.common (o : Outline) (d : Description) : Meaning := fun s =>
  ⨅ (a : Atom) (_ : a.Stands o [s]), a.language d.language

theorem Outline.common_le {s : String} {a : Atom} (alone : a.Stands o [s]) :
    o.common d s ≤ a.language d.language := iInf₂_le a alone

/-- An atom apart from its suffix: what it is with each suffix, the name that stands for it without one,
and what it stands for then. -/
structure Outline.Base (o : Outline) (d : Description) (part : Suffix → Atom) (base : String)
    (l : Language String) : Prop where
  stands : ∀ {suffix ns}, suffix.Stands o base ns → (part suffix).Stands o ns
  means : ∀ suffix, (part suffix).language d.language = suffix.language l

namespace Outline.Base

variable {part : Suffix → Atom} {base : String} {l : Language String} (b : o.Base d part base l)
include b

theorem once_le : o.common d base ≤ l :=
  (common_le (b.stands (show Suffix.once.Stands o base [base] from rfl))).trans_eq (b.means .once)

theorem star_le {s : String} (own : ∀ r, o.produces s r ↔ r = [] ∨ r = [base, s]) :
    o.common d s ≤ l∗ :=
  (common_le (b.stands (show Suffix.star.Stands o base [s] from ⟨s, rfl, own⟩))).trans_eq (b.means .star)

theorem row_le {ns : List String} :
    ∀ {suffix : Suffix}, suffix.Stands o base ns → row (o.common d) ns ≤ suffix.language l
  | .once, own => by
    rw [Suffix.Stands] at own
    rw [own, row_cons, row_nil, mul_one]
    exact b.once_le
  | .opt, own => by
    obtain ⟨s, rfl, own⟩ := own
    have alone : Suffix.opt.Stands o base [s] := ⟨s, rfl, own⟩
    rw [row_cons, row_nil, mul_one]
    exact (common_le (b.stands alone)).trans_eq (b.means .opt)
  | .star, own => by
    obtain ⟨s, rfl, own⟩ := own
    rw [row_cons, row_nil, mul_one]
    exact b.star_le own
  | .plus, own => by
    obtain ⟨s, rfl, own⟩ := own
    rw [row_cons, row_cons, row_nil, mul_one]
    exact mul_le_mul' b.once_le (b.star_le own)

/-- A production of what stands for the atom with a suffix gives nothing else than the atom does. -/
theorem production_le (once : ∀ r, o.produces base r → row (o.common d) r ≤ l) {s : String}
    {r : List String} (produced : o.produces s r) :
    ∀ {suffix : Suffix}, suffix.Stands o base [s] → row (o.common d) r ≤ suffix.language l
  | .once, own => by
    rw [Suffix.Stands, List.singleton_inj] at own
    exact once r (own ▸ produced)
  | .opt, own => by
    obtain ⟨s', eq, own⟩ := own
    rw [← List.singleton_inj.1 eq] at own
    rcases (own r).1 produced with rfl | rfl
    · exact le_self_add
    · rw [row_cons, row_nil, mul_one]
      exact b.once_le.trans le_add_self
  | .star, own => by
    obtain ⟨s', eq, own⟩ := own
    rw [← List.singleton_inj.1 eq] at own
    rcases (own r).1 produced with rfl | rfl
    · exact one_le_kstar
    · rw [row_cons, row_cons, row_nil, mul_one]
      exact (mul_le_mul' b.once_le (b.star_le own)).trans mul_kstar_le_kstar
  | .plus, own => by
    obtain ⟨s', eq, -⟩ := own
    cases eq

theorem terminal_mem (once : o.terminal base → [base] ∈ l) {t : String} (terminal : o.terminal t)
    (barren : ∀ r, ¬ o.produces t r) :
    ∀ {suffix : Suffix}, suffix.Stands o base [t] → [t] ∈ suffix.language l
  | .once, own => by
    rw [Suffix.Stands, List.singleton_inj] at own
    subst own
    exact once terminal
  | .opt, own => by
    obtain ⟨s, eq, own⟩ := own
    rw [← List.singleton_inj.1 eq] at own
    exact absurd ((own []).2 (.inl rfl)) (barren [])
  | .star, own => by
    obtain ⟨s, eq, own⟩ := own
    rw [← List.singleton_inj.1 eq] at own
    exact absurd ((own []).2 (.inl rfl)) (barren [])
  | .plus, own => by
    obtain ⟨s, eq, -⟩ := own
    cases eq

end Outline.Base

theorem Outline.base_name {ident : String} (free : ¬ Reserved ident) (span : Span) :
    o.Base d (.name ident · span) ident (d.language ident) :=
  ⟨fun stands => ⟨free, stands⟩, fun _ => rfl⟩

theorem Outline.base_literal {text : String} (terminal : o.terminal text) (span : Span) :
    o.Base d (.literal text · span) text {[text]} :=
  ⟨fun stands => ⟨terminal, stands⟩, fun _ => rfl⟩

theorem Outline.base_group {as : List Alternative} {s : String} (inner : ¬ o.terminal s)
    (sound : ∀ r, o.produces s r → Alternative.SomeStands o as r) (all : Alternative.AllStand o s as)
    (span : Span) : o.Base d (.group as · span) s (Alternative.languageOfAll d.language as) :=
  ⟨fun stands => ⟨s, inner, sound, all, stands⟩, fun _ => rfl⟩

theorem Atom.row_le_language : ∀ (a : Atom) {ns : List String}, a.Stands o ns →
    row (o.common d) ns ≤ a.language d.language
  | .name _ _ span, _, ⟨free, stands⟩ => (Outline.base_name free span).row_le stands
  | .literal _ _ span, _, ⟨terminal, stands⟩ => (Outline.base_literal terminal span).row_le stands
  | .group _ _ span, _, ⟨_, inner, sound, all, stands⟩ =>
    (Outline.base_group inner sound all span).row_le stands
  | .action _ _, ns, stands => by
    rw [Atom.Stands] at stands
    rw [stands, Atom.language]
    exact le_rfl

theorem Atom.row_le_languageOfAll : ∀ (as : List Atom) {ns : List String}, Atom.StandInRow o as ns →
    row (o.common d) ns ≤ Atom.languageOfAll d.language as
  | [], ns, stands => by
    rw [Atom.StandInRow] at stands
    rw [stands, Atom.languageOfAll]
    exact le_rfl
  | a :: as, _, ⟨ms, ms', eq, first, rest⟩ => by
    rw [eq, Outline.row_append]
    exact mul_le_mul' (a.row_le_language first) (Atom.row_le_languageOfAll as rest)

theorem Alternative.row_le_languageOfAll : ∀ (as : List Alternative) {ns : List String},
    Alternative.SomeStands o as ns → row (o.common d) ns ≤ Alternative.languageOfAll d.language as
  | .mk items _ :: _, _, .inl stands =>
    (Atom.row_le_languageOfAll items stands).trans le_self_add
  | _ :: as, _, .inr stands => (Alternative.row_le_languageOfAll as stands).trans le_add_self

/-- A production gives nothing else than what its left-hand side stands for. -/
theorem Outline.Realizes.production_le (real : o.Realizes d) {s : String} {r : List String}
    (produced : o.produces s r) :
    ∀ {a : Atom}, a.Stands o [s] → row (o.common d) r ≤ a.language d.language
  | .name ident _ span, ⟨free, stands⟩ => by
    refine (Outline.base_name free span).production_le (fun r own => ?_) produced stands
    obtain ⟨rule, mem, named, stands⟩ := real.sound free own
    rw [← named]
    exact (Alternative.row_le_languageOfAll _ stands).trans (Description.languageOfAll_le mem)
  | .literal _ _ span, ⟨terminal, stands⟩ =>
    (Outline.base_literal terminal span).production_le
      (fun _ own => absurd terminal (real.not_terminal own)) produced stands
  | .group as _ span, ⟨_, inner, sound, all, stands⟩ =>
    (Outline.base_group inner sound all span).production_le
      (fun r own => Alternative.row_le_languageOfAll as (sound r own)) produced stands
  | .action _ _, stands => by
    rw [Atom.Stands] at stands
    cases stands

/-- A terminal is among what it stands for. -/
theorem Outline.Realizes.terminal_mem (real : o.Realizes d) {t : String} (terminal : o.terminal t) :
    ∀ {a : Atom}, a.Stands o [t] → [t] ∈ a.language d.language := by
  have barren : ∀ r, ¬ o.produces t r := fun r own => real.not_terminal own terminal
  intro a stands
  match a, stands with
  | .name ident _ span, ⟨free, stands⟩ =>
    refine (Outline.base_name free span).terminal_mem (fun own => ?_) terminal barren stands
    rw [Description.language_of_no_rule]
    · exact Set.mem_singleton _
    · intro mem
      obtain ⟨rule, mem, named⟩ := List.mem_map.1 mem
      exact (real.rules rule mem).1 (named ▸ own)
  | .literal _ _ span, ⟨own, stands⟩ =>
    exact (Outline.base_literal (d := d) own span).terminal_mem (fun _ => rfl) terminal barren stands
  | .group _ _ span, ⟨_, inner, sound, all, stands⟩ =>
    exact (Outline.base_group inner sound all span).terminal_mem (fun own => absurd own inner)
      terminal barren stands
  | .action _ _, stands =>
    rw [Atom.Stands] at stands
    cases stands

theorem Outline.Realizes.closed_common (real : o.Realizes d) : o.Closed (o.common d) where
  production produced := le_iInf₂ fun _ stands => real.production_le produced stands
  terminal := by
    intro t terminal
    have all : ({[t]} : Language String) ≤ o.common d t := by
      refine le_iInf₂ fun a stands => ?_
      rintro w rfl
      exact real.terminal_mem terminal stands
    exact all rfl

/-- The least meaning of an outline gives every rule name the language it has in the description. -/
theorem Outline.Least.eq_language (least : o.Least σ) (real : o.Realizes d) {name : String}
    (mem : name ∈ d.rules.map Rule.name) : σ name = d.language name := by
  apply le_antisymm
  · obtain ⟨rule, inside, rfl⟩ := List.mem_map.1 mem
    have alone := (real.rules rule inside).2
    exact (least.le real.closed_common _).trans (Outline.base_name alone rule.span).once_le
  · exact Description.language_le_of_closed real least.toClosed mem

end ParserGenerator
