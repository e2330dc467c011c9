import ParserGenerator.Proofs.Description.Lowered
import ParserGenerator.Proofs.Grammar.Terminals

/-!
# The terminals of a description

The terminals of the grammar that a description is lowered to are its tokens, its keywords and the literals
that occur in its rules, however deep in groups.
-/

namespace ParserGenerator

open Build

/-- The literal stands in an atom, be it in a group inside. -/
inductive Atom.Mentions (text : String) : Atom → Prop
  | literal (suffix : Suffix) (span : Span) : Mentions text (.literal text suffix span)
  | group {as : List Alternative} {a : Alternative} {item : Atom} (suffix : Suffix) (span : Span) : a ∈ as →
      item ∈ a.items → item.Mentions text → Mentions text (.group as suffix span)

/-- The text is a keyword, or it is a literal that stands somewhere in a rule. -/
def Description.Mentions (d : Description) (text : String) : Prop :=
  (∃ k ∈ d.keywords, k.text = text) ∨
    ∃ r ∈ d.rules, ∃ a ∈ r.alternatives, ∃ item ∈ a.items, item.Mentions text

/-! ## All literals are listed -/

section

variable {text : String}

theorem Atom.mentions_literal {other : String} {suffix : Suffix} {span : Span} :
    (Atom.literal other suffix span).Mentions text ↔ text = other := by
  constructor
  · rintro ⟨⟩
    rfl
  · rintro rfl
    exact .literal suffix span

theorem Atom.mentions_group {as : List Alternative} {suffix : Suffix} {span : Span} :
    (Atom.group as suffix span).Mentions text ↔ ∃ a ∈ as, ∃ item ∈ a.items, item.Mentions text := by
  constructor
  · rintro (_ | ⟨_, _, listed, within, mentions⟩)
    exact ⟨_, listed, _, within, mentions⟩
  · rintro ⟨a, listed, item, within, mentions⟩
    exact .group suffix span listed within mentions

theorem Atom.mem_ownLiteralsOfAll {as : List Atom} :
    text ∈ Atom.ownLiteralsOfAll as ↔ ∃ a ∈ as, text ∈ a.ownLiterals := by
  induction as with
  | nil => simp [Atom.ownLiteralsOfAll]
  | cons a as ih => rw [Atom.ownLiteralsOfAll, List.mem_append, ih, List.exists_mem_cons_iff]

theorem Atom.mem_innerLiteralsOfAll {as : List Atom} :
    text ∈ Atom.innerLiteralsOfAll as ↔ ∃ a ∈ as, text ∈ a.innerLiterals := by
  induction as with
  | nil => simp [Atom.innerLiteralsOfAll]
  | cons a as ih => rw [Atom.innerLiteralsOfAll, List.mem_append, ih, List.exists_mem_cons_iff]

theorem Alternative.mem_ownLiteralsOfAll {as : List Alternative} :
    text ∈ Alternative.ownLiteralsOfAll as ↔ ∃ a ∈ as, text ∈ a.ownLiterals := by
  induction as with
  | nil => simp [Alternative.ownLiteralsOfAll]
  | cons a as ih => rw [Alternative.ownLiteralsOfAll, List.mem_append, ih, List.exists_mem_cons_iff]

theorem Alternative.mem_innerLiteralsOfAll {as : List Alternative} :
    text ∈ Alternative.innerLiteralsOfAll as ↔ ∃ a ∈ as, text ∈ a.innerLiterals := by
  induction as with
  | nil => simp [Alternative.innerLiteralsOfAll]
  | cons a as ih => rw [Alternative.innerLiteralsOfAll, List.mem_append, ih, List.exists_mem_cons_iff]

mutual

/-- The literals of an atom by itself and of the groups inside are all that stand in it. -/
theorem Atom.mem_literals : ∀ a : Atom, text ∈ a.ownLiterals ++ a.innerLiterals ↔ a.Mentions text
  | .name .. => by
    constructor
    · exact nofun
    · rintro ⟨⟩
  | .literal other suffix span => by
    rw [Atom.mentions_literal]
    exact List.mem_singleton
  | .group as suffix span => by
    rw [Atom.mentions_group, ← Alternative.mem_literalsOfAll as]
    rfl
  | .action .. => by
    constructor
    · exact nofun
    · rintro ⟨⟩

theorem Atom.mem_literalsOfAll : ∀ as : List Atom,
    text ∈ Atom.ownLiteralsOfAll as ++ Atom.innerLiteralsOfAll as ↔ ∃ a ∈ as, a.Mentions text
  | [] => by
    constructor
    · exact nofun
    · rintro ⟨a, mem, -⟩
      cases mem
  | a :: as => by
    rw [List.exists_mem_cons_iff, ← Atom.mem_literals a, ← Atom.mem_literalsOfAll as]
    simp only [Atom.ownLiteralsOfAll, Atom.innerLiteralsOfAll, List.mem_append]
    tauto

theorem Alternative.mem_literals : ∀ a : Alternative,
    text ∈ a.ownLiterals ++ a.innerLiterals ↔ ∃ item ∈ a.items, item.Mentions text
  | .mk items _ => Atom.mem_literalsOfAll items

theorem Alternative.mem_literalsOfAll : ∀ as : List Alternative,
    text ∈ Alternative.ownLiteralsOfAll as ++ Alternative.innerLiteralsOfAll as ↔
      ∃ a ∈ as, ∃ item ∈ a.items, item.Mentions text
  | [] => by
    constructor
    · exact nofun
    · rintro ⟨a, mem, -⟩
      cases mem
  | a :: as => by
    rw [List.exists_mem_cons_iff, ← Alternative.mem_literals a, ← Alternative.mem_literalsOfAll as]
    simp only [Alternative.ownLiteralsOfAll, Alternative.innerLiteralsOfAll, List.mem_append]
    tauto

end

theorem Description.mem_literals_iff {d : Description} : text ∈ d.literals ↔ d.Mentions text := by
  rw [Lowering.mem_literals, Description.Mentions, List.mem_map]
  refine or_congr .rfl (exists_congr fun r => and_congr .rfl ?_)
  exact Alternative.mem_literalsOfAll r.alternatives

end

/-! ## Lowering makes terminals of them -/

namespace Lowering

open Grammar (RightSymbol Introduces)

variable {l l' : Lowering} {base : RightSymbol} {items : List RightSymbol} {left : String}

theorem introduces_addPlain (lawful : l.grammar.symbols.Lawful) (added : addPlain left items l = .ok () l') :
    Introduces (fun _ => False) l.grammar l'.grammar := by
  rw [addPlain] at added
  obtain ⟨p, l₁, built, added⟩ := bind_eq_ok.1 added
  obtain ⟨g, added', rfl⟩ := build_eq_ok.1 built
  cases added
  exact Grammar.introduces_addProduction lawful added'

theorem introduces_helps {h : Helper} (lawful : l.grammar.symbols.Lawful) (helps : l.Helps l' h items) :
    Introduces (fun _ => False) l.grammar l'.grammar := by
  obtain ⟨l₁, first, second⟩ := helps
  have silent := introduces_addPlain (l := l.bump h) (by rwa [grammar_bump]) first
  rw [grammar_bump] at silent
  exact silent.silent_trans (introduces_addPlain silent.lawful second)

theorem introduces_suffixed (lawful : l.grammar.symbols.Lawful) {suffix : Suffix}
    (made : suffixed base suffix l = .ok items l') : Introduces (fun _ => False) l.grammar l'.grammar := by
  cases suffix with
  | once =>
    cases made
    exact .refl lawful
  | opt => exact introduces_helps lawful (helps_of_option made).2
  | star | plus =>
    rw [suffixed] at made
    obtain ⟨item, l₁, repeats, made⟩ := bind_eq_ok.1 made
    cases made
    exact introduces_helps lawful (helps_of_repeated repeats).2

mutual

/-- An atom introduces the literals that stand in it. -/
theorem introduces_lowerAtom : ∀ (a : Atom) {l l' : Lowering} {items : List RightSymbol},
    l.grammar.symbols.Lawful → lowerAtom a l = .ok items l' →
    Introduces (fun text => a.Mentions text) l.grammar l'.grammar
  | .name ident suffix span, l, l', items, lawful, done => by
    refine (introduces_suffixed lawful done).congr fun text => ⟨False.elim, ?_⟩
    rintro ⟨⟩
  | .literal other suffix span, l, l', items, lawful, done => by
    rw [lowerAtom] at done
    obtain ⟨s, l₁, built, done⟩ := bind_eq_ok.1 done
    obtain ⟨g, declared, rfl⟩ := build_eq_ok.1 built
    have first := Grammar.introduces_declareTerminal lawful declared
    refine (first.trans (introduces_suffixed first.lawful done)).congr fun text => ?_
    rw [Atom.mentions_literal, or_false]
  | .group as suffix span, l, l', items, lawful, done => by
    rw [lowerAtom, bind_of_ok (newGroup_eq l)] at done
    obtain ⟨s, l₁, built, done⟩ := bind_eq_ok.1 done
    obtain ⟨g, declared, rfl⟩ := build_eq_ok.1 built
    have first := Grammar.introduces_declareNonterminal (g := (l.bump .group).grammar) lawful declared
    obtain ⟨⟨⟩, l₂, lowered, done⟩ := bind_eq_ok.1 done
    have second := introduces_lowerAlternatives as first.lawful lowered
    have third := introduces_suffixed second.lawful done
    refine (first.trans (second.trans third)).congr fun text => ?_
    rw [Atom.mentions_group, or_false, false_or]
  | .action code span, l, l', items, lawful, done => by
    rw [lowerAtom] at done
    obtain ⟨s, l₁, built, done⟩ := bind_eq_ok.1 done
    obtain ⟨g, made, rfl⟩ := build_eq_ok.1 built
    cases done
    refine (Grammar.introduces_newAction lawful made).congr fun text => ⟨False.elim, ?_⟩
    rintro ⟨⟩

theorem introduces_lowerItems : ∀ (as : List Atom) {l l' : Lowering} {r : List RightSymbol × Option String},
    l.grammar.symbols.Lawful → lowerItems as l = .ok r l' →
    Introduces (fun text => ∃ a ∈ as, a.Mentions text) l.grammar l'.grammar
  | [], l, l', r, lawful, done => by
    cases done
    exact (Introduces.refl lawful).congr fun text => by simp
  | a :: as, l, l', r, lawful, done => by
    rcases a.trailing_cases as with ⟨code, span, rfl, rfl⟩ | other
    · cases done
      refine (Introduces.refl lawful).congr fun text => ⟨False.elim, ?_⟩
      rintro ⟨a, mem, mentions⟩
      rw [List.mem_singleton.1 mem] at mentions
      cases mentions
    · rw [lowerItems] at done
      · obtain ⟨first, l₁, lowered, rest⟩ := bind_eq_ok.1 done
        obtain ⟨others, l₂, lowered', rest⟩ := bind_eq_ok.1 rest
        cases rest
        have introduced := introduces_lowerAtom a lawful lowered
        refine (introduced.trans (introduces_lowerItems as introduced.lawful lowered')).congr fun text => ?_
        rw [List.exists_mem_cons_iff]
      · exact other

theorem introduces_lowerAlternative : ∀ (a : Alternative) {left : String} {l l' : Lowering},
    l.grammar.symbols.Lawful → lowerAlternative left a l = .ok () l' →
    Introduces (fun text => ∃ item ∈ a.items, item.Mentions text) l.grammar l'.grammar
  | .mk items label, left, l, l', lawful, done => by
    obtain ⟨⟨right, action⟩, l₁, lowered, rest⟩ := bind_eq_ok.1 done
    obtain ⟨p, l₂, built, rest⟩ := bind_eq_ok.1 rest
    obtain ⟨g, added, rfl⟩ := build_eq_ok.1 built
    cases rest
    have introduced := introduces_lowerItems items lawful lowered
    refine (introduced.trans (Grammar.introduces_addProduction introduced.lawful added)).congr fun text => ?_
    rw [or_false]
    rfl

theorem introduces_lowerAlternatives : ∀ (as : List Alternative) {left : String} {l l' : Lowering},
    l.grammar.symbols.Lawful → lowerAlternatives left as l = .ok () l' →
    Introduces (fun text => ∃ a ∈ as, ∃ item ∈ a.items, item.Mentions text) l.grammar l'.grammar
  | [], left, l, l', lawful, done => by
    cases done
    exact (Introduces.refl lawful).congr fun text => by simp
  | a :: as, left, l, l', lawful, done => by
    obtain ⟨⟨⟩, l₁, lowered, rest⟩ := bind_eq_ok.1 done
    have introduced := introduces_lowerAlternative a lawful lowered
    refine (introduced.trans (introduces_lowerAlternatives as introduced.lawful rest)).congr fun text => ?_
    rw [List.exists_mem_cons_iff]

end

theorem introduces_lowerRule (lawful : l.grammar.symbols.Lawful) {r : Rule} (lowered : lowerRule r l = .ok () l') :
    Introduces (fun text => ∃ a ∈ r.alternatives, ∃ item ∈ a.items, item.Mentions text) l.grammar l'.grammar := by
  rw [lowerRule] at lowered
  obtain ⟨s, l₁, built, lowered⟩ := bind_eq_ok.1 lowered
  obtain ⟨g, declared, rfl⟩ := build_eq_ok.1 built
  have first := Grammar.introduces_declareNonterminal lawful declared
  refine (first.trans (introduces_lowerAlternatives r.alternatives first.lawful lowered)).congr fun text => ?_
  rw [false_or]

/-- A list of steps introduces what each of them does. -/
theorem introduces_forM {α : Type} {f : α → Lower Unit} (names : α → String → Prop)
    (each : ∀ a {l l'}, l.grammar.symbols.Lawful → f a l = .ok () l' → Introduces (names a) l.grammar l'.grammar)
    {as : List α} (lawful : l.grammar.symbols.Lawful) (done : as.forM f l = .ok () l') :
    Introduces (fun text => ∃ a ∈ as, names a text) l.grammar l'.grammar := by
  induction as generalizing l with
  | nil =>
    cases done
    exact (Introduces.refl lawful).congr fun text => by simp
  | cons a as ih =>
    obtain ⟨⟨⟩, l₁, first, rest⟩ := bind_eq_ok.1 done
    have introduced := each a lawful first
    refine (introduced.trans (ih introduced.lawful rest)).congr fun text => ?_
    rw [List.exists_mem_cons_iff]

/-- A step on the grammar whose value is not used. -/
theorem introduces_build {α : Type} {b : Build α} {names : String → Prop}
    (made : ∀ {a g'}, b l.grammar = .ok a g' → Introduces names l.grammar g')
    (done : (do let _ ← build b : Lower Unit) l = .ok () l') : Introduces names l.grammar l'.grammar := by
  obtain ⟨a, l₁, built, done⟩ := bind_eq_ok.1 done
  obtain ⟨g, ended, rfl⟩ := build_eq_ok.1 built
  cases done
  exact made ended

end Lowering

namespace Description

open Grammar (Introduces)
open Lowering (introduces_forM introduces_build introduces_lowerRule build_eq_ok)

variable {d : Description} {g : Grammar}

/-- The terminals are the declared tokens, the keywords and the literals. -/
theorem introduces_toGrammar (lowered : d.toGrammar = .ok g) :
    Introduces (fun name => (∃ t ∈ d.tokens, t.name = name) ∨ d.Mentions name) .fresh g := by
  rw [toGrammar] at lowered
  split at lowered
  · rename_i _ l done
    cases lowered
    rw [Lowering.lower] at done
    obtain ⟨⟨⟩, l₁, keywords, done⟩ := bind_eq_ok.1 done
    obtain ⟨⟨⟩, l₂, tokens, done⟩ := bind_eq_ok.1 done
    obtain ⟨⟨⟩, l₃, symbols, done⟩ := bind_eq_ok.1 done
    obtain ⟨⟨⟩, l₄, precedences, done⟩ := bind_eq_ok.1 done
    obtain ⟨⟨⟩, l₅, rules, done⟩ := bind_eq_ok.1 done
    obtain ⟨g', closed, rfl⟩ := build_eq_ok.1 done
    have first := introduces_forM (fun k text => text = k.text)
      (fun k _ _ lawful => introduces_build fun declared => Grammar.introduces_declareTerminal lawful declared)
      SymbolTable.lawful_fresh keywords
    have second := introduces_forM (fun t text => text = t.name)
      (fun t _ _ lawful => introduces_build fun declared => Grammar.introduces_declareTerminal lawful declared)
      first.lawful tokens
    have third := introduces_forM (fun _ _ => False)
      (fun s _ _ lawful => introduces_build fun declared => Grammar.introduces_declareNonterminal lawful declared)
      second.lawful symbols
    have fourth := introduces_forM (fun _ _ => False)
      (fun p _ _ lawful => introduces_build fun declared => Grammar.introduces_declarePrecedence lawful declared)
      third.lawful precedences
    have fifth := introduces_forM
      (fun r text => ∃ a ∈ r.alternatives, ∃ item ∈ a.items, item.Mentions text)
      (fun r _ _ lawful => introduces_lowerRule lawful) fourth.lawful rules
    have last := Grammar.introduces_close fifth.lawful closed
    have all := first.trans (second.trans (third.trans (fourth.trans (fifth.trans last))))
    refine all.congr fun name => ?_
    simp only [Mentions, and_false, exists_false, or_false, false_or, eq_comm, or_left_comm]
  · cases lowered

end Description

end ParserGenerator
