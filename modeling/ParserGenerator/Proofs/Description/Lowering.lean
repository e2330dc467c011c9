import ParserGenerator.Description.Literals
import ParserGenerator.Proofs.Description.Helpers

/-!
# What lowering makes

The symbols that are made for a part of a description stand for it, in every grammar that has the symbols
and productions made up to there and adds none to the helpers of that part.
-/

namespace ParserGenerator

open Build
open Grammar (RightSymbol)

/-! ## The words of a description -/

mutual

/-- The identifiers in an atom. -/
def Atom.identifiers : Atom → List String
  | .name ident _ _ => [ident]
  | .group as _ _ => Alternative.identifiersOfAll as
  | _ => []

def Atom.identifiersOfAll : List Atom → List String
  | [] => []
  | a :: as => a.identifiers ++ Atom.identifiersOfAll as

def Alternative.identifiers : Alternative → List String
  | .mk items _ => Atom.identifiersOfAll items

def Alternative.identifiersOfAll : List Alternative → List String
  | [] => []
  | a :: as => a.identifiers ++ Alternative.identifiersOfAll as

end

/-- The identifiers of a description: those that are declared, the names of its rules and the names in
them. -/
def Description.identifiers (d : Description) : List String :=
  d.tokens.map TokenDecl.name ++ d.symbols.map SymbolDecl.name ++
    d.rules.flatMap fun r => r.name :: Alternative.identifiersOfAll r.alternatives

/-- Whether an atom is an action that ends an alternative. -/
theorem Atom.trailing_cases (a : Atom) (as : List Atom) : (∃ code span, a = .action code span ∧ as = []) ∨
    ∀ code span, a = .action code span → as = [] → False := by
  by_cases trailing : ∃ code span, a = .action code span ∧ as = []
  · exact .inl trailing
  · exact .inr fun code span eq eq' => trailing ⟨code, span, eq, eq'⟩

/-- No identifier is reserved, and no literal is marked. What begins with a letter or an underscore is never
marked, so identifiers only keep off the names of helpers. -/
structure Tame (identifiers literals : List String) : Prop where
  identifiers : ∀ name ∈ identifiers, ¬ Reserved name
  literals : ∀ text ∈ literals, ¬ Marked text

theorem Tame.mono {is is' ls ls' : List String} (tame : Tame is ls) (fewer : is' ⊆ is)
    (fewer' : ls' ⊆ ls) : Tame is' ls' :=
  ⟨fun name mem => tame.identifiers name (fewer mem), fun text mem => tame.literals text (fewer' mem)⟩

theorem Tame.atoms {a : Atom} {as : List Atom} (tame : Tame (Atom.identifiersOfAll (a :: as))
    (Atom.ownLiteralsOfAll (a :: as) ++ Atom.innerLiteralsOfAll (a :: as))) :
    Tame a.identifiers (a.ownLiterals ++ a.innerLiterals) ∧
      Tame (Atom.identifiersOfAll as) (Atom.ownLiteralsOfAll as ++ Atom.innerLiteralsOfAll as) := by
  simp only [Atom.identifiersOfAll, Atom.ownLiteralsOfAll, Atom.innerLiteralsOfAll] at tame
  constructor <;>
  · refine tame.mono (by simp) fun t => ?_
    simp only [List.mem_append]
    tauto

theorem Tame.alternatives {a : Alternative} {as : List Alternative}
    (tame : Tame (Alternative.identifiersOfAll (a :: as))
      (Alternative.ownLiteralsOfAll (a :: as) ++ Alternative.innerLiteralsOfAll (a :: as))) :
    Tame a.identifiers (a.ownLiterals ++ a.innerLiterals) ∧
      Tame (Alternative.identifiersOfAll as)
        (Alternative.ownLiteralsOfAll as ++ Alternative.innerLiteralsOfAll as) := by
  simp only [Alternative.identifiersOfAll, Alternative.ownLiteralsOfAll, Alternative.innerLiteralsOfAll] at tame
  constructor <;>
  · refine tame.mono (by simp) fun t => ?_
    simp only [List.mem_append]
    tauto

namespace Lowering

variable {l l' l'' : Lowering} {g : Grammar} {allowed : String → Prop} {base left : String}
  {items : List RightSymbol} {s : String} {r : List String}

/-! ## Grammars that leave what was made as it is -/

/-- The grammar has the symbols and productions of the second state, and no more productions of the helpers
that are made up to there from the first one. -/
structure Settles (l l' : Lowering) (g : Grammar) : Prop where
  lawful : g.Lawful
  keeps : l'.grammar.Keeps g
  contains : ∀ {s r}, l'.grammar.outline.produces s r → g.outline.produces s r
  only : ∀ {s r}, New l l' s → g.outline.produces s r → l'.grammar.outline.produces s r

theorem Settles.second (h : Settles l l'' g) (counts : ∀ k, l.count k ≤ l'.count k) : Settles l' l'' g :=
  ⟨h.lawful, h.keeps, h.contains, fun new => h.only (new.mono_left counts)⟩

theorem Settles.first (h : Settles l l'' g) (steps : Steps l' l'' allowed)
    (other : ∀ s, New l l' s → ¬ allowed s) : Settles l l' g where
  lawful := h.lawful
  keeps := steps.keeps.trans h.keeps
  contains produced := h.contains (steps.contains produced)
  only new produced :=
    (steps.only_old new.not_later (other _ new)).1 (h.only (new.mono_right steps.counts) produced)

/-! ## Productions -/

/-- The name is none of a helper that is yet to be made. -/
def Ready (l : Lowering) (left : String) : Prop := ∀ ⦃h : Helper⦄ ⦃n⦄, left = h.name n → n ≤ l.count h

theorem Ready.mono (ready : l.Ready left) (counts : ∀ h, l.count h ≤ l'.count h) : l'.Ready left :=
  fun _ _ eq => (ready eq).trans (counts _)

theorem Ready.not_new (ready : l.Ready left) : ¬ New l l' left := by
  rintro ⟨h, n, eq, above, -⟩
  exact absurd (ready eq) (Nat.not_le.2 above)

theorem ready_next (l : Lowering) (h : Helper) : (l.bump h).Ready (l.next h) := by
  intro k n eq
  obtain ⟨rfl, rfl⟩ := Helper.name_inj eq
  rw [count_bump, if_pos rfl]

theorem addProduction_steps (sound : l.Sound) (plain : ¬ Marked left) (ready : l.Ready left)
    (held : ∀ item ∈ items, item.Held l.grammar) {action label : Option String} {p : Production}
    (done : build (Grammar.addProduction left items action label) l = .ok p l') :
    Steps l l' (· = left) ∧ ∀ {s r}, l'.grammar.outline.produces s r ↔
      l.grammar.outline.produces s r ∨ s = left ∧ r = items.flatMap RightSymbol.spelled := by
  obtain ⟨g, added, rfl⟩ := build_eq_ok.1 done
  have gains := Grammar.ends_addProduction_gains sound.opened sound.actions plain held action label
  rw [Ends, added] at gains
  refine ⟨(sound.steps_of_gains gains fun new => ready new.1.symm).narrow ?_, gains.produces⟩
  rintro s ⟨r, own, -⟩
  exact .inr own

theorem addPlain_steps (sound : l.Sound) (plain : ¬ Marked left) (ready : l.Ready left)
    (held : ∀ item ∈ items, item.Held l.grammar) (done : addPlain left items l = .ok () l') :
    Steps l l' (· = left) ∧ ∀ {s r}, l'.grammar.outline.produces s r ↔
      l.grammar.outline.produces s r ∨ s = left ∧ r = items.flatMap RightSymbol.spelled := by
  obtain ⟨p, l₁, added, ended⟩ := bind_eq_ok.1 done
  cases ended
  exact addProduction_steps sound plain ready held added

/-! ## Suffixes -/

/-- In the end a helper has the two productions that it was given. -/
theorem helper_steps (sound : l.Sound) (h : Helper) {items : List RightSymbol}
    (held : ∀ item ∈ items, item.Held l.grammar) (helps : l.Helps l' h items) :
    Steps l l' (fun _ => False) ∧ ∀ {g}, Settles l l' g → ∀ r,
      g.outline.produces (l.next h) r ↔ r = [] ∨ r = items.flatMap RightSymbol.spelled := by
  obtain ⟨l₁, first, second⟩ := helps
  have start := steps_bump sound h
  have plain : ¬ Marked (l.next h) := h.not_marked _
  have ready := ready_next l h
  obtain ⟨steps, produces⟩ := addPlain_steps start.sound plain ready (by simp) first
  have held : ∀ item ∈ items, item.Held l₁.grammar := fun item mem =>
    (held item mem).keeps (start.keeps.trans steps.keeps)
  obtain ⟨steps', produces'⟩ := addPlain_steps steps.sound plain (ready.mono steps.counts) held second
  have new : New l l' (l.next h) :=
    (new_next l h).mono_right fun k => (steps.counts k).trans (steps'.counts k)
  refine ⟨((start.trans steps).trans steps').narrow ?_, fun settles r => ?_⟩
  · rintro s ((nothing | rfl) | rfl)
    · exact nothing.elim
    · exact .inl new
    · exact .inl new
  · have own : l'.grammar.outline.produces (l.next h) r ↔ r = [] ∨ r = items.flatMap RightSymbol.spelled := by
      rw [produces', produces, grammar_bump]
      simp [sound.fresh h r]
    exact ⟨fun produced => own.1 (settles.only new produced), fun which => settles.contains (own.2 which)⟩

/-- The symbols stand for a part in every grammar that settles what was made for it. -/
structure Made (l l' : Lowering) (items : List RightSymbol) (stands : Outline → List String → Prop) :
    Prop where
  steps : Steps l l' fun _ => False
  held : ∀ item ∈ items, item.Held l'.grammar
  stands : ∀ {g}, Settles l l' g → stands g.outline (items.flatMap RightSymbol.spelled)

theorem not_marked_next (l : Lowering) (h : Helper) : ¬ Marked (l.next h) := h.not_marked _

theorem held_one (plain : ¬ Marked base) (g : Grammar) :
    ∀ item ∈ [RightSymbol.name base], item.Held g := by
  simpa using plain

theorem held_two (plain : ¬ Marked base) (plain' : ¬ Marked s) (g : Grammar) :
    ∀ item ∈ [RightSymbol.name base, .name s], item.Held g := by
  simpa using And.intro plain plain'

theorem repeated_made (sound : l.Sound) (plain : ¬ Marked base) {item : RightSymbol}
    (done : repeated (.name base) l = .ok item l') :
    item = .name (l.next .repetition) ∧ Steps l l' (fun _ => False) ∧ ∀ {g}, Settles l l' g → ∀ r,
      g.outline.produces (l.next .repetition) r ↔ r = [] ∨ r = [base, l.next .repetition] := by
  obtain ⟨rfl, helps⟩ := helps_of_repeated done
  exact ⟨rfl, helper_steps sound .repetition (held_two plain (l.not_marked_next _) _) helps⟩

theorem suffixed_made (sound : l.Sound) (plain : ¬ Marked base) :
    ∀ {suffix : Suffix}, suffixed (.name base) suffix l = .ok items l' →
      Made l l' items fun o => suffix.Stands o base
  | .once, done => by
    cases done
    exact ⟨.refl sound, held_one plain _, fun _ => rfl⟩
  | .opt, done => by
    obtain ⟨rfl, helps⟩ := helps_of_option done
    obtain ⟨steps, produces⟩ := helper_steps sound .option (held_one plain _) helps
    exact ⟨steps, held_one (l.not_marked_next _) _, fun settles => ⟨_, rfl, produces settles⟩⟩
  | .star, done => by
    obtain ⟨item, l₁, made, rest⟩ := bind_eq_ok.1 done
    cases rest
    obtain ⟨rfl, steps, produces⟩ := repeated_made sound plain made
    exact ⟨steps, held_one (l.not_marked_next _) _, fun settles => ⟨_, rfl, produces settles⟩⟩
  | .plus, done => by
    obtain ⟨item, l₁, made, rest⟩ := bind_eq_ok.1 done
    cases rest
    obtain ⟨rfl, steps, produces⟩ := repeated_made sound plain made
    exact ⟨steps, held_two plain (l.not_marked_next _) _, fun settles => ⟨_, rfl, produces settles⟩⟩

/-! ## Atoms and alternatives -/

/-- Productions for the alternatives have been added to the name. -/
structure MadeFor (l l' : Lowering) (left : String) (as : List Alternative) : Prop where
  steps : Steps l l' (· = left)
  sound : ∀ {g}, Settles l l' g → ∀ {r}, l'.grammar.outline.produces left r →
    l.grammar.outline.produces left r ∨ Alternative.SomeStands g.outline as r
  complete : ∀ {g}, Settles l l' g → Alternative.AllStand g.outline left as

theorem declareNonterminal_steps (sound : l.Sound) (plain : ¬ Marked base) {initialiser : String}
    {x : Symbol} (done : build (Grammar.declareNonterminal base initialiser) l = .ok x l') :
    Steps l l' (fun _ => False) ∧
      ∃ id x, l'.grammar.symbols.at? id = some x ∧ x.name = base ∧ x.kind = .nonterminal := by
  obtain ⟨g, declared, rfl⟩ := build_eq_ok.1 done
  have ends := Grammar.ends_declareNonterminal_declares sound.opened.table sound.actions plain initialiser
  rw [Ends, declared] at ends
  exact ⟨sound.steps_of_declares ends.1, ends.2⟩

theorem declareTerminal_steps (sound : l.Sound) (plain : ¬ Marked base) {x : Symbol}
    (done : build (Grammar.declareTerminal base) l = .ok x l') :
    Steps l l' (fun _ => False) ∧
      ∃ id x, l'.grammar.symbols.at? id = some x ∧ x.name = base ∧ x.kind = .terminal := by
  obtain ⟨g, declared, rfl⟩ := build_eq_ok.1 done
  have ends := Grammar.ends_declareTerminal_declares sound.opened.table sound.actions plain
  rw [Ends, declared] at ends
  exact ⟨sound.steps_of_declares ends.1, ends.2⟩

mutual

theorem lowerAtom_made : ∀ (a : Atom) {l l' : Lowering} {items : List RightSymbol}, l.Sound →
    Tame a.identifiers (a.ownLiterals ++ a.innerLiterals) → lowerAtom a l = .ok items l' →
    Made l l' items fun o => a.Stands o
  | .name ident suffix span, l, l', items, sound, tame, done => by
    have free : ¬ Reserved ident := tame.identifiers ident (by simp [Atom.identifiers])
    obtain ⟨steps, held, stands⟩ := suffixed_made sound (fun marked => free (.inl marked)) done
    exact ⟨steps, held, fun settles => ⟨free, stands settles⟩⟩
  | .literal text suffix span, l, l', items, sound, tame, done => by
    have plain : ¬ Marked text := tame.literals text (by simp [Atom.ownLiterals])
    obtain ⟨x, l₁, declared, rest⟩ := bind_eq_ok.1 done
    obtain ⟨steps, id, y, at_y, rfl, kind⟩ := declareTerminal_steps sound plain declared
    obtain ⟨steps', held, stands⟩ := suffixed_made steps.sound plain rest
    refine ⟨(steps.trans steps').narrow (by simp), held, fun settles => ?_⟩
    have later := settles.second steps.counts
    exact ⟨(steps'.keeps.trans settles.keeps).terminal at_y kind, stands later⟩
  | .group as suffix span, l, l', items, sound, tame, done => by
    obtain ⟨name, l₁, made, rest⟩ := bind_eq_ok.1 done
    rw [newGroup_eq] at made
    cases made
    obtain ⟨x, l₂, declared, rest⟩ := bind_eq_ok.1 rest
    obtain ⟨⟨⟩, l₃, lowered, rest⟩ := bind_eq_ok.1 rest
    have plain := l.not_marked_next .group
    have first := steps_bump sound .group
    obtain ⟨second, id, y, at_y, named, kind⟩ := declareNonterminal_steps first.sound plain declared
    have ready : (l.bump .group).Ready (l.next .group) := ready_next l .group
    have third := lowerAlternatives_made as second.sound plain (ready.mono second.counts) tame lowered
    obtain ⟨fourth, held, stands⟩ := suffixed_made third.steps.sound plain rest
    have counts : ∀ k, l.count k ≤ l₂.count k := fun k => (first.counts k).trans (second.counts k)
    have new : New l l₂ (l.next .group) := (new_next l .group).mono_right second.counts
    refine ⟨(((first.trans second).trans third.steps).trans fourth).narrow ?_, held, fun settles => ?_⟩
    · rintro s (((nothing | nothing) | rfl) | nothing)
      · exact nothing.elim
      · exact nothing.elim
      · exact .inl (new.mono_right fun k => (third.steps.counts k).trans (fourth.counts k))
      · exact nothing.elim
    · have settles₃ := settles.first fourth fun _ _ => not_false
      have inner := settles₃.second counts
      have keeps := third.steps.keeps.trans settles₃.keeps
      -- Until its alternatives are lowered the new group has no productions.
      have empty : ∀ r, ¬ l₂.grammar.outline.produces (l.next .group) r := by
        intro r produced
        have before := (second.only_old ready.not_new not_false).1 produced
        rw [grammar_bump] at before
        exact sound.fresh .group r before
      refine ⟨l.next .group, named ▸ keeps.not_terminal settles₃.lawful at_y kind, fun r produced => ?_,
        third.complete inner, stands (settles.second fun k => (counts k).trans (third.steps.counts k))⟩
      have own := settles₃.only (new.mono_right third.steps.counts) produced
      exact (third.sound inner own).resolve_left (empty r)
  | .action code span, l, l', items, sound, tame, done => by
    obtain ⟨x, l₁, made, rest⟩ := bind_eq_ok.1 done
    cases rest
    obtain ⟨g, added, rfl⟩ := build_eq_ok.1 made
    have ends := Grammar.ends_newAction_declares sound.opened.table sound.actions code false
    rw [Ends, added] at ends
    obtain ⟨declares, at_x, action⟩ := ends
    refine ⟨sound.steps_of_declares declares, ?_, fun _ => rfl⟩
    intro item mem
    rw [List.mem_singleton.1 mem]
    exact ⟨x, at_x, action⟩

theorem lowerItems_made : ∀ (as : List Atom) {l l' : Lowering} {items : List RightSymbol}
    {action : Option String}, l.Sound →
    Tame (Atom.identifiersOfAll as) (Atom.ownLiteralsOfAll as ++ Atom.innerLiteralsOfAll as) →
    lowerItems as l = .ok (items, action) l' → Made l l' items fun o => Atom.StandInRow o as
  | [], l, l', items, action, sound, tame, done => by
    cases done
    exact ⟨.refl sound, by simp, fun _ => rfl⟩
  | a :: as, l, l', items, action, sound, tame, done => by
    rcases a.trailing_cases as with ⟨code, span, rfl, rfl⟩ | other
    · cases done
      exact ⟨.refl sound, by simp, fun _ => ⟨[], [], rfl, rfl, rfl⟩⟩
    · rw [lowerItems] at done
      · obtain ⟨first, l₁, lowered, rest⟩ := bind_eq_ok.1 done
        obtain ⟨⟨others, action'⟩, l₂, lowered', rest⟩ := bind_eq_ok.1 rest
        cases rest
        have made := lowerAtom_made a sound tame.atoms.1 lowered
        have made' := lowerItems_made as made.steps.sound tame.atoms.2 lowered'
        refine ⟨(made.steps.trans made'.steps).narrow (by simp), ?_, fun settles => ?_⟩
        · exact List.forall_mem_append.2 ⟨fun item mem => (made.held item mem).keeps made'.steps.keeps,
            made'.held⟩
        · exact ⟨_, _, List.flatMap_append, made.stands (settles.first made'.steps fun _ _ => not_false),
            made'.stands (settles.second made.steps.counts)⟩
      · exact other

theorem lowerAlternative_made : ∀ (a : Alternative) {left : String} {l l' : Lowering}, l.Sound →
    ¬ Marked left → l.Ready left → Tame a.identifiers (a.ownLiterals ++ a.innerLiterals) →
    lowerAlternative left a l = .ok () l' →
    Steps l l' (· = left) ∧ ∃ r, (∀ {g}, Settles l l' g → a.Stands g.outline r) ∧
      ∀ {r'}, l'.grammar.outline.produces left r' ↔ l.grammar.outline.produces left r' ∨ r' = r
  | .mk items label, left, l, l', sound, plain, ready, tame, done => by
    obtain ⟨⟨right, action⟩, l₁, lowered, rest⟩ := bind_eq_ok.1 done
    obtain ⟨p, l₂, added, rest⟩ := bind_eq_ok.1 rest
    cases rest
    have made := lowerItems_made items sound tame lowered
    obtain ⟨steps, produces⟩ := addProduction_steps made.steps.sound plain (ready.mono made.steps.counts)
      made.held added
    refine ⟨(made.steps.trans steps).narrow (by simp), right.flatMap RightSymbol.spelled,
      fun settles => ?_, ?_⟩
    · refine made.stands (settles.first steps ?_)
      rintro s new rfl
      exact ready.not_new new
    · intro r
      rw [produces, made.steps.only_old ready.not_new not_false]
      simp

theorem lowerAlternatives_made : ∀ (as : List Alternative) {left : String} {l l' : Lowering}, l.Sound →
    ¬ Marked left → l.Ready left →
    Tame (Alternative.identifiersOfAll as)
      (Alternative.ownLiteralsOfAll as ++ Alternative.innerLiteralsOfAll as) →
    lowerAlternatives left as l = .ok () l' → MadeFor l l' left as
  | [], left, l, l', sound, plain, ready, tame, done => by
    cases done
    exact ⟨(Steps.refl sound).narrow nofun, fun _ _ produced => .inl produced, fun _ => trivial⟩
  | a :: as, left, l, l', sound, plain, ready, tame, done => by
    obtain ⟨⟨⟩, l₁, lowered, rest⟩ := bind_eq_ok.1 done
    obtain ⟨steps, row, stands, produces⟩ := lowerAlternative_made a sound plain ready
      tame.alternatives.1 lowered
    have later := lowerAlternatives_made as steps.sound plain (ready.mono steps.counts)
      tame.alternatives.2 rest
    have first : ∀ {g}, Settles l l' g → Settles l l₁ g := by
      intro g settles
      refine settles.first later.steps ?_
      rintro s new rfl
      exact ready.not_new new
    refine ⟨(steps.trans later.steps).narrow (by simp), fun settles r produced => ?_, fun settles => ?_⟩
    · rcases later.sound (settles.second steps.counts) produced with before | stand
      · rcases produces.1 before with before | rfl
        · exact .inl before
        · exact .inr (.inl (stands (first settles)))
      · exact .inr (.inr stand)
    · exact ⟨⟨row, settles.contains (later.steps.contains (produces.2 (.inr rfl))), stands (first settles)⟩,
        later.complete (settles.second steps.counts)⟩

end

end Lowering

end ParserGenerator
