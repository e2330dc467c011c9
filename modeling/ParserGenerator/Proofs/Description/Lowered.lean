import ParserGenerator.Proofs.Description.Lowering

/-!
# The grammar of a description has its language

Lowering makes a grammar of which the productions are those of the rules and of helpers that stand for parts
of them. So every rule derives exactly the words that it has in the description.
-/

namespace ParserGenerator

open Build
open Grammar (RightSymbol)

namespace Lowering

variable {l l' l'' : Lowering} {g : Grammar}

/-! ## Rules -/

/-- Productions for the alternatives of the rules have been added to their names. -/
structure MadeRules (l l' : Lowering) (rules : List Rule) : Prop where
  steps : Steps l l' fun s => ∃ rule ∈ rules, rule.name = s
  declared : ∀ rule ∈ rules, ∃ id x, l'.grammar.symbols.at? id = some x ∧ x.name = rule.name ∧
    x.kind = .nonterminal
  sound : ∀ {g}, Settles l l' g → ∀ {s r}, ¬ Reserved s → l'.grammar.outline.produces s r →
    l.grammar.outline.produces s r ∨
      ∃ rule ∈ rules, rule.name = s ∧ Alternative.SomeStands g.outline rule.alternatives r
  complete : ∀ {g}, Settles l l' g → ∀ rule ∈ rules, Alternative.AllStand g.outline rule.name rule.alternatives

theorem lowerRule_made (sound : l.Sound) {rule : Rule} (free : ¬ Reserved rule.name)
    (tame : Tame (Alternative.identifiersOfAll rule.alternatives) rule.literals)
    (done : lowerRule rule l = .ok () l') : MadeRules l l' [rule] := by
  obtain ⟨x, l₁, declared, rest⟩ := bind_eq_ok.1 done
  have plain : ¬ Marked rule.name := fun marked => free (.inl marked)
  have ready : ∀ l : Lowering, l.Ready rule.name := fun _ h n eq => absurd (.inr ⟨h, n, eq⟩) free
  obtain ⟨steps, id, y, at_y, named, kind⟩ := declareNonterminal_steps sound plain declared
  have made := lowerAlternatives_made rule.alternatives steps.sound plain (ready l₁) tame rest
  obtain ⟨y', at_y', named', same⟩ := made.steps.keeps at_y
  refine ⟨(steps.trans made.steps).narrow ?_, ?_, fun settles s r other produced => ?_, fun settles => ?_⟩
  · rintro s (nothing | rfl)
    · exact nothing.elim
    · exact .inr ⟨rule, List.mem_cons_self, rfl⟩
  · simpa using ⟨id, y', at_y', named'.trans named, (same (by rw [kind]; decide)).trans kind⟩
  · have before : ∀ {r}, l₁.grammar.outline.produces s r → l.grammar.outline.produces s r :=
      (steps.only_old (fun new => other new.reserved) not_false).1
    by_cases own : s = rule.name
    · subst own
      rcases made.sound (settles.second steps.counts) produced with old | stands
      · exact .inl (before old)
      · exact .inr ⟨rule, List.mem_cons_self, rfl, stands⟩
    · exact .inl (before ((made.steps.only_old (fun new => other new.reserved) own).1 produced))
  · simpa using made.complete (settles.second steps.counts)

theorem lowerRules_made {rules : List Rule} (free : ∀ rule ∈ rules, ¬ Reserved rule.name)
    (tame : ∀ rule ∈ rules, Tame (Alternative.identifiersOfAll rule.alternatives) rule.literals)
    (sound : l.Sound) (done : rules.forM lowerRule l = .ok () l') : MadeRules l l' rules := by
  induction rules generalizing l with
  | nil =>
    cases done
    exact ⟨(Steps.refl sound).narrow fun _ none => none.elim, by simp,
      fun _ _ _ _ produced => .inl produced, by simp⟩
  | cons rule rules ih =>
    obtain ⟨free₁, free⟩ := List.forall_mem_cons.1 free
    obtain ⟨tame₁, tame⟩ := List.forall_mem_cons.1 tame
    obtain ⟨⟨⟩, l₁, first, rest⟩ := bind_eq_ok.1 done
    have made := lowerRule_made sound free₁ tame₁ first
    have later := ih free tame made.steps.sound rest
    have before : ∀ {g}, Settles l l' g → Settles l l₁ g := by
      intro g settles
      refine settles.first later.steps ?_
      rintro s new ⟨other, mem, rfl⟩
      exact free other mem new.reserved
    refine ⟨(made.steps.trans later.steps).narrow ?_, ?_, fun settles s r other produced => ?_,
      fun settles => ?_⟩
    · rintro s (⟨other, mem, named⟩ | ⟨other, mem, named⟩)
      · exact .inr ⟨other, by simp_all, named⟩
      · exact .inr ⟨other, List.mem_cons_of_mem _ mem, named⟩
    · refine List.forall_mem_cons.2 ⟨?_, later.declared⟩
      obtain ⟨id, x, at_x, named, kind⟩ := made.declared rule List.mem_cons_self
      obtain ⟨x', at_x', named', same⟩ := later.steps.keeps at_x
      exact ⟨id, x', at_x', named'.trans named, (same (by rw [kind]; decide)).trans kind⟩
    · rcases later.sound (settles.second made.steps.counts) other produced with old | ⟨found, mem, rest⟩
      · rcases made.sound (before settles) other old with old | ⟨found, mem, rest⟩
        · exact .inl old
        · exact .inr ⟨found, by simp_all, rest⟩
      · exact .inr ⟨found, List.mem_cons_of_mem _ mem, rest⟩
    · exact List.forall_mem_cons.2 ⟨made.complete (before settles) rule List.mem_cons_self,
        later.complete (settles.second made.steps.counts)⟩

/-! ## Declarations -/

/-- A list of declarations adds no production. -/
theorem declare_steps {α β : Type} {f : α → Build β} {as : List α}
    (declares : ∀ a ∈ as, ∀ {g : Grammar}, g.symbols.Lawful → g.ActionsNamed →
      Ends (f a) g (fun _ => g.Declares) fun _ => True)
    (sound : l.Sound) (done : (as.forM fun a => do let _ ← build (f a)) l = .ok () l') :
    Steps l l' fun _ => False := by
  induction as generalizing l with
  | nil =>
    cases done
    exact .refl sound
  | cons a as ih =>
    obtain ⟨first, later⟩ := List.forall_mem_cons.1 declares
    obtain ⟨⟨⟩, l₁, done₁, rest⟩ := bind_eq_ok.1 done
    obtain ⟨b, l₂, built, ended⟩ := bind_eq_ok.1 done₁
    cases ended
    obtain ⟨g, declared, rfl⟩ := build_eq_ok.1 built
    have ends := first sound.opened.table sound.actions
    rw [Ends, declared] at ends
    have steps := sound.steps_of_declares ends
    exact (steps.trans (ih later steps.sound rest)).narrow (by simp)

theorem sound_fresh : Sound {} where
  opened := Grammar.open_fresh
  actions := by
    intro id s at_s
    obtain ⟨i, rfl, slot⟩ := SymbolTable.at?_eq_some.1 at_s
    match i with
    | 0 | 1 => cases slot
    | 2 =>
      cases slot
      exact iff_of_false (by decide) fun ⟨n, eq⟩ => Grammar.actionName_ne (by decide) eq.symm
    | i + 3 => cases slot
  made := by
    rintro h n r ⟨k, p, hp, -⟩
    cases hp

variable {d : Description}

theorem mem_literals {t : String} :
    t ∈ d.literals ↔ t ∈ d.keywords.map KeywordDecl.text ∨ ∃ rule ∈ d.rules, t ∈ rule.literals := by
  rw [Description.literals, ← OrderedSet.mem_def, OrderedSet.mem_ofList, List.mem_append, List.mem_flatMap]

theorem mem_identifiers {name : String} : name ∈ d.identifiers ↔ (∃ t ∈ d.tokens, t.name = name) ∨
    (∃ s ∈ d.symbols, s.name = name) ∨
    ∃ rule ∈ d.rules, name = rule.name ∨ name ∈ Alternative.identifiersOfAll rule.alternatives := by
  simp [Description.identifiers]

/-- What is made of the rules of a description. -/
theorem lower_made (tame : Tame d.identifiers d.literals) (done : lower d {} = .ok () l) :
    ∃ l₁ l₂ start, Steps {} l₁ (fun _ => False) ∧ MadeRules l₁ l₂ d.rules ∧
      Grammar.close start l₂.grammar = .ok () l.grammar := by
  have plain : ∀ name ∈ d.identifiers, ¬ Marked name := fun name mem marked =>
    tame.identifiers name mem (.inl marked)
  obtain ⟨⟨⟩, a, keywords, rest⟩ := bind_eq_ok.1 done
  obtain ⟨⟨⟩, b, tokens, rest⟩ := bind_eq_ok.1 rest
  obtain ⟨⟨⟩, c, symbols, rest⟩ := bind_eq_ok.1 rest
  obtain ⟨⟨⟩, e, precedences, rest⟩ := bind_eq_ok.1 rest
  obtain ⟨⟨⟩, f, rules, rest⟩ := bind_eq_ok.1 rest
  obtain ⟨g, closed, rfl⟩ := build_eq_ok.1 rest
  have first : Steps {} a fun _ => False := by
    refine declare_steps (fun k mem g lawful actions => ?_) sound_fresh keywords
    have literal := tame.literals k.text (mem_literals.2 (.inl (List.mem_map_of_mem mem)))
    exact (Grammar.ends_declareTerminal_declares lawful actions literal).mono (fun _ _ h => h.1) fun _ h => h
  have second : Steps a b fun _ => False := by
    refine declare_steps (fun t mem g lawful actions => ?_) first.sound tokens
    have free := plain t.name (mem_identifiers.2 (.inl ⟨t, mem, rfl⟩))
    exact (Grammar.ends_declareTerminal_declares lawful actions free).mono (fun _ _ h => h.1) fun _ h => h
  have third : Steps b c fun _ => False := by
    refine declare_steps (fun s mem g lawful actions => ?_) second.sound symbols
    have free := plain s.name (mem_identifiers.2 (.inr (.inl ⟨s, mem, rfl⟩)))
    exact (Grammar.ends_declareNonterminal_declares lawful actions free s.initialiser).mono
      (fun _ _ h => h.1) fun _ h => h
  have fourth : Steps c e fun _ => False :=
    declare_steps (fun p _ g lawful actions =>
      Grammar.ends_declarePrecedence_declares lawful actions p.associativity p.labels) third.sound precedences
  refine ⟨e, f, _, (((first.trans second).trans third).trans fourth).narrow (by simp), ?_, closed⟩
  refine lowerRules_made (fun rule mem => ?_) (fun rule mem => ?_) fourth.sound rules
  · exact tame.identifiers _ (mem_identifiers.2 (.inr (.inr ⟨rule, mem, .inl rfl⟩)))
  · exact tame.mono (fun name inside => mem_identifiers.2 (.inr (.inr ⟨rule, mem, .inr inside⟩)))
      fun t inside => mem_literals.2 (.inr ⟨rule, mem, inside⟩)

/-- The grammar of a description is lawful, and its outline is that of the rules and of helpers. -/
theorem lower_realizes (tame : Tame d.identifiers d.literals) (done : lower d {} = .ok () l) :
    l.grammar.Lawful ∧ l.grammar.outline.Realizes d := by
  obtain ⟨l₁, l₂, start, before, made, closed⟩ := lower_made tame done
  have ends := Grammar.ends_close_gains made.steps.sound.opened start
  rw [Ends, closed] at ends
  obtain ⟨marker, first, settled, keeps, produces⟩ := ends
  have settles : Settles l₁ l₂ l.grammar := by
    refine ⟨settled.toLawful, keeps, fun produced => produces.2 (.inl produced), fun new produced => ?_⟩
    refine (produces.1 produced).resolve_right ?_
    rintro ⟨rfl, -⟩
    obtain ⟨h, n, eq, -⟩ := new
    exact h.not_marked n (.inl eq.symm)
  have sound : ∀ {s r}, ¬ Reserved s → l.grammar.outline.produces s r →
      ∃ rule ∈ d.rules, rule.name = s ∧ Alternative.SomeStands l.grammar.outline rule.alternatives r := by
    intro s r free produced
    have own := (produces.1 produced).resolve_right fun marker => free (.inl (.inl marker.1))
    refine (made.sound settles free own).resolve_left fun old => ?_
    obtain ⟨n, p, hp, -⟩ := (before.only_old (fun new => free new.reserved) not_false).1 old
    cases hp
  refine ⟨settled.toLawful, sound, made.complete settles, fun produced mem free => ?_,
    settled.toLawful.not_terminal_of_produces, fun rule mem => ?_⟩
  · refine (settled.terminal_or_produces produced mem).imp_right ?_
    rintro ⟨r, own⟩
    obtain ⟨rule, inside, named, -⟩ := sound free own
    exact List.mem_map.2 ⟨rule, inside, named⟩
  · obtain ⟨id, x, at_x, named, kind⟩ := made.declared rule mem
    refine ⟨named ▸ keeps.not_terminal settled.toLawful at_x kind, ?_⟩
    exact tame.identifiers _ (mem_identifiers.2 (.inr (.inr ⟨rule, mem, .inl rfl⟩)))

end Lowering

/-- Lists in parentheses: an opening one, items with commas between them or nothing at all, a closing one,
and then the code of an action. An item is an identifier or a list. -/
def nestedLists : Description :=
  let span : Span := ⟨0, 0, 1, 1⟩
  let more := .mk [.literal "," .once span, .name "item" .once span] none
  let items := .mk [.name "item" .once span, .group [more] .star span] none
  { tokens := [⟨"ID", none, span⟩]
    rules := [
      ⟨"list", [.mk [.literal "(" .once span, .group [items] .opt span, .literal ")" .once span,
        .action "close" span] none], span⟩,
      ⟨"item", [.mk [.name "ID" .once span] none, .mk [.name "list" .once span] none], span⟩] }

end ParserGenerator
