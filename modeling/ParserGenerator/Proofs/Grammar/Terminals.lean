import ParserGenerator.Proofs.Grammar.Production
import ParserGenerator.Grammar.Close

/-!
# The names of terminals

Only the declaration of a terminal makes one: all other calls, closing among them, leave the names that stand
for terminals as they are. This also holds where the name of the start marker is used for something else.
-/

namespace ParserGenerator.Grammar

open Build
open SymbolTable (Declarable)

/-- The name stands for a terminal. -/
def NamesTerminal (g : Grammar) (name : String) : Prop :=
  ∃ id s, g.symbols.at? id = some s ∧ s.name = name ∧ s.kind = .terminal

/-- The symbols are still lawful, and these names have come to stand for terminals. -/
structure Introduces (names : String → Prop) (g g' : Grammar) : Prop where
  lawful : g'.symbols.Lawful
  terminal : ∀ name, g'.NamesTerminal name ↔ g.NamesTerminal name ∨ names name

variable {g g' g'' : Grammar} {s s' : Symbol} {name : String} {kind : SymbolKind} {names names' : String → Prop}

namespace Introduces

theorem of_same (lawful : g'.symbols.Lawful)
    (same : ∀ name, g'.NamesTerminal name ↔ g.NamesTerminal name) : Introduces (fun _ => False) g g' :=
  ⟨lawful, fun name => by rw [same, or_false]⟩

theorem refl (lawful : g.symbols.Lawful) : Introduces (fun _ => False) g g := .of_same lawful fun _ => .rfl

theorem trans (h : Introduces names g g') (h' : Introduces names' g' g'') :
    Introduces (fun name => names name ∨ names' name) g g'' :=
  ⟨h'.lawful, fun name => by rw [h'.terminal, h.terminal, or_assoc]⟩

theorem congr (h : Introduces names g g') (same : ∀ name, names name ↔ names' name) :
    Introduces names' g g' :=
  ⟨h.lawful, fun name => by rw [h.terminal, same]⟩

/-- Two steps of which neither introduces a terminal. -/
theorem silent_trans (h : Introduces (fun _ => False) g g') (h' : Introduces (fun _ => False) g' g'') :
    Introduces (fun _ => False) g g'' :=
  (h.trans h').congr fun _ => or_self_iff

end Introduces

/-! ## Changes of single symbols -/

/-- Grammars with the same symbols have the same terminals. -/
theorem introduces_of_symbols_eq (lawful : g.symbols.Lawful) (same : g'.symbols = g.symbols) :
    Introduces (fun _ => False) g g' :=
  .of_same (same ▸ lawful) fun name => by rw [NamesTerminal, NamesTerminal, same]

theorem introduces_update (lawful : g.symbols.Lawful) (at_s : g.symbols.at? s'.id = some s)
    (named : s'.name = s.name) (same : s'.kind = s.kind) :
    Introduces (fun _ => False) g { g with symbols := g.symbols.update s' } := by
  have after : ∀ id, (g.symbols.update s').at? id = if id = s'.id then some s' else g.symbols.at? id :=
    lawful.at?_update at_s named
  refine .of_same (lawful.update at_s named) fun name => ⟨?_, ?_⟩
  · rintro ⟨id, x, at_x, named_x, terminal⟩
    have at_x : (g.symbols.update s').at? id = some x := at_x
    rw [after] at at_x
    split at at_x
    · cases at_x
      exact ⟨s'.id, s, at_s, named.symm.trans named_x, same.symm.trans terminal⟩
    · exact ⟨id, x, at_x, named_x, terminal⟩
  · rintro ⟨id, x, at_x, named_x, terminal⟩
    by_cases own : id = s'.id
    · rw [own, at_s] at at_x
      cases at_x
      exact ⟨s'.id, s', (after _).trans (if_pos rfl), named.trans named_x, same.trans terminal⟩
    · exact ⟨id, x, (after _).trans ((if_neg own).trans at_x), named_x, terminal⟩

/-- A look-up introduces its name if it makes a terminal of it, or finds one. -/
theorem introduces_resolve (lawful : g.symbols.Lawful) (declarable : Declarable kind)
    (resolved : resolve name kind g = .ok s g') : g'.symbols.at? s.id = some s ∧ s.name = name ∧
      (s.kind = .terminal ∧ kind = .terminal → Introduces (fun n => n = name) g g') ∧
      (kind ≠ .terminal → Introduces (fun _ => False) g g') := by
  obtain ⟨t, found, rfl⟩ := onSymbols_eq_ok.1 resolved
  rcases lawful.resolve_cases declarable with ⟨x, t', found', lawful', extends', at_x, named⟩ | refused
  · rw [found'] at found
    cases found
    have kept : ∀ {n}, g.NamesTerminal n → NamesTerminal { g with symbols := t } n := by
      rintro n ⟨id, y, at_y, named_y, terminal⟩
      obtain ⟨z, at_z, named_z, same⟩ := extends'.keeps at_y (by rw [terminal]; decide)
      exact ⟨id, z, at_z, named_z.trans named_y, same.trans terminal⟩
    have origin : ∀ {n}, NamesTerminal { g with symbols := t } n →
        g.NamesTerminal n ∨ n = name ∧ kind = .terminal := by
      rintro n ⟨id, y, at_y, named_y, terminal⟩
      rcases lawful.origin_of_resolve found' at_y with ⟨z, at_z, named_z, same⟩ | ⟨own, same⟩
      · exact .inl ⟨id, z, at_z, named_z.symm.trans named_y, same.symm.trans terminal⟩
      · exact .inr ⟨named_y.symm.trans own, same.symm.trans terminal⟩
    refine ⟨at_x, named, fun ⟨terminal, _⟩ => ⟨lawful', fun n => ⟨fun h => ?_, ?_⟩⟩, fun other =>
      .of_same lawful' fun n => ⟨fun h => ?_, kept⟩⟩
    · exact (origin h).imp_right And.left
    · rintro (h | rfl)
      · exact kept h
      · exact ⟨s.id, s, at_x, named, terminal⟩
    · exact (origin h).resolve_right fun own => other own.2
  · rw [refused] at found
    cases found

/-! ## Calls -/

theorem introduces_declareTerminal (lawful : g.symbols.Lawful) (declared : declareTerminal name g = .ok s g') :
    Introduces (fun n => n = name) g g' := by
  rw [declareTerminal] at declared
  obtain ⟨x, g₁, resolved, declared⟩ := bind_eq_ok.1 declared
  obtain ⟨-, -, introduces, -⟩ := introduces_resolve lawful declarable_terminal resolved
  by_cases clash : x.kind ≠ .terminal
  · rw [if_pos clash] at declared
    cases declared
  · rw [if_neg clash] at declared
    cases declared
    exact introduces ⟨Classical.not_not.1 clash, rfl⟩

theorem introduces_declareNonterminal (lawful : g.symbols.Lawful) {initialiser : String}
    (declared : declareNonterminal name initialiser g = .ok s g') : Introduces (fun _ => False) g g' := by
  rw [declareNonterminal] at declared
  obtain ⟨x, g₁, resolved, declared⟩ := bind_eq_ok.1 declared
  obtain ⟨at_x, -, -, introduces⟩ := introduces_resolve lawful declarable_nonterminal resolved
  have silent := introduces (by decide)
  by_cases clash : x.kind ≠ .nonterminal
  · rw [if_pos clash] at declared
    cases declared
  · rw [if_neg clash] at declared
    by_cases plain : initialiser.isEmpty = true
    · rw [if_pos plain] at declared
      cases declared
      exact silent
    · rw [if_neg plain] at declared
      cases declared
      exact silent.silent_trans (introduces_update silent.lawful at_x rfl rfl)

theorem symbols_eq_declareLabel {p : Precedence} {label : String}
    (declared : declareLabel p label g = .ok () g') : g'.symbols = g.symbols := by
  rw [declareLabel] at declared
  obtain ⟨_, _, got, declared⟩ := bind_eq_ok.1 declared
  cases got
  by_cases twice : g.labels.contains label = true
  · rw [if_pos twice] at declared
    cases declared
  · rw [if_neg twice] at declared
    cases declared
    rfl

theorem introduces_declarePrecedence (lawful : g.symbols.Lawful) {associativity : String} {labels : List String}
    {p : Precedence} (declared : declarePrecedence associativity labels g = .ok p g') :
    Introduces (fun _ => False) g g' := by
  apply introduces_of_symbols_eq lawful
  rw [declarePrecedence] at declared
  obtain ⟨_, _, levelled, declared⟩ := bind_eq_ok.1 declared
  cases levelled
  cases known : Associativity.ofName? associativity with
  | none =>
    rw [known] at declared
    cases declared
  | some a =>
    rw [known] at declared
    obtain ⟨_, _, got, declared⟩ := bind_eq_ok.1 declared
    cases got
    obtain ⟨⟨⟩, g₁, labelled, declared⟩ := bind_eq_ok.1 declared
    cases declared
    have all : ∀ {labels : List String} {p : Precedence} {h h' : Grammar},
        labels.forM (declareLabel p) h = .ok () h' → h'.symbols = h.symbols := by
      intro labels p
      induction labels with
      | nil =>
        intro h h' done
        cases done
        rfl
      | cons label labels ih =>
        intro h h' done
        obtain ⟨⟨⟩, h₁, first, rest⟩ := bind_eq_ok.1 done
        exact (ih rest).trans (symbols_eq_declareLabel first)
    have same := all labelled
    exact same

theorem introduces_newAction (lawful : g.symbols.Lawful) {text : String} {trailing : Bool}
    (made : newAction text trailing g = .ok s g') : Introduces (fun _ => False) g g' := by
  rw [newAction] at made
  obtain ⟨_, _, counted, made⟩ := bind_eq_ok.1 made
  cases counted
  obtain ⟨_, _, got, made⟩ := bind_eq_ok.1 made
  cases got
  obtain ⟨x, g₁, resolved, made⟩ := bind_eq_ok.1 made
  cases made
  have counted : Introduces (fun _ => False) g { g with actionCount := g.actionCount + 1 } :=
    introduces_of_symbols_eq lawful rfl
  obtain ⟨at_x, -, -, introduces⟩ := introduces_resolve counted.lawful (declarable_action trailing) resolved
  have silent := introduces (by cases trailing <;> decide)
  exact counted.silent_trans (silent.silent_trans (introduces_update silent.lawful at_x rfl rfl))

theorem introduces_rightId (lawful : g.symbols.Lawful) {left : String} {item : RightSymbol} {id : Int}
    (made : rightId left item g = .ok id g') : Introduces (fun _ => False) g g' := by
  rw [rightId] at made
  obtain ⟨x, g₁, looked, made⟩ := bind_eq_ok.1 made
  have same : g' = g₁ := by
    by_cases ended : x.kind = .endMarker
    · rw [if_pos ended] at made
      cases made
    · rw [if_neg ended] at made
      cases made
      rfl
  rw [same]
  cases item with
  | name name =>
    rw [rightSymbol] at looked
    by_cases nameless : name.isEmpty = true
    · rw [if_pos nameless] at looked
      cases looked
    · rw [if_neg nameless] at looked
      exact (introduces_resolve lawful declarable_unknown looked).2.2.2 (by decide)
  | interned y =>
    rw [rightSymbol] at looked
    obtain ⟨_, _, got, looked⟩ := bind_eq_ok.1 looked
    cases got
    by_cases foreign : (g.symbols.get? y.name).map Symbol.name ≠ some y.name
    · rw [if_pos foreign] at looked
      cases looked
    · rw [if_neg foreign] at looked
      cases looked
      exact .refl lawful
  | foreign name => cases looked

theorem introduces_rightIds (lawful : g.symbols.Lawful) {left : String} {items : List RightSymbol} {ids : List Int}
    (made : items.mapM (rightId left) g = .ok ids g') : Introduces (fun _ => False) g g' := by
  induction items generalizing g ids with
  | nil =>
    cases made
    exact .refl lawful
  | cons item items ih =>
    rw [List.mapM_cons] at made
    obtain ⟨id, g₁, first, made⟩ := bind_eq_ok.1 made
    obtain ⟨ids', g₂, rest, made⟩ := bind_eq_ok.1 made
    cases made
    have silent := introduces_rightId lawful first
    exact silent.silent_trans (ih silent.lawful rest)

theorem introduces_withProduction (lawful : g.symbols.Lawful) {p : Production} {x : Symbol}
    (at_x : g.symbols.at? p.left = some x) : Introduces (fun _ => False) g (g.withProduction p x) := by
  have place : g.symbols.at? ({ x with productions := x.productions ++ [p.number] } : Symbol).id = some x :=
    (lawful.id_eq at_x).symm ▸ at_x
  have filed : Introduces (fun _ => False) g { g with byNumber := g.byNumber.insert p.number p } :=
    introduces_of_symbols_eq lawful rfl
  exact filed.silent_trans (introduces_update (g := { g with byNumber := g.byNumber.insert p.number p })
    lawful place rfl rfl)

theorem introduces_register (lawful : g.symbols.Lawful) {p : Production} (registered : register p g = .ok () g') :
    Introduces (fun _ => False) g g' := by
  obtain ⟨x, -, at_x, rfl⟩ := register_eq_ok registered
  exact introduces_withProduction lawful at_x

theorem introduces_endsWith (lawful : g.symbols.Lawful) : ∀ {action : Option String} {actions : List Int},
    EndsWith action g actions g' → Introduces (fun _ => False) g g'
  | none, _, ⟨_, same⟩ => by
    subst same
    exact .refl lawful
  | some _, _, ⟨_, made, _⟩ => introduces_newAction lawful made

theorem introduces_addProduction (lawful : g.symbols.Lawful) {left : String} {items : List RightSymbol}
    {action label : Option String} {p : Production}
    (added : addProduction left items action label g = .ok p g') : Introduces (fun _ => False) g g' := by
  obtain ⟨s, x, ids, actions, g₁, g₂, g₃, stages⟩ := exists_stages added
  have first := (introduces_resolve lawful declarable_nonterminal stages.resolved).2.2.2 (by decide)
  have second := first.silent_trans (introduces_rightIds first.lawful stages.found)
  have third := second.silent_trans (introduces_endsWith second.lawful stages.ended)
  have at_left : g₃.symbols.at? p.left = some x := stages.made ▸ stages.at_left
  have filed := third.silent_trans (introduces_withProduction third.lawful at_left)
  rw [stages.after]
  exact filed.silent_trans (introduces_of_symbols_eq filed.lawful rfl)

/-! ## Closing -/

theorem introduces_applyLabel (lawful : g.symbols.Lawful) {label : String × Precedence}
    (applied : applyLabel label g = .ok () g') : Introduces (fun _ => False) g g' := by
  rw [applyLabel] at applied
  obtain ⟨_, _, got, applied⟩ := bind_eq_ok.1 applied
  cases got
  cases found : g.symbols.get? label.1 with
  | none =>
    rw [found] at applied
    cases applied
    exact .refl lawful
  | some x =>
    simp only [found] at applied
    by_cases terminal : x.kind = .terminal
    · rw [if_pos terminal] at applied
      cases applied
      exact introduces_update lawful (lawful.get?_eq_some.1 found).1 rfl rfl
    · rw [if_neg terminal] at applied
      cases applied
      exact .refl lawful

theorem introduces_applyLabels (lawful : g.symbols.Lawful) {labels : List (String × Precedence)}
    (applied : labels.forM applyLabel g = .ok () g') : Introduces (fun _ => False) g g' := by
  induction labels generalizing g with
  | nil =>
    cases applied
    exact .refl lawful
  | cons label labels ih =>
    obtain ⟨⟨⟩, g₁, first, rest⟩ := bind_eq_ok.1 applied
    have silent := introduces_applyLabel lawful first
    exact silent.silent_trans (ih silent.lawful rest)

theorem introduces_markStart (lawful : g.symbols.Lawful) (marked : markStart s g = .ok () g') :
    Introduces (fun _ => False) g g' := by
  rw [markStart] at marked
  obtain ⟨_, _, got, marked⟩ := bind_eq_ok.1 marked
  cases got
  by_cases there : (!g.byNumber.contains 0) = true
  · rw [if_pos there] at marked
    obtain ⟨marker, g₁, resolved, marked⟩ := bind_eq_ok.1 marked
    have silent := (introduces_resolve lawful declarable_nonterminal resolved).2.2.2 (by decide)
    exact silent.silent_trans (introduces_register silent.lawful marked)
  · rw [if_neg there] at marked
    cases marked
    exact .refl lawful

theorem introduces_close (lawful : g.symbols.Lawful) {start : Option String}
    (closed : close start g = .ok () g') : Introduces (fun _ => False) g g' := by
  rw [close] at closed
  obtain ⟨_, _, got, closed⟩ := bind_eq_ok.1 closed
  cases got
  by_cases done : g.closed = true
  · rw [if_pos done] at closed
    cases closed
    exact .refl lawful
  rw [if_neg done] at closed
  obtain ⟨_, _, chosen, closed⟩ := bind_eq_ok.1 closed
  cases chosen
  obtain ⟨_, _, got, closed⟩ := bind_eq_ok.1 closed
  cases got
  have begun : Introduces (fun _ => False) g { g with start := start <|> g.start } :=
    introduces_of_symbols_eq lawful rfl
  cases given : start <|> g.start with
  | none =>
    simp only [given] at closed
    cases closed
  | some name =>
    simp only [given] at closed begun
    rw [closeOver] at closed
    obtain ⟨⟨⟩, -, closed⟩ := query_bind_eq_ok.1 closed
    obtain ⟨⟨⟩, -, closed⟩ := query_bind_eq_ok.1 closed
    obtain ⟨x, -, closed⟩ := query_bind_eq_ok.1 closed
    obtain ⟨_, _, got, closed⟩ := bind_eq_ok.1 closed
    cases got
    obtain ⟨⟨⟩, g₁, applied, closed⟩ := bind_eq_ok.1 closed
    have labelled := begun.silent_trans (introduces_applyLabels begun.lawful applied)
    obtain ⟨⟨⟩, g₂, marked, closed⟩ := bind_eq_ok.1 closed
    have marked := labelled.silent_trans (introduces_markStart labelled.lawful marked)
    obtain ⟨ps, -, closed⟩ := query_bind_eq_ok.1 closed
    cases closed
    have frozen : (g₂.symbols.freeze).Lawful :=
      ⟨marked.lawful.id_eq, marked.lawful.name_inj, marked.lawful.endMarker, marked.lawful.dense⟩
    exact marked.silent_trans (.of_same frozen fun _ => .rfl)

end ParserGenerator.Grammar
