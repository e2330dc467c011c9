import ParserGenerator.Description.Reader
import ParserGenerator.Proofs.Description.Planned
import ParserGenerator.Proofs.Grammar.Order

/-!
# Made-up names

Helpers, actions and the start marker share a table of symbols with the words of the description. The names that
they are given are looked up there like any other, so a word of the same name would take their place. Each of
them whose name is none of the words has a symbol of its own, which stands where the plan has it and nowhere
else.
-/

namespace ParserGenerator

open Build

/-! ## Closed grammars -/

namespace Grammar

variable {g g₁ g' : Grammar}

/-- Closing files one more production. -/
theorem ClosedFrom.exists_values (source : ClosedFrom g g₁ g') : ∃ marker start, g'.Settled marker start ∧
    g'.byNumber.values = g.byNumber.values ++ [opening marker start] := by
  obtain ⟨-, grown, ⟨_, s, checked, ps, rfl⟩, -, -, ⟨marker, start, settled⟩, -⟩ := source
  have values : ((g₁.marked s).sealed ps).byNumber.values =
      g.byNumber.values ++ [⟨0, g₁.symbols.slots.size, [s], none, none⟩] := by
    show (g₁.byNumber.insert 0 _).values = _
    rw [OrderedMap.values, OrderedMap.toList_insert checked.toOpen.get?_zero, List.map_append, ← grown.byNumber]
    rfl
  obtain ⟨filed, eq, -⟩ := settled.exists_filed
  obtain ⟨-, last⟩ := List.append_inj' (values.symm.trans eq) rfl
  exact ⟨marker, start, settled, last ▸ values⟩

/-- The start symbol has a production besides that of the start marker. -/
theorem Settled.exists_more {marker start : Int} (settled : g.Settled marker start) :
    g.byNumber.values ≠ [opening marker start] := by
  intro only
  obtain ⟨s, at_s, kind⟩ := settled.start_kind
  have produced := settled.produced at_s kind
  rw [settled.filed at_s, only] at produced
  refine settled.marker_right settled.zero (List.mem_singleton.2 ?_)
  by_contra other
  exact produced (by simp [opening, other])

end Grammar

namespace Description

variable {d : Description} {g : Grammar} {s : Symbol} {x y : Sign} {l : Lowering} {marker start : Int}

/-- A lowering follows the plan, and its grammar has been closed. -/
structure Closes (d : Description) (l : Lowering) (g : Grammar) (marker start : Int) : Prop where
  follows : Lowering.Follows d.words d.plan l
  keeps : l.grammar.Keeps g
  codes : l.grammar.KeepsCodes (fun _ => False) g
  settled : g.Settled marker start
  listed : g.productions.toList = Grammar.opening marker start :: l.grammar.byNumber.values
  started : g.start = d.startName

theorem exists_closes (made : d.toGrammar = .ok g) (unmarked : Grammar.startMarkerName ∉ d.words) :
    ∃ l marker start, d.Closes l g marker start := by
  rw [toGrammar] at made
  split at made
  case h_2 => cases made
  rename_i u l' lowered
  cases made
  obtain ⟨l, follows, closed⟩ := Lowering.lower_follows unmarked lowered
  have ends := Grammar.ends_close_of_open follows.drafts.opened d.startName
  rw [Ends, closed] at ends
  obtain ⟨g₁, source⟩ := ends
  obtain ⟨marker, start, settled, values⟩ := source.exists_values
  obtain ⟨ps, filed, sorted, -⟩ := settled.exists_sorted
  refine ⟨l, marker, start, follows, source.keeps,
    Grammar.close_keepsCodes follows.drafts.opened closed, settled, ?_, ?_⟩
  · rw [settled.toList_productions, sorted, List.append_cancel_right (filed.symm.trans values)]
  · rw [source.start]
    cases first : d.startName with
    | some name => rfl
    | none =>
      -- Without rules the marker would have the only production, but the start symbol has one too.
      have ruleless : d.rules = [] := by
        cases rules : d.rules with
        | nil => rfl
        | cons r rs =>
          rw [startName, rules] at first
          cases chosen : d.start.filter (· ≠ "") <;> rw [chosen] at first <;> cases first
      have rows := follows.drafts.rows
      rw [plan, ruleless] at rows
      refine absurd ?_ settled.exists_more
      rw [values]
      exact congrArg (· ++ [_]) (List.map_eq_nil_iff.1 rows)

/-- By their names, the productions are those of the plan. -/
theorem Closes.written (closes : d.Closes l g marker start) :
    g.productions.toList.map g.written = d.rewritings.map (·.map Sign.name) := by
  obtain ⟨m, at_m, marked⟩ := closes.settled.marker_name
  obtain ⟨s, name, at_s, chosen, named⟩ := closes.settled.start_name
  rw [closes.started] at chosen
  rw [closes.listed, rewritings, List.map_cons, List.map_cons, chosen,
    closes.follows.drafts.opened.toLawful.map_written closes.keeps, closes.follows.drafts.rows]
  congr 1
  simp [Grammar.written, Rewriting.map, Grammar.opening, Grammar.nameAt_eq at_m, Grammar.nameAt_eq at_s, marked,
    named, Sign.name]

/-! ## Symbols of their own -/

/-- The sign is made up for the description. -/
def Makes (d : Description) : Sign → Prop
  | .word _ => False
  | .helper h n => 0 < n ∧ n ≤ d.plan.count h
  | .action n => 0 < n ∧ n ≤ d.blocks.length
  | .marker => True

instance : DecidablePred d.Makes
  | .word _ => inferInstanceAs (Decidable False)
  | .helper h n => inferInstanceAs (Decidable (0 < n ∧ n ≤ d.plan.count h))
  | .action n => inferInstanceAs (Decidable (0 < n ∧ n ≤ d.blocks.length))
  | .marker => inferInstanceAs (Decidable True)

theorem Makes.isMadeUp (makes : d.Makes x) : x.IsMadeUp := by
  cases x with
  | word => exact makes
  | _ => trivial

/-- What the symbol of a made-up sign is. -/
def IsMadeFor (d : Description) (g : Grammar) (s : Symbol) : Sign → Prop
  | .word _ => False
  | .helper h _ =>
    s.kind = .nonterminal ∧ (h ≠ .group → ∃ b, (g.productions.toList.filter (·.left = s.id)).map Production.right =
      [[], if h = .repetition then [b, s.id] else [b]])
  | .action n =>
    (∃ code trailing, d.blocks[n - 1]? = some (code, trailing) ∧ s.actionText = some code ∧
      s.kind = if trailing then .trailingAction else .innerAction) ∧
    (g.productions.toList.flatMap Production.right).count s.id = 1
  | .marker => s.kind = .nonterminal ∧ s.productions = [0]

/-- The symbol is that of a made-up sign: it is none of the words, and it stands in the productions where the
plan has the sign and nowhere else. -/
structure IsOwn (d : Description) (g : Grammar) (x : Sign) (s : Symbol) : Prop where
  registered : g.symbols.at? s.id = some s
  named : s.name = x.name
  fresh : s.name ∉ d.words
  made : d.IsMadeFor g s x
  lefts : g.productions.toList.map (fun p => decide (p.left = s.id)) =
    d.rewritings.map fun w => decide (w.left = x)
  rights : g.productions.toList.map (fun p => p.right.map fun id => decide (id = s.id)) =
    d.rewritings.map fun w => w.right.map fun y => decide (y = x)

theorem mem_words_of_rewritings {w : Rewriting Sign} (mem : w ∈ d.rewritings) {name : String}
    (inside : .word name ∈ w.left :: w.right) : name ∈ d.words := by
  rcases List.mem_cons.1 mem with rfl | later
  · have first : d.startName = some name := by simpa using inside
    simp [words, first]
  · exact d.sound_plan.written w later _ inside

/-- Among the signs of the plan, one that is made up is told by its name. -/
theorem name_eq_iff (makes : d.Makes x) (fresh : x.name ∉ d.words) {w : Rewriting Sign} (mem : w ∈ d.rewritings)
    (inside : y ∈ w.left :: w.right) : y.name = x.name ↔ y = x := by
  constructor
  · intro same
    cases y with
    | word name => exact absurd (same ▸ mem_words_of_rewritings mem inside) fresh
    | _ => exact Sign.eq_of_name trivial makes.isMadeUp same
  · rintro rfl
    rfl

/-- In the productions, the symbol with the name of a sign is told by the name. -/
theorem Closes.nameAt_eq_iff (closes : d.Closes l g marker start) (at_s : g.symbols.at? s.id = some s)
    (named : s.name = x.name) {p : Production} (mem : p ∈ g.productions.toList) {id : Int}
    (inside : id ∈ p.left :: p.right) : g.nameAt id = x.name ↔ id = s.id := by
  have settled := closes.settled
  rw [settled.toList_productions] at mem
  obtain ⟨n, hp⟩ := Grammar.mem_sortedProductions.1 mem
  obtain ⟨y, at_y⟩ : ∃ y, g.symbols.at? id = some y := by
    rcases List.mem_cons.1 inside with rfl | right
    · exact (settled.left hp).imp fun _ left => left.1
    · exact (settled.right hp id right).2
  rw [Grammar.nameAt_eq at_y, ← named]
  constructor
  · exact settled.table.name_inj at_y at_s
  · rintro rfl
    rw [at_s] at at_y
    cases at_y
    rfl

section

variable (closes : d.Closes l g marker start) (makes : d.Makes x) (fresh : x.name ∉ d.words)
  (at_s : g.symbols.at? s.id = some s) (named : s.name = x.name)

include closes makes fresh at_s named

/-- A symbol with the name of a made-up sign stands on the left where the sign does. -/
theorem Closes.lefts : g.productions.toList.map (fun p => decide (p.left = s.id)) =
    d.rewritings.map fun w => decide (w.left = x) := by
  have rows := congrArg (List.map fun w => decide (w.left = x.name)) closes.written
  rw [List.map_map, List.map_map] at rows
  calc
    _ = g.productions.toList.map _ := List.map_congr_left fun p mem =>
      (decide_eq_decide.2 (closes.nameAt_eq_iff at_s named mem List.mem_cons_self)).symm
    _ = d.rewritings.map _ := rows
    _ = _ := List.map_congr_left fun w mem => decide_eq_decide.2 (name_eq_iff makes fresh mem List.mem_cons_self)

theorem Closes.rights : g.productions.toList.map (fun p => p.right.map fun id => decide (id = s.id)) =
    d.rewritings.map fun w => w.right.map fun y => decide (y = x) := by
  have rows := congrArg (List.map fun w => w.right.map fun name => decide (name = x.name)) closes.written
  rw [List.map_map, List.map_map] at rows
  refine (List.map_congr_left fun p mem => ?_).trans (rows.trans (List.map_congr_left fun w mem => ?_))
  · simp only [Function.comp_apply, Grammar.written, List.map_map]
    exact List.map_congr_left fun id inside => (decide_eq_decide.2
      (closes.nameAt_eq_iff at_s named mem (List.mem_cons_of_mem _ inside))).symm
  · simp only [Function.comp_apply, Rewriting.map, List.map_map]
    exact List.map_congr_left fun y inside =>
      decide_eq_decide.2 (name_eq_iff makes fresh mem (List.mem_cons_of_mem _ inside))

/-- The productions of a symbol with the name of a made-up sign are those of the sign. -/
theorem Closes.rowsOf : (g.productions.toList.filter (·.left = s.id)).map g.written =
    (d.rewritings.filter (·.left = x)).map (·.map Sign.name) := by
  have rows := congrArg (List.filter fun w => decide (w.left = x.name)) closes.written
  rw [List.filter_map, List.filter_map] at rows
  calc
    _ = (g.productions.toList.filter _).map g.written := congrArg _ (List.filter_congr fun p mem =>
      (decide_eq_decide.2 (closes.nameAt_eq_iff at_s named mem List.mem_cons_self)).symm)
    _ = (d.rewritings.filter _).map _ := rows
    _ = _ := congrArg _ (List.filter_congr fun w mem =>
      decide_eq_decide.2 (name_eq_iff makes fresh mem List.mem_cons_self))

end

/-- A helper for an optional or repeated symbol has one empty production and one that goes on. -/
theorem Closes.exists_pair (closes : d.Closes l g marker start) {h : Helper} {n : Nat}
    (makes : d.Makes (.helper h n)) (fresh : h.name n ∉ d.words) (at_s : g.symbols.at? s.id = some s)
    (named : s.name = h.name n) (other : h ≠ .group) :
    ∃ b, (g.productions.toList.filter (·.left = s.id)).map Production.right =
      [[], if h = .repetition then [b, s.id] else [b]] := by
  obtain ⟨base, pair⟩ := d.paired_plan.pairs other makes.1 makes.2
  have rows := closes.rowsOf makes fresh at_s named
  have later : d.rewritings.filter (·.left = .helper h n) = d.plan.rowsOf (.helper h n) := by
    simp [rewritings, Plan.rowsOf]
  rw [later, pair, List.map_cons, List.map_cons, List.map_nil, List.map_eq_cons_iff] at rows
  obtain ⟨p, ps, two, first, rest⟩ := rows
  obtain ⟨q, ps', rfl, second, nil⟩ := List.map_eq_cons_iff.1 rest
  rw [List.map_eq_nil_iff.1 nil] at two
  have listed : q ∈ g.productions.toList.filter (·.left = s.id) := by simp [two]
  have mem := List.mem_of_mem_filter listed
  have empty : p.right = [] := List.map_eq_nil_iff.1 (congrArg Rewriting.right first)
  have more : q.right.map g.nameAt = (Plan.goesOn h n base).map Sign.name := congrArg Rewriting.right second
  rw [two, List.map_cons, List.map_cons, empty, List.map_nil]
  -- The second right-hand side is known by its names; the helper in it is told by its own.
  rw [Plan.goesOn] at more
  split_ifs at more ⊢ with repeats
  · obtain ⟨b, bs, eq, -, rest⟩ := List.map_eq_cons_iff.1 more
    obtain ⟨c, cs, rfl, itself, nil⟩ := List.map_eq_cons_iff.1 rest
    rw [List.map_eq_nil_iff.1 nil] at eq
    have place : c = s.id :=
      (closes.nameAt_eq_iff (x := .helper h n) at_s named mem (by simp [eq])).1 itself
    exact ⟨b, by rw [eq, place]⟩
  · obtain ⟨b, bs, eq, -, nil⟩ := List.map_eq_cons_iff.1 more
    rw [List.map_eq_nil_iff.1 nil] at eq
    exact ⟨b, by rw [eq]⟩

theorem Closes.exists_action (closes : d.Closes l g marker start) {n : Nat} (makes : d.Makes (.action n))
    (fresh : Grammar.actionName n ∉ d.words) : ∃ code trailing, d.blocks[n - 1]? = some (code, trailing) ∧
      g.HasAction n code trailing := by
  obtain ⟨above, upto⟩ := makes
  have block : d.plan.blocks[n - 1]? = some d.blocks[n - 1] := by
    rw [d.blocks_plan, List.getElem?_eq_getElem]
  have place : n - 1 + 1 = n := by omega
  have has := closes.follows.drafts.actions block (place.symm ▸ fresh)
  rw [place] at has
  rw [d.blocks_plan] at block
  exact ⟨_, _, block, has.keeps closes.keeps closes.codes not_false⟩

/-- The symbol of an action stands once. -/
theorem count_right {n : Nat} {id : Int} (makes : d.Makes (.action n))
    (rights : g.productions.toList.map (fun p => p.right.map fun i => decide (i = id)) =
      d.rewritings.map fun w => w.right.map fun y => decide (y = .action n)) :
    (g.productions.toList.flatMap Production.right).count id = 1 := by
  -- Symbols and signs are counted by the marks that they leave, which are the same.
  have marks : ∀ {α : Type} [DecidableEq α] (as : List α) (a : α),
      as.count a = (as.map fun b => decide (b = a)).count true := by
    intro α _ as a
    rw [List.count_eq_countP, List.count_eq_countP, List.countP_map]
    refine List.countP_congr fun b _ => ?_
    simp
  have flat := congrArg List.flatten rights
  rw [← List.flatMap_def, ← List.flatMap_def, ← List.map_flatMap, ← List.map_flatMap] at flat
  have begins : (d.startName.map Sign.word).toList.count (.action n) = 0 := by
    cases d.startName <;> rfl
  have once := d.sound_plan.once n
  rw [List.count_nil, Nat.add_zero, if_pos ⟨makes.1, d.blocks_plan ▸ makes.2⟩] at once
  rw [marks, flat, ← marks, rewritings, List.flatMap_cons, List.count_append, begins, Nat.zero_add]
  exact once

/-- A made-up sign has a symbol of its own. -/
theorem Closes.exists_own (closes : d.Closes l g marker start) (makes : d.Makes x) (fresh : x.name ∉ d.words) :
    ∃ s, d.IsOwn g x s := by
  have settled := closes.settled
  have own : ∀ {id s}, g.symbols.at? id = some s → s.name = x.name →
      (g.symbols.at? s.id = some s → d.IsMadeFor g s x) → d.IsOwn g x s := by
    intro id s at_s named made
    rw [← settled.table.id_eq at_s] at at_s
    exact ⟨at_s, named, named ▸ fresh, made at_s, closes.lefts makes fresh at_s named,
      closes.rights makes fresh at_s named⟩
  cases x with
  | word name => exact makes.elim
  | helper h n =>
    obtain ⟨id, s, at_s, named, kind⟩ :=
      (closes.follows.helpers makes.1 makes.2).keeps closes.keeps (by decide)
    exact ⟨s, own at_s named fun at_s => ⟨kind, closes.exists_pair makes fresh at_s named⟩⟩
  | action n =>
    obtain ⟨code, trailing, block, id, s, at_s, ⟨named, kind⟩, text⟩ := closes.exists_action makes fresh
    exact ⟨s, own at_s named fun at_s =>
      ⟨⟨code, trailing, block, text, kind⟩, count_right makes (closes.rights makes fresh at_s named)⟩⟩
  | marker =>
    obtain ⟨s, at_s, named⟩ := settled.marker_name
    obtain ⟨s', at_s', kind⟩ := settled.marker_kind
    rw [at_s] at at_s'
    cases at_s'
    exact ⟨s, own at_s named fun _ => ⟨kind, settled.productions_marker at_s⟩⟩

end Description

/-- Helpers, actions and the start marker have symbols of their own if their names are none of the words: the
productions are those of the plan, and each of the symbols stands where the plan has it and nowhere else. -/
theorem Description.made_symbols_own {d : Description} {g : Grammar} (made : d.toGrammar = .ok g)
    (unmarked : Grammar.startMarkerName ∉ d.words) :
    g.productions.toList.map g.written = d.rewritings.map (·.map Sign.name) ∧
      ∀ x, d.Makes x → x.name ∉ d.words → ∃ s, d.IsOwn g x s := by
  obtain ⟨l, marker, start, closes⟩ := exists_closes made unmarked
  exact ⟨closes.written, fun _ makes fresh => closes.exists_own makes fresh⟩

theorem Description.made_symbols_own_nestedLists :
    ∃ g, nestedLists.toGrammar = .ok g ∧ Grammar.startMarkerName ∉ nestedLists.words ∧
      g.productions.toList.map g.written = nestedLists.rewritings.map (·.map Sign.name) ∧
      ∀ x ∈ [.helper .group 1, .helper .option 1, .helper .group 2, .helper .repetition 1, .action 1, .marker],
        nestedLists.Makes x ∧ x.name ∉ nestedLists.words ∧ ∃ s, nestedLists.IsOwn g x s := by
  have unmarked : Grammar.startMarkerName ∉ nestedLists.words := by decide +kernel
  have fresh : ∀ x ∈ [.helper .group 1, .helper .option 1, .helper .group 2, .helper .repetition 1, .action 1,
      .marker], nestedLists.Makes x ∧ x.name ∉ nestedLists.words := by decide +kernel
  have lowers : nestedLists.toGrammar.toOption.isSome = true := by decide +kernel
  cases made : nestedLists.toGrammar with
  | ok g =>
    obtain ⟨written, own⟩ := Description.made_symbols_own made unmarked
    exact ⟨g, rfl, unmarked, written, fun x mem =>
      ⟨(fresh x mem).1, (fresh x mem).2, own x (fresh x mem).1 (fresh x mem).2⟩⟩
  | error e =>
    rw [made] at lowers
    cases lowers

/-- A rule with the name of a helper adds its productions to those of the group. -/
theorem Description.made_symbols_captured :
    ¬ ∀ source d g, Description.parse source = .ok d → d.toGrammar = .ok g →
      ∀ x, d.Makes x → ∃ s, d.IsOwn g x s := by
  intro own
  let source := "S : (\"a\") __grp1 ;\n__grp1 : \"b\" ;"
  have captured : (match Description.parse source with
    | .ok d => match d.toGrammar with
      | .ok g => decide (d.Makes (.helper .group 1) ∧ ∀ s ∈ g.symbols.symbols, s.name = "__grp1" →
        g.productions.toList.map (fun p => decide (p.left = s.id)) ≠
          d.rewritings.map fun w => decide (w.left = .helper .group 1))
      | .error _ => false
    | .error _ => false) = true := by decide +kernel
  split at captured
  case h_2 => cases captured
  rename_i d parsed
  split at captured
  case h_2 => cases captured
  rename_i g made
  obtain ⟨makes, apart⟩ := of_decide_eq_true captured
  obtain ⟨s, mine⟩ := own source d g parsed made _ makes
  exact apart s (SymbolTable.mem_symbols.2 ⟨_, mine.registered⟩) mine.named mine.lefts

end ParserGenerator
