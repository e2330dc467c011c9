import ParserGenerator.Proofs.Description.Plan
import ParserGenerator.Proofs.Grammar.Codes
import ParserGenerator.Proofs.Grammar.Effects

/-!
# Lowering keeps to the plan

By their names, the productions that lowering makes are those of the plan, in the same order. As long as the
name of an action is none of the words, its symbol is an action symbol with the code of its block.
-/

namespace ParserGenerator

open Build
open Grammar (RightSymbol)

namespace Grammar

variable {g g' : Grammar} {n : Nat} {code : String} {trailing : Bool}

/-- A production by the names of its symbols. -/
def written (g : Grammar) (p : Production) : Rewriting String :=
  ⟨g.nameAt p.left, p.right.map g.nameAt, p.action, p.label⟩

/-- There is the symbol of an action with the code. -/
def HasAction (g : Grammar) (n : Nat) (code : String) (trailing : Bool) : Prop :=
  ∃ id s, g.symbols.at? id = some s ∧ IsAction n trailing s.name s.kind ∧ s.actionText = some code

theorem HasAction.keeps {but : String → Prop} (has : g.HasAction n code trailing) (h : g.Keeps g')
    (codes : g.KeepsCodes but g') (other : ¬ but (actionName n)) : g'.HasAction n code trailing := by
  obtain ⟨id, s, at_s, ⟨named, kind⟩, text⟩ := has
  obtain ⟨s', at_s', named', same⟩ := h at_s
  obtain ⟨x, at_x, -, text'⟩ := codes at_s (named ▸ other)
  rw [at_s'] at at_x
  cases at_x
  refine ⟨id, s', at_s', ⟨named'.trans named, ?_⟩, text'.trans text⟩
  rw [same, kind]
  rw [kind]
  cases trailing <;> exact nofun

theorem Knows.keeps {name : String} {kind : SymbolKind} (knows : g.Knows name kind) (h : g.Keeps g')
    (known : kind ≠ .unknown) : g'.Knows name kind := by
  obtain ⟨id, s, at_s, named, same⟩ := knows
  obtain ⟨s', at_s', named', same'⟩ := h at_s
  exact ⟨id, s', at_s', named'.trans named, (same' (same ▸ known)).trans same⟩

theorem map_nameAt (h : g.Keeps g') {ids : List Int} (registered : ∀ id ∈ ids, ∃ s, g.symbols.at? id = some s) :
    ids.map g'.nameAt = ids.map g.nameAt := by
  refine List.map_congr_left fun id mem => ?_
  obtain ⟨s, at_s⟩ := registered id mem
  exact h.nameAt_eq at_s

/-- Kept symbols write the productions as they did. -/
theorem Lawful.map_written (sound : g.Lawful) (h : g.Keeps g') :
    g.byNumber.values.map g'.written = g.byNumber.values.map g.written := by
  refine List.map_congr_left fun p mem => ?_
  obtain ⟨n, hp⟩ := OrderedMap.mem_values.1 mem
  obtain ⟨s, at_s, -⟩ := sound.left hp
  rw [written, written, h.nameAt_eq at_s, map_nameAt h fun id inside => (sound.right hp id inside).2]

end Grammar

/-! ## Drafts -/

namespace Plan

variable {W : List String} {p : Plan} {g g' : Grammar} {left : Sign} {x : Sign} {item : RightSymbol}
  {items : List RightSymbol} {signs : List Sign}

/-- The name is none of an action that is yet to be made, unless it is one of the words. -/
def Admits (W : List String) (p : Plan) (name : String) : Prop :=
  ∀ n, name = Grammar.actionName n → name ∈ W ∨ n ≤ p.blocks.length

/-- An open grammar has the productions and the actions of the plan. -/
structure Drafts (W : List String) (p : Plan) (g : Grammar) : Prop where
  opened : g.Open
  counted : g.actionCount = p.blocks.length
  rows : g.byNumber.values.map g.written = p.rewritings.map (·.map Sign.name)
  names : ∀ {id s}, g.symbols.at? id = some s → p.Admits W s.name
  actions : ∀ {n code trailing}, p.blocks[n]? = some (code, trailing) →
    Grammar.actionName (n + 1) ∉ W → g.HasAction (n + 1) code trailing

theorem Admits.mono {p' : Plan} {name : String} (admits : p.Admits W name) (h : p.Extends p') : p'.Admits W name :=
  fun n eq => (admits n eq).imp_right fun upto => upto.trans h.blocks

theorem admits_of_mem {name : String} (mem : name ∈ W) : p.Admits W name := fun _ _ => .inl mem

theorem admits_helper (h : Helper) (n : Nat) : p.Admits W (h.name n) :=
  fun m eq => absurd (.inr ⟨m, eq⟩) (h.not_marked n)

namespace Drafts

theorem registers (drafts : p.Drafts W g) {may : String → SymbolKind → Prop} (h : g.Registers may g')
    (admits : ∀ {name kind}, may name kind → p.Admits W name) : p.Drafts W g' where
  opened := h.toGrows.open_of_open drafts.opened
  counted := h.counted.trans drafts.counted
  rows := by
    rw [h.byNumber, drafts.opened.toLawful.map_written h.toGrows.keepsAll, drafts.rows]
  names := by
    intro id s at_s
    rcases h.origin at_s with ⟨x, at_x, named, -⟩ | declared
    · exact named ▸ drafts.names at_x
    · exact admits declared
  actions block other := (drafts.actions block other).keeps h.toGrows.keepsAll h.codes not_false

/-- The next block of the plan is made an action of the grammar. -/
theorem acts (drafts : p.Drafts W g) {code : String} {trailing : Bool} {s : Symbol}
    (h : g.Acts code trailing s g') : (p.act code trailing).Drafts W g' := by
  have length : (p.act code trailing).blocks.length = p.blocks.length + 1 := by simp [act]
  refine ⟨h.toGrows.open_of_open drafts.opened, ?_, ?_, ?_, ?_⟩
  · rw [h.counted, drafts.counted, length]
  · rw [h.byNumber, drafts.opened.toLawful.map_written h.toGrows.keepsAll, drafts.rows]
    rfl
  · intro id x at_x
    rcases h.origin at_x with ⟨y, at_y, named, -⟩ | ⟨named, -⟩
    · exact named ▸ (drafts.names at_y).mono (p.extends_act code trailing)
    · intro n eq
      refine .inr ?_
      rw [length, ← drafts.counted, ← Grammar.actionName_inj (named.symm.trans eq)]
  · intro n code' trailing' block other
    rw [act, List.getElem?_append] at block
    split at block
    · rename_i old
      refine (drafts.actions block other).keeps h.toGrows.keepsAll h.codes fun eq => ?_
      have := Grammar.actionName_inj eq
      rw [drafts.counted] at this
      omega
    · rename_i new
      obtain ⟨index, block⟩ := List.getElem?_eq_some_iff.1 block
      simp only [List.length_singleton] at index
      have last : n = p.blocks.length := by omega
      subst last
      simp only [Nat.sub_self, List.getElem_cons_zero, Prod.mk.injEq] at block
      obtain ⟨rfl, rfl⟩ := block
      have named := h.named
      rw [drafts.counted] at named
      refine ⟨s.id, s, h.at_s, ?_, h.code⟩
      -- The name was not registered before, so the kind is that of the action.
      rcases h.origin h.at_s with ⟨y, at_y, same, -⟩ | made
      · have := (drafts.names at_y _ (same.symm.trans named)).resolve_left (by rwa [← same, named])
        omega
      · rwa [drafts.counted] at made

/-- A production of the plan is filed. -/
theorem files (drafts : p.Drafts W g) {q : Production} {s : Symbol} {w : Rewriting Sign} {start : Option String}
    (number : q.number = g.nextNumber) (at_s : g.symbols.at? q.left = some s) (kind : s.kind = .nonterminal)
    (usable : ∀ id ∈ q.right, g.Usable id) (same : g.written q = w.map Sign.name) :
    (p.add w).Drafts W { g.withProduction q s with nextNumber := g.nextNumber + 1, start := start } := by
  have sound := drafts.opened.toLawful
  have keeps := sound.keeps_withProduction at_s
  have codes : g.KeepsCodes (fun _ => False) (g.withProduction q s) := by
    have place : g.symbols.at? ({ s with productions := s.productions ++ [q.number] } : Symbol).id = some s := by
      rw [sound.table.id_eq at_s, at_s]
    exact Grammar.keepsCodes_update sound.table place rfl (fun _ => rfl) rfl
  refine ⟨drafts.opened.withProduction number at_s kind usable start, drafts.counted, ?_, ?_, ?_⟩
  · have values : (g.withProduction q s).byNumber.values = g.byNumber.values ++ [q] := by
      rw [Grammar.withProduction, OrderedMap.values,
        OrderedMap.toList_insert (number ▸ drafts.opened.absent), List.map_append]
      rfl
    show (g.withProduction q s).byNumber.values.map (g.withProduction q s).written = _
    rw [values, List.map_append, sound.map_written keeps, drafts.rows, add, List.map_append]
    congr 1
    rw [List.map_singleton, List.map_singleton, ← same, Grammar.written, Grammar.written,
      keeps.nameAt_eq at_s, Grammar.map_nameAt keeps fun id mem => (usable id mem).2]
  · intro id x at_x
    obtain ⟨y, at_y, named, -⟩ := sound.of_withProduction at_s at_x
    exact named ▸ drafts.names at_y
  · intro n code trailing block other
    have has : (g.withProduction q s).HasAction (n + 1) code trailing :=
      (drafts.actions block other).keeps keeps codes not_false
    exact has

theorem bump (drafts : p.Drafts W g) (h : Helper) : (p.bump h).Drafts W g :=
  ⟨drafts.opened, drafts.counted, drafts.rows, drafts.names, drafts.actions⟩

end Drafts

end Plan

/-! ## Signs and symbols -/

/-- The sign is one of the words or a helper. -/
def Sign.Plain (W : List String) : Sign → Prop
  | word name => name ∈ W
  | helper _ _ => True
  | _ => False

/-- What is placed in a right-hand side for a sign: its name, or for an action its symbol. -/
def Sign.Placed (W : List String) (g : Grammar) (x : Sign) : RightSymbol → Prop
  | .name name => x.Plain W ∧ name = x.name
  | .interned s => ∃ n y, x = .action n ∧ g.symbols.at? s.id = some y ∧ y.name = x.name
  | .foreign _ => False

section

variable {W : List String} {p : Plan} {g g' : Grammar} {left x : Sign} {item : RightSymbol}
  {items : List RightSymbol} {signs : List Sign}

theorem Sign.Plain.admits (plain : x.Plain W) : p.Admits W x.name := by
  cases x with
  | word name => exact Plan.admits_of_mem plain
  | helper h n => exact Plan.admits_helper h n
  | action n => exact plain.elim
  | marker => exact plain.elim

theorem Sign.Plain.ne_marker (unmarked : Grammar.startMarkerName ∉ W) (plain : x.Plain W) :
    x.name ≠ Grammar.startMarkerName := by
  cases x with
  | word name => exact fun eq => unmarked (eq ▸ plain)
  | helper h n => exact fun eq => h.not_marked n (.inl eq)
  | action n => exact plain.elim
  | marker => exact plain.elim

theorem Sign.Placed.keeps (placed : x.Placed W g item) (h : g.Keeps g') : x.Placed W g' item := by
  cases item with
  | name name => exact placed
  | interned s =>
    obtain ⟨n, y, eq, at_y, named⟩ := placed
    obtain ⟨z, at_z, same, -⟩ := h at_y
    exact ⟨n, z, eq, at_z, same.trans named⟩
  | foreign name => exact placed

theorem Grammar.Lawful.kind_ne_endMarker (sound : g.Lawful) {id : Int} {s : Symbol}
    (at_s : g.symbols.at? id = some s) (named : s.name ≠ endMarkerName) : s.kind ≠ .endMarker := by
  intro ended
  rcases sound.kinds at_s with ⟨-, rfl⟩ | ⟨other, -⟩
  · obtain ⟨x, at_x, name_x⟩ := sound.table.endMarker
    rw [at_s] at at_x
    cases at_x
    exact named name_x
  · exact other.1 ended

theorem Sign.Placed.ready (unmarked : Grammar.startMarkerName ∉ W) (sound : g.Lawful)
    (placed : x.Placed W g item) : item.Ready (fun name _ => p.Admits W name) g := by
  cases item with
  | name name =>
    obtain ⟨plain, rfl⟩ := placed
    exact ⟨plain.ne_marker unmarked, plain.admits⟩
  | interned s =>
    obtain ⟨n, y, rfl, at_y, named⟩ := placed
    refine ⟨y, at_y, fun _ => sound.kind_ne_endMarker at_y ?_⟩
    rw [named]
    exact Grammar.actionName_ne (by decide)
  | foreign name => exact placed.elim

theorem Sign.Placed.nameAt_eq (placed : x.Placed W g item) {id : Int} (has : item.Has g id) :
    g.nameAt id = x.name := by
  cases item with
  | name name =>
    obtain ⟨s, at_s, named⟩ := has
    rw [Grammar.nameAt_eq at_s, named, placed.2]
  | interned s =>
    obtain ⟨n, y, -, at_y, named⟩ := placed
    cases has
    rw [Grammar.nameAt_eq at_y, named]
  | foreign name => exact placed.elim

theorem map_nameAt_eq (placed : List.Forall₂ (Sign.Placed W g) signs items) {ids : List Int}
    (has : List.Forall₂ (fun item id => item.Has g id) items ids) :
    ids.map g.nameAt = signs.map Sign.name := by
  induction placed generalizing ids with
  | nil =>
    cases has
    rfl
  | cons first _ ih =>
    cases has with
    | cons has later => rw [List.map_cons, List.map_cons, first.nameAt_eq has, ih later]

theorem ready_of_placed (unmarked : Grammar.startMarkerName ∉ W) (sound : g.Lawful)
    (placed : List.Forall₂ (Sign.Placed W g) signs items) :
    ∀ item ∈ items, item.Ready (fun name _ => p.Admits W name) g := by
  induction placed with
  | nil => simp
  | cons first _ ih => exact List.forall_mem_cons.2 ⟨first.ready unmarked sound, ih⟩

/-- A production of the plan is added to the grammar. -/
theorem Plan.Drafts.produce (unmarked : Grammar.startMarkerName ∉ W) (drafts : p.Drafts W g)
    (plain : left.Plain W) (placed : List.Forall₂ (Sign.Placed W g) signs items) {action label : Option String}
    {q : Production} (done : Grammar.addProduction left.name items action label g = .ok q g') :
    (p.produce left signs label action).Drafts W g' ∧ g.Keeps g' ∧ g'.Knows left.name .nonterminal := by
  have sound := drafts.opened.toLawful
  obtain ⟨g₁, g₂, s, ids, actions, filed⟩ := Grammar.addProduction_filed (fun name _ => p.Admits W name)
    drafts.opened (plain.ne_marker unmarked) plain.admits (ready_of_placed unmarked sound placed) done
  have drafts₁ := drafts.registers filed.registers fun admits => admits
  have grown := (filed.ended.grows filed.registers.lawful).1
  have keeps : g.Keeps g₂ := filed.registers.toGrows.keepsAll.trans grown.keepsAll
  have lawful : g₂.Lawful := grown.lawful_of_lawful drafts₁.opened.toLawful
  have named : ids.map g₂.nameAt = signs.map Sign.name :=
    map_nameAt_eq (placed.imp fun _ _ h => h.keeps keeps) (filed.has.imp fun _ _ has => has.grows grown)
  -- Behind the names stands what the action adds, if there is one.
  have files : ∀ {p' : Plan} (more : List Sign), p'.Drafts W g₂ → actions.map g₂.nameAt = more.map Sign.name →
      (p'.add ⟨left, signs ++ more, action, label⟩).Drafts W g' := by
    intro p' more drafts₂ last
    rw [filed.after]
    refine drafts₂.files (congrArg Production.number filed.made) filed.at_left filed.kind filed.usable ?_
    have right : q.right = ids ++ actions := congrArg Production.right filed.made
    have action_eq : q.action = action := congrArg Production.action filed.made
    have label_eq : q.label = label := congrArg Production.label filed.made
    rw [Grammar.written, Rewriting.map, Grammar.nameAt_eq filed.at_left, filed.named, right, action_eq, label_eq,
      List.map_append, List.map_append, named, last]
  refine ⟨?_, ?_, ?_⟩
  · cases action with
    | none =>
      obtain ⟨rfl, rfl⟩ := filed.ended
      have := files [] drafts₁ rfl
      rwa [List.append_nil] at this
    | some code =>
      obtain ⟨a, made, rfl⟩ := filed.ended
      have acts := Grammar.newAction_acts filed.registers.lawful made
      refine files [p.nextAction] (drafts₁.acts acts) ?_
      rw [List.map_singleton, List.map_singleton, Grammar.nameAt_eq acts.at_s, acts.named, drafts₁.counted]
      rfl
  · rw [filed.after]
    exact keeps.trans (lawful.keeps_withProduction filed.at_left)
  · rw [filed.after]
    obtain ⟨y, at_y, same, kind⟩ := lawful.old_withProduction filed.at_left filed.at_left
    exact ⟨q.left, y, at_y, same.trans filed.named, kind.trans filed.kind⟩

end

/-! ## Lowering -/

namespace Lowering

variable {W : List String} {p : Plan} {l l' l₁ : Lowering} {base left : Sign} {items : List RightSymbol}
  {signs : List Sign} {h : Helper}

theorem count_with (l : Lowering) (g : Grammar) (k : Helper) :
    ({ l with grammar := g } : Lowering).count k = l.count k := by
  cases k <;> rfl

/-- The lowering has made what the plan lists, and its helpers are nonterminals. -/
structure Follows (W : List String) (p : Plan) (l : Lowering) : Prop where
  counts : ∀ h, l.count h = p.count h
  drafts : p.Drafts W l.grammar
  helpers : ∀ {h n}, 0 < n → n ≤ p.count h → l.grammar.Knows (h.name n) .nonterminal

theorem Follows.next_eq (follows : Follows W p l) (h : Helper) : l.next h = (p.next h).name := by
  rw [next, follows.counts]
  rfl

theorem Follows.count_bump (follows : Follows W p l) (h k : Helper) : (l.bump h).count k = (p.bump h).count k := by
  rw [Lowering.count_bump, follows.counts, follows.counts]
  rfl

/-- The helpers of before and the one that has been made are nonterminals. -/
theorem Follows.helpers_bump (follows : Follows W p l) {g : Grammar} (keeps : l.grammar.Keeps g)
    (made : g.Knows (p.next h).name .nonterminal) {k : Helper} {n : Nat} (above : 0 < n)
    (upto : n ≤ (p.bump h).count k) : g.Knows (k.name n) .nonterminal := by
  by_cases old : n ≤ p.count k
  · exact (follows.helpers above old).keeps keeps (by decide)
  · obtain ⟨rfl, last⟩ := (Plan.upto_bump upto).resolve_left old
    obtain rfl : n = p.count k + 1 := by omega
    exact made

/-- From the first to the second state the symbols are placed for the signs. -/
structure Reaches (W : List String) (l : Lowering) (p' : Plan) (l' : Lowering) (signs : List Sign)
    (items : List RightSymbol) : Prop where
  follows : Follows W p' l'
  keeps : l.grammar.Keeps l'.grammar
  placed : List.Forall₂ (Sign.Placed W l'.grammar) signs items

theorem placed_append {g g' : Grammar} (h : g.Keeps g') {signs' : List Sign} {items' : List RightSymbol}
    (placed : List.Forall₂ (Sign.Placed W g) signs items)
    (placed' : List.Forall₂ (Sign.Placed W g') signs' items') :
    List.Forall₂ (Sign.Placed W g') (signs ++ signs') (items ++ items') :=
  List.rel_append (placed.imp fun _ _ first => first.keeps h) placed'

theorem placed_name {g : Grammar} {x : Sign} (plain : x.Plain W) :
    Sign.Placed W g x (.name x.name) := ⟨plain, rfl⟩

theorem Follows.registers (follows : Follows W p l) {g : Grammar} {may : String → SymbolKind → Prop}
    (h : l.grammar.Registers may g) (admits : ∀ {name kind}, may name kind → p.Admits W name) :
    Follows W p { l with grammar := g } where
  counts k := (count_with l g k).trans (follows.counts k)
  drafts := follows.drafts.registers h admits
  helpers above upto := (follows.helpers above upto).keeps h.toGrows.keepsAll (by decide)

section

variable (unmarked : Grammar.startMarkerName ∉ W)
include unmarked

theorem produce_reaches (follows : Follows W p l) (plain : left.Plain W)
    (placed : List.Forall₂ (Sign.Placed W l.grammar) signs items) {action label : Option String} {q : Production}
    (done : build (Grammar.addProduction left.name items action label) l = .ok q l') :
    Reaches W l (p.produce left signs label action) l' [] [] := by
  obtain ⟨g, added, rfl⟩ := build_eq_ok.1 done
  obtain ⟨drafts, keeps, -⟩ := follows.drafts.produce unmarked plain placed added
  have counts : ∀ k, (p.produce left signs label action).count k = p.count k := by
    cases action <;> exact fun _ => rfl
  refine ⟨⟨fun k => ?_, drafts, fun above upto => ?_⟩, keeps, .nil⟩
  · rw [counts]
    exact (count_with l g k).trans (follows.counts k)
  · rw [counts] at upto
    exact (follows.helpers above upto).keeps keeps (by decide)

theorem addPlain_drafts {p : Plan} (drafts : p.Drafts W l.grammar) (plain : left.Plain W)
    (placed : List.Forall₂ (Sign.Placed W l.grammar) signs items)
    (done : addPlain left.name items l = .ok () l') :
    (p.produce left signs none none).Drafts W l'.grammar ∧ l.grammar.Keeps l'.grammar ∧
      l'.grammar.Knows left.name .nonterminal ∧ ∀ k, l'.count k = l.count k := by
  obtain ⟨q, l₁, built, ended⟩ := bind_eq_ok.1 done
  cases ended
  obtain ⟨g, added, rfl⟩ := build_eq_ok.1 built
  obtain ⟨drafts, keeps, knows⟩ := drafts.produce unmarked plain placed added
  exact ⟨drafts, keeps, knows, count_with l g⟩

/-- A helper with its two productions. -/
theorem help_follows (follows : Follows W p l) (placed : List.Forall₂ (Sign.Placed W l.grammar) signs items)
    (helps : l.Helps l' h items) : Follows W (p.help h signs) l' ∧ l.grammar.Keeps l'.grammar := by
  obtain ⟨l₁, first, second⟩ := helps
  rw [follows.next_eq] at first second
  have plain : (p.next h).Plain W := trivial
  obtain ⟨drafts₁, keeps₁, knows, counts₁⟩ := addPlain_drafts unmarked (p := p.bump h)
    (by simpa using follows.drafts.bump h) plain .nil first
  rw [grammar_bump] at keeps₁
  obtain ⟨drafts₂, keeps₂, -, counts₂⟩ := addPlain_drafts unmarked drafts₁ plain
    (placed.imp fun _ _ x => x.keeps keeps₁) second
  have keeps := keeps₁.trans keeps₂
  refine ⟨⟨fun k => ?_, drafts₂, ?_⟩, keeps⟩
  · rw [counts₂, counts₁, follows.count_bump]
    rfl
  · exact fun above upto => follows.helpers_bump keeps (knows.keeps keeps₂ (by decide)) above upto

theorem repeated_follows (follows : Follows W p l) (plain : base.Plain W) {item : RightSymbol}
    (done : repeated (.name base.name) l = .ok item l') :
    Follows W (p.help .repetition [base, p.next .repetition]) l' ∧ l.grammar.Keeps l'.grammar ∧
      item = .name (p.next .repetition).name := by
  obtain ⟨rfl, helps⟩ := helps_of_repeated done
  have placed : List.Forall₂ (Sign.Placed W l.grammar) [base, p.next .repetition]
      [.name base.name, .name (l.next .repetition)] := by
    rw [follows.next_eq]
    exact .cons (placed_name plain) (.cons (placed_name trivial) .nil)
  obtain ⟨follows', keeps⟩ := help_follows unmarked follows placed helps
  exact ⟨follows', keeps, by rw [follows.next_eq]⟩

theorem suffixed_reaches (follows : Follows W p l) (base : Sign) (plain : base.Plain W) : ∀ {suffix : Suffix},
    suffixed (.name base.name) suffix l = .ok items l' →
      Reaches W l (p.suffixed base suffix).2 l' (p.suffixed base suffix).1 items
  | .once, done => by
    cases done
    exact ⟨follows, .refl _, .cons (placed_name plain) .nil⟩
  | .opt, done => by
    obtain ⟨rfl, helps⟩ := helps_of_option done
    obtain ⟨follows', keeps⟩ := help_follows unmarked follows (.cons (placed_name plain) .nil) helps
    refine ⟨follows', keeps, ?_⟩
    rw [follows.next_eq]
    exact .cons (placed_name trivial) .nil
  | .star, done => by
    obtain ⟨item, l₁, made, rest⟩ := bind_eq_ok.1 done
    cases rest
    obtain ⟨follows', keeps, rfl⟩ := repeated_follows unmarked follows plain made
    exact ⟨follows', keeps, .cons (placed_name trivial) .nil⟩
  | .plus, done => by
    obtain ⟨item, l₁, made, rest⟩ := bind_eq_ok.1 done
    cases rest
    obtain ⟨follows', keeps, rfl⟩ := repeated_follows unmarked follows plain made
    exact ⟨follows', keeps, .cons (placed_name plain) (.cons (placed_name trivial) .nil)⟩

theorem declareTerminal_follows (follows : Follows W p l) {text : String} (mem : text ∈ W) {s : Symbol}
    (done : build (Grammar.declareTerminal text) l = .ok s l') :
    Follows W p l' ∧ l.grammar.Keeps l'.grammar := by
  obtain ⟨g, declared, rfl⟩ := build_eq_ok.1 done
  have registers := Grammar.declareTerminal_registers (fun name _ => p.Admits W name)
    follows.drafts.opened.table (fun eq => unmarked (eq ▸ mem)) (Plan.admits_of_mem mem) declared
  exact ⟨follows.registers registers fun admits => admits, registers.toGrows.keepsAll⟩

end

mutual

theorem lowerAtom_reaches (unmarked : Grammar.startMarkerName ∉ W) : ∀ (a : Atom) {p : Plan} {l l' : Lowering}
    {items : List RightSymbol}, Follows W p l → a.Within W → lowerAtom a l = .ok items l' →
    Reaches W l (p.atom a).2 l' (p.atom a).1 items
  | .name ident suffix _, _, _, _, _, follows, within, done =>
    suffixed_reaches unmarked follows (.word ident) within.mem_name done
  | .literal text suffix _, _, _, _, _, follows, within, done => by
    have mem : text ∈ W := within.mem_literal
    obtain ⟨x, l₁, declared, rest⟩ := bind_eq_ok.1 done
    obtain ⟨follows₁, keeps⟩ := declareTerminal_follows unmarked follows mem declared
    obtain ⟨follows', keeps', placed⟩ := suffixed_reaches unmarked follows₁ (.word text) mem rest
    exact ⟨follows', keeps.trans keeps', placed⟩
  | .group as suffix _, p, l, _, _, follows, within, done => by
    obtain ⟨name, l₁, made, rest₁⟩ := bind_eq_ok.1 done
    rw [newGroup_eq] at made
    cases made
    obtain ⟨x, l₂, built, rest₂⟩ := bind_eq_ok.1 rest₁
    obtain ⟨⟨⟩, l₃, lowered, rest⟩ := bind_eq_ok.1 rest₂
    rw [follows.next_eq] at built lowered rest
    have plain : (p.next .group).Plain W := trivial
    obtain ⟨g, declared, rfl⟩ := build_eq_ok.1 built
    rw [grammar_bump] at declared
    obtain ⟨registers, knows⟩ := Grammar.declareNonterminal_registers (fun name _ => p.Admits W name)
      follows.drafts.opened.table (plain.ne_marker unmarked) plain.admits declared
    have keeps := registers.toGrows.keepsAll
    have follows₂ : Follows W (p.bump .group) { l.bump .group with grammar := g } :=
      ⟨fun k => (count_with _ g k).trans (follows.count_bump .group k),
        (follows.drafts.registers registers fun admits => admits).bump .group,
        fun above upto => follows.helpers_bump keeps knows above upto⟩
    obtain ⟨follows₃, keeps₃⟩ := lowerAlternatives_follows unmarked as follows₂ plain within lowered
    obtain ⟨follows', keeps', placed⟩ := suffixed_reaches unmarked follows₃ _ plain rest
    exact ⟨follows', (keeps.trans keeps₃).trans keeps', placed⟩
  | .action code _, p, l, _, _, follows, _, done => by
    obtain ⟨x, l₁, made, rest⟩ := bind_eq_ok.1 done
    cases rest
    obtain ⟨g, added, rfl⟩ := build_eq_ok.1 made
    have acts := Grammar.newAction_acts follows.drafts.opened.table added
    have keeps := acts.toGrows.keepsAll
    refine ⟨⟨fun k => (count_with l g k).trans (follows.counts k), follows.drafts.acts acts,
      fun above upto => (follows.helpers above upto).keeps keeps (by decide)⟩, keeps, .cons ?_ .nil⟩
    have named := acts.named
    rw [follows.drafts.counted] at named
    exact ⟨_, x, rfl, acts.at_s, named⟩

theorem lowerItems_reaches (unmarked : Grammar.startMarkerName ∉ W) : ∀ (as : List Atom) {p : Plan}
    {l l' : Lowering} {items : List RightSymbol} {action : Option String}, Follows W p l → Atom.AllWithin W as →
    lowerItems as l = .ok (items, action) l' →
    Reaches W l (p.items as).2.2 l' (p.items as).1 items ∧ action = (p.items as).2.1
  | [], _, _, _, _, _, follows, _, done => by
    cases done
    exact ⟨⟨follows, .refl _, .nil⟩, rfl⟩
  | a :: as, p, _, _, _, _, follows, within, done => by
    rcases a.trailing_cases as with ⟨code, span, rfl, rfl⟩ | other
    · cases done
      exact ⟨⟨follows, .refl _, .nil⟩, rfl⟩
    · rw [lowerItems] at done
      · obtain ⟨first, l₁, lowered, rest⟩ := bind_eq_ok.1 done
        obtain ⟨⟨others, action'⟩, l₂, lowered', rest⟩ := bind_eq_ok.1 rest
        cases rest
        have reaches := lowerAtom_reaches unmarked a follows within.cons.1 lowered
        obtain ⟨reaches', eq⟩ := lowerItems_reaches unmarked as reaches.follows within.cons.2 lowered'
        rw [p.items_cons other]
        exact ⟨⟨reaches'.follows, reaches.keeps.trans reaches'.keeps,
          placed_append reaches'.keeps reaches.placed reaches'.placed⟩, eq⟩
      · exact other

theorem lowerAlternative_follows (unmarked : Grammar.startMarkerName ∉ W) : ∀ (a : Alternative) {left : Sign}
    {p : Plan} {l l' : Lowering}, Follows W p l → left.Plain W → a.Within W →
    lowerAlternative left.name a l = .ok () l' →
    Follows W (p.alternative left a) l' ∧ l.grammar.Keeps l'.grammar
  | .mk items label, _, _, _, _, follows, plain, within, done => by
    obtain ⟨⟨right, action⟩, l₁, lowered, rest⟩ := bind_eq_ok.1 done
    obtain ⟨q, l₂, added, rest⟩ := bind_eq_ok.1 rest
    cases rest
    obtain ⟨reaches, rfl⟩ := lowerItems_reaches unmarked items follows within lowered
    have produced := produce_reaches unmarked reaches.follows plain reaches.placed added
    exact ⟨produced.follows, reaches.keeps.trans produced.keeps⟩

theorem lowerAlternatives_follows (unmarked : Grammar.startMarkerName ∉ W) : ∀ (as : List Alternative)
    {left : Sign} {p : Plan} {l l' : Lowering}, Follows W p l → left.Plain W → Alternative.AllWithin W as →
    lowerAlternatives left.name as l = .ok () l' →
    Follows W (p.alternatives left as) l' ∧ l.grammar.Keeps l'.grammar
  | [], _, _, _, _, follows, _, _, done => by
    cases done
    exact ⟨follows, .refl _⟩
  | a :: as, _, _, _, _, follows, plain, within, done => by
    obtain ⟨⟨⟩, l₁, lowered, rest⟩ := bind_eq_ok.1 done
    obtain ⟨follows₁, keeps⟩ := lowerAlternative_follows unmarked a follows plain within.cons.1 lowered
    obtain ⟨follows', keeps'⟩ := lowerAlternatives_follows unmarked as follows₁ plain within.cons.2 rest
    exact ⟨follows', keeps.trans keeps'⟩

end

/-! ## Whole descriptions -/

/-- A list of declarations of words. -/
theorem declares_follows {α β : Type} {f : α → Build β} {as : List α} (follows : Follows W p l)
    (registers : ∀ a ∈ as, ∀ {g g' : Grammar} {b : β}, g.symbols.Lawful → f a g = .ok b g' →
      g.Registers (fun name _ => p.Admits W name) g')
    (done : (as.forM fun a => do let _ ← build (f a)) l = .ok () l') : Follows W p l' := by
  induction as generalizing l with
  | nil =>
    cases done
    exact follows
  | cons a as ih =>
    obtain ⟨first, later⟩ := List.forall_mem_cons.1 registers
    obtain ⟨⟨⟩, l₁, done₁, rest⟩ := bind_eq_ok.1 done
    obtain ⟨b, l₂, built, ended⟩ := bind_eq_ok.1 done₁
    cases ended
    obtain ⟨g, declared, rfl⟩ := build_eq_ok.1 built
    exact ih (follows.registers (first follows.drafts.opened.table declared) fun admits => admits) later rest

theorem follows_fresh (W : List String) : Follows W {} {} where
  counts h := by cases h <;> rfl
  drafts := {
    opened := Grammar.open_fresh
    counted := rfl
    rows := rfl
    names := by
      intro id s at_s n eq
      have known := Grammar.knows_fresh.1 ⟨id, s, at_s, rfl, rfl⟩
      exact absurd (eq.symm.trans known.1) (Grammar.actionName_ne (by decide))
    actions := nofun }
  helpers above upto := absurd upto (Nat.not_le.2 above)

theorem lowerRules_follows (unmarked : Grammar.startMarkerName ∉ W) {rules : List Rule}
    (words : ∀ r ∈ rules, r.name ∈ W ∧ Alternative.AllWithin W r.alternatives)
    (follows : Follows W p l) (done : rules.forM lowerRule l = .ok () l') :
    Follows W (rules.foldl (fun p r => p.alternatives (.word r.name) r.alternatives) p) l' := by
  induction rules generalizing p l with
  | nil =>
    cases done
    exact follows
  | cons r rules ih =>
    obtain ⟨⟨mem, within⟩, later⟩ := List.forall_mem_cons.1 words
    obtain ⟨⟨⟩, l₁, first, rest⟩ := bind_eq_ok.1 done
    obtain ⟨x, l₂, built, lowered⟩ := bind_eq_ok.1 first
    obtain ⟨g, declared, rfl⟩ := build_eq_ok.1 built
    obtain ⟨registers, -⟩ := Grammar.declareNonterminal_registers (fun name _ => p.Admits W name)
      follows.drafts.opened.table (fun eq => unmarked (eq ▸ mem)) (Plan.admits_of_mem mem) declared
    have plain : (Sign.word r.name).Plain W := mem
    exact ih later (lowerAlternatives_follows unmarked r.alternatives
      (follows.registers registers fun admits => admits) plain within lowered).1 rest

/-- Before it is closed, the grammar of a description has what the plan lists. -/
theorem lower_follows {d : Description} (unmarked : Grammar.startMarkerName ∉ d.words)
    (done : lower d {} = .ok () l) :
    ∃ l₁, Follows d.words d.plan l₁ ∧ Grammar.close d.startName l₁.grammar = .ok () l.grammar := by
  have word : ∀ {name}, name ∈ d.words → name ≠ Grammar.startMarkerName := fun mem eq => unmarked (eq ▸ mem)
  have identifier : ∀ {name}, name ∈ d.identifiers → name ∈ d.words := fun mem => by
    simp [Description.words, mem]
  obtain ⟨⟨⟩, a, keywords, rest⟩ := bind_eq_ok.1 done
  obtain ⟨⟨⟩, b, tokens, rest⟩ := bind_eq_ok.1 rest
  obtain ⟨⟨⟩, c, symbols, rest⟩ := bind_eq_ok.1 rest
  obtain ⟨⟨⟩, e, precedences, rest⟩ := bind_eq_ok.1 rest
  obtain ⟨⟨⟩, f, rules, rest⟩ := bind_eq_ok.1 rest
  obtain ⟨g, closed, rfl⟩ := build_eq_ok.1 rest
  have first : Follows d.words {} a := by
    refine declares_follows (follows_fresh _) (fun k mem _ _ _ lawful declared => ?_) keywords
    have inside : k.text ∈ d.words :=
      List.mem_append_right _ (mem_literals.2 (.inl (List.mem_map_of_mem mem)))
    exact Grammar.declareTerminal_registers _ lawful (word inside) (Plan.admits_of_mem inside) declared
  have second : Follows d.words {} b := by
    refine declares_follows first (fun t mem _ _ _ lawful declared => ?_) tokens
    have inside := identifier (mem_identifiers.2 (.inl ⟨t, mem, rfl⟩))
    exact Grammar.declareTerminal_registers _ lawful (word inside) (Plan.admits_of_mem inside) declared
  have third : Follows d.words {} c := by
    refine declares_follows second (fun s mem _ _ _ lawful declared => ?_) symbols
    have inside := identifier (mem_identifiers.2 (.inr (.inl ⟨s, mem, rfl⟩)))
    exact (Grammar.declareNonterminal_registers _ lawful (word inside) (Plan.admits_of_mem inside) declared).1
  have fourth : Follows d.words {} e :=
    declares_follows third (fun _ _ _ _ _ lawful declared =>
      Grammar.declarePrecedence_registers lawful declared) precedences
  exact ⟨f, lowerRules_follows unmarked (fun r mem => Description.words_of_rule mem) fourth rules, closed⟩

end Lowering

end ParserGenerator
