import ParserGenerator.Proofs.Grammar.Calls

/-!
# What calls do that are in order

A new name is registered under the next identifier. Labels that are new get the level of their line. A
production over known names is filed under the next number and changes nothing else, and a grammar that
passes the checks is closed.
-/

namespace ParserGenerator.Grammar

open Build
open SymbolTable (Declarable)

variable {g g' : Grammar} {s : Symbol} {name : String} {kind k : SymbolKind} {start : Int}

/-! ## Names -/

/-- A symbol of the name and the kind is registered. -/
def Knows (g : Grammar) (name : String) (kind : SymbolKind) : Prop :=
  ∃ id s, g.symbols.at? id = some s ∧ s.name = name ∧ s.kind = kind

/-- The symbol of a new name, which has the next identifier. -/
def nextSymbol (g : Grammar) (name : String) (kind : SymbolKind) : Symbol :=
  { name := name, id := g.symbols.slots.size, kind := kind }

def withName (g : Grammar) (name : String) (kind : SymbolKind) : Grammar :=
  { g with symbols := g.symbols.install g.symbols.slots.size (g.nextSymbol name kind) }

theorem knows_fresh : Grammar.fresh.Knows name k ↔ name = endMarkerName ∧ k = .endMarker := by
  constructor
  · rintro ⟨id, s, at_s, rfl, rfl⟩
    obtain ⟨i, rfl, slot⟩ := SymbolTable.at?_eq_some.1 at_s
    match i with
    | 0 | 1 => cases slot
    | 2 => cases slot; exact ⟨rfl, rfl⟩
    | i + 3 => cases slot
  · rintro ⟨rfl, rfl⟩
    exact ⟨endMarkerId, _, rfl, rfl, rfl⟩

theorem knows_withName {n : String} :
    (g.withName name kind).Knows n k ↔ g.Knows n k ∨ n = name ∧ k = kind := by
  have after := SymbolTable.at?_install_size g.symbols (g.nextSymbol name kind)
  constructor
  · rintro ⟨id, s, at_s, rfl, rfl⟩
    have at_s := (after id).symm.trans at_s
    split at at_s
    · cases at_s
      exact .inr ⟨rfl, rfl⟩
    · exact .inl ⟨id, s, at_s, rfl, rfl⟩
  · rintro (⟨id, s, at_s, named, same⟩ | ⟨rfl, rfl⟩)
    · refine ⟨id, s, (after id).trans ?_, named, same⟩
      rwa [if_neg]
      rintro rfl
      rw [SymbolTable.at?_size] at at_s
      cases at_s
    · exact ⟨_, _, (after _).trans (if_pos rfl), rfl, rfl⟩

theorem find?_eq_none_of_new (new : ∀ k, ¬ g.Knows name k) : g.symbols.find? name = none :=
  SymbolTable.find?_eq_none.2 fun id s at_s named => new s.kind ⟨id, s, at_s, named, rfl⟩

section Names

variable (sound : g.Open) (new : ∀ k, ¬ g.Knows name k)
include sound new

theorem Open.resolve_new : resolve name kind g = .ok (g.nextSymbol name kind) (g.withName name kind) := by
  apply onSymbols_eq
  rw [SymbolTable.resolve, find?_eq_none_of_new new]
  simp only [sound.frozen]
  rfl

theorem Open.declareTerminal_new :
    declareTerminal name g = .ok (g.nextSymbol name .terminal) (g.withName name .terminal) :=
  bind_of_ok (sound.resolve_new new)

theorem Open.declareNonterminal_new :
    declareNonterminal name "" g = .ok (g.nextSymbol name .nonterminal) (g.withName name .nonterminal) :=
  bind_of_ok (sound.resolve_new new)

theorem Open.grows_withName (plain : name ≠ startMarkerName) (declarable : Declarable kind) :
    g.Grows (g.withName name kind) where
  lawful := sound.table.install (find?_eq_none_of_new new) rfl
  extended := SymbolTable.extends_install sound.frozen rfl declarable
  unmarked := by
    intro unmarked
    rw [SymbolTable.find?_eq_none] at unmarked ⊢
    intro id s at_s
    rw [withName, SymbolTable.at?_install_size] at at_s
    split at at_s
    · cases at_s
      exact plain
    · exact unmarked id s at_s
  byNumber := rfl
  productions := rfl
  nextNumber := rfl
  closed := rfl
  start := rfl
  facts := rfl

end Names

/-- New names are declared one after the other. -/
theorem Open.declareTerminals (sound : g.Open) {names : List String} (distinct : names.Nodup)
    (plain : ∀ n ∈ names, n ≠ startMarkerName) (new : ∀ n ∈ names, ∀ k, ¬ g.Knows n k) :
    ∃ g', (names.map Call.declareTerminal).foldl Call.after g = g' ∧ g.Grows g' ∧
      g'.labels = g.labels ∧ g'.level = g.level ∧
      ∀ n k, g'.Knows n k ↔ g.Knows n k ∨ n ∈ names ∧ k = .terminal := by
  induction names generalizing g with
  | nil => exact ⟨g, rfl, .refl sound.table, rfl, rfl, by simp⟩
  | cons name names ih =>
    obtain ⟨absent, distinct⟩ := List.nodup_cons.1 distinct
    obtain ⟨plainFirst, plain⟩ := List.forall_mem_cons.1 plain
    obtain ⟨newFirst, new⟩ := List.forall_mem_cons.1 new
    have grown := sound.grows_withName newFirst plainFirst declarable_terminal
    have declared : Call.after g (.declareTerminal name) = g.withName name .terminal := by
      rw [Call.after, leaves, sound.declareTerminal_new newFirst]
    obtain ⟨g', eq, grown', labels, level, knows⟩ := ih (grown.open_of_open sound) distinct plain (by
      intro n mem k
      rw [knows_withName, not_or]
      exact ⟨new n mem k, fun same => absent (same.1 ▸ mem)⟩)
    refine ⟨g', ?_, grown.trans grown', labels, level, ?_⟩
    · rw [List.map_cons, List.foldl_cons, declared, eq]
    · intro n k
      rw [knows, knows_withName, or_assoc, List.mem_cons, or_and_right]

/-! ## Lines of labels -/

theorem get?_foldl_label {p : Precedence} {names : List String} {labels : OrderedMap String Precedence}
    {o : String} : (names.foldl (fun m name => m.insert name p) labels).get? o =
      if o ∈ names then some p else labels.get? o := by
  induction names generalizing labels with
  | nil => rfl
  | cons name names ih =>
    rw [List.foldl_cons, ih, OrderedMap.get?_insert]
    by_cases later : o ∈ names
    · rw [if_pos later, if_pos (List.mem_cons_of_mem _ later)]
    · rw [if_neg later]
      by_cases first : name = o
      · rw [if_pos first, if_pos (first ▸ List.mem_cons_self)]
      · rw [if_neg first, if_neg]
        exact List.not_mem_cons_of_ne_of_not_mem (fun same => first same.symm) later

theorem declareLabels_new {p : Precedence} {names : List String} (distinct : names.Nodup)
    (new : ∀ n ∈ names, g.labels.get? n = none) : names.forM (declareLabel p) g =
      .ok () { g with labels := names.foldl (fun m name => m.insert name p) g.labels } := by
  induction names generalizing g with
  | nil => rfl
  | cons name names ih =>
    obtain ⟨absent, distinct⟩ := List.nodup_cons.1 distinct
    obtain ⟨newFirst, new⟩ := List.forall_mem_cons.1 new
    have first : declareLabel p name g = .ok () { g with labels := g.labels.insert name p } := by
      rw [declareLabel]
      refine bind_eq_ok.2 ⟨g, g, rfl, ?_⟩
      rw [if_neg (by simp [OrderedMap.contains, newFirst])]
      rfl
    refine (bind_of_ok first).trans (ih distinct fun n mem => ?_)
    rw [OrderedMap.get?_insert, if_neg fun same : name = n => absent (same ▸ mem), new n mem]

theorem declarePrecedence_new {a : Associativity} {names : List String} (distinct : names.Nodup)
    (new : ∀ n ∈ names, g.labels.get? n = none) : declarePrecedence a.name names g =
      .ok ⟨a, g.level + 1⟩ { g with
        level := g.level + 1
        labels := names.foldl (fun m name => m.insert name ⟨a, g.level + 1⟩) g.labels } := by
  have entered := declareLabels_new (g := { g with level := g.level + 1 }) (p := ⟨a, g.level + 1⟩) distinct new
  refine bind_eq_ok.2 ⟨(), { g with level := g.level + 1 }, rfl, ?_⟩
  rw [Associativity.ofName?_name]
  exact bind_eq_ok.2 ⟨_, _, rfl, bind_eq_ok.2 ⟨(), _, entered, rfl⟩⟩

/-- Each line has the level behind that of the line before it. -/
theorem declareLines_new (lawful : g.symbols.Lawful) {lines : List (Associativity × List String)}
    (distinct : (lines.flatMap Prod.snd).Nodup)
    (new : ∀ o ∈ lines.flatMap Prod.snd, g.labels.get? o = none) :
    ∃ g', (lines.map fun l => Call.declarePrecedence l.1.name l.2).foldl Call.after g = g' ∧
      g.Grows g' ∧ g'.symbols = g.symbols ∧
      (∀ o ∉ lines.flatMap Prod.snd, g'.labels.get? o = g.labels.get? o) ∧
      ∀ {i : Nat} {l o}, lines[i]? = some l → o ∈ l.2 →
        g'.labels.get? o = some ⟨l.1, g.level + i + 1⟩ := by
  induction lines generalizing g with
  | nil => exact ⟨g, rfl, .refl lawful, rfl, fun _ _ => rfl, by simp⟩
  | cons l lines ih =>
    rw [List.flatMap_cons] at distinct new ⊢
    obtain ⟨own, rest, apart⟩ := List.nodup_append.1 distinct
    let g₁ : Grammar := { g with
      level := g.level + 1
      labels := l.2.foldl (fun m name => m.insert name ⟨l.1, g.level + 1⟩) g.labels }
    have declared : Call.after g (.declarePrecedence l.1.name l.2) = g₁ := by
      rw [Call.after, leaves, declarePrecedence_new own fun o mem => new o (List.mem_append_left _ mem)]
    have grown : g.GrowsBy (fun _ _ => True) g₁ := growsBy_of_eq lawful rfl rfl rfl rfl rfl rfl rfl
    have entered₁ : ∀ o, g₁.labels.get? o = if o ∈ l.2 then some ⟨l.1, g.level + 1⟩ else g.labels.get? o :=
      fun o => get?_foldl_label
    have absent : ∀ o ∈ lines.flatMap Prod.snd, o ∉ l.2 := fun o mem inside => apart o inside o mem rfl
    obtain ⟨g', eq, grown', symbols, others, entered⟩ := ih (g := g₁) lawful rest (by
      intro o mem
      rw [entered₁, if_neg (absent o mem)]
      exact new o (List.mem_append_right _ mem))
    refine ⟨g', ?_, grown.toGrows.trans grown', symbols, ?_, ?_⟩
    · rw [List.map_cons, List.foldl_cons, declared, eq]
    · intro o out
      rw [List.mem_append, not_or] at out
      rw [others o out.2, entered₁, if_neg out.1]
    · intro i l' o at_i mem
      cases i with
      | zero =>
        obtain rfl : l = l' := Option.some.inj at_i
        rw [others o fun later => absent o later mem, entered₁, if_pos mem]
        simp
      | succ i =>
        have level : g₁.level = g.level + 1 := rfl
        rw [entered at_i mem, level]
        push_cast
        congr 2
        omega

/-! ## Productions -/

theorem Open.resolve_known (sound : g.Open) (at_s : g.symbols.at? s.id = some s)
    (known : s.kind ≠ .unknown) : resolve s.name kind g = .ok s g := by
  have found : g.symbols.find? s.name = some s := sound.table.find?_eq_some.2 ⟨at_s, rfl⟩
  apply onSymbols_eq
  rw [SymbolTable.resolve, found]
  simp only [sound.table.current?_eq at_s, if_neg fun open_kind : _ ∧ _ => known open_kind.1]

/-- The identifier is that of a known symbol of the name, which may stand in a right-hand side. -/
def Placed (g : Grammar) (name : String) (id : Int) : Prop :=
  name ≠ "" ∧ ∃ s, g.symbols.at? id = some s ∧ s.name = name ∧ s.kind ≠ .unknown ∧ s.kind ≠ .endMarker

theorem Open.rightId_known (sound : g.Open) {left : String} {id : Int} (placed : g.Placed name id) :
    rightId left (.name name) g = .ok id g := by
  obtain ⟨nonempty, s, at_s, rfl, known, inside⟩ := placed
  obtain rfl := sound.table.id_eq at_s
  have found : rightSymbol left (.name s.name) g = .ok s g := by
    rw [rightSymbol, if_neg (by simpa using nonempty)]
    exact sound.resolve_known at_s known
  rw [rightId, bind_of_ok found, if_neg inside]
  rfl

theorem Open.rightIds_known (sound : g.Open) {left : String} {names : List String} {ids : List Int}
    (placed : List.Forall₂ g.Placed names ids) :
    (names.map RightSymbol.name).mapM (rightId left) g = .ok ids g := by
  induction placed with
  | nil => rfl
  | cons first _ ih =>
    rw [List.map_cons, List.mapM_cons, bind_of_ok (sound.rightId_known first), bind_of_ok ih]
    rfl

/-- A production over known names is filed as it stands. -/
theorem Open.addProduction_known (sound : g.Open) (at_s : g.symbols.at? s.id = some s)
    (nonempty : s.name ≠ "") (kind : s.kind = .nonterminal) {names : List String} {ids : List Int}
    (placed : List.Forall₂ g.Placed names ids) :
    addProduction s.name (names.map RightSymbol.name) none none g =
      .ok ⟨g.nextNumber, s.id, ids, none, none⟩
        { g.withProduction ⟨g.nextNumber, s.id, ids, none, none⟩ s with
          nextNumber := g.nextNumber + 1
          start := g.start <|> some s.name } := by
  have left : resolve s.name .nonterminal g = .ok s g :=
    sound.resolve_known at_s (by rw [kind]; decide)
  rw [addProduction]
  refine bind_eq_ok.2 ⟨g, g, rfl, ?_⟩
  rw [if_neg (by simp [sound.closed]), if_neg (by simpa using nonempty)]
  refine (bind_of_ok left).trans ?_
  rw [if_neg (by simp [kind])]
  refine (bind_of_ok (sound.rightIds_known placed)).trans ?_
  exact sound.file_eq at_s ids none none s.name

theorem Lawful.usable_of_placed (sound : g.Lawful) {names : List String} {ids : List Int}
    (placed : List.Forall₂ g.Placed names ids) : ∀ id ∈ ids, g.Usable id := by
  induction placed with
  | nil => simp
  | cons first _ ih =>
    obtain ⟨-, s, at_s, -, -, inside⟩ := first
    exact List.forall_mem_cons.2 ⟨sound.usable at_s inside, ih⟩

/-! ## Closing -/

/-- A grammar that passes the checks is closed. -/
theorem Checked.exists_close (checked : g.Checked name start) :
    ∃ g₁ g', close none g = .ok () g' ∧ ClosedFrom g g₁ g' := by
  rcases checked.toOpen.close_cases none with closing | ⟨e, -, complaint⟩
  · exact closing
  · exact absurd complaint checked.not_complaint

end ParserGenerator.Grammar
