import ParserGenerator.Proofs.Grammar.Build
import ParserGenerator.Proofs.Symbol.Restored

/-!
# Tables made by calls

Names are registered by looking them up and by restoring them from storage, in any order, and a call that
fails leaves the table as it was. Whatever the calls, a name keeps the identifier it was given. As long as no
negative identifier is restored, names and identifiers lead to each other. A frozen table registers no name
that is looked up, but it still registers a name that is restored.
-/

namespace ParserGenerator.SymbolTable

open Build

variable {t t' : SymbolTable} {s x : Symbol} {id : Int} {name : String} {kind : SymbolKind}

/-- What can be called on a table. -/
inductive Call where
  | resolve (name : String) (kind : SymbolKind)
  | restore (name : String) (id : Int) (kind : SymbolKind)
  | freeze
  deriving DecidableEq

namespace Call

/-- The call on the table of a grammar. -/
def perform : Call → Build Unit
  | resolve name kind => discard (Grammar.resolve name kind)
  | restore name id kind => discard (Grammar.onSymbols (·.restore name id kind))
  | freeze => modify fun g => { g with symbols := g.symbols.freeze }

/-- The table behind a call, also behind one that fails. -/
def after (t : SymbolTable) (c : Call) : SymbolTable := (leaves c.perform { symbols := t }).symbols

/-- The call restores no negative identifier. -/
def Natural : Call → Prop
  | restore _ id _ => 0 ≤ id
  | _ => True

instance : DecidablePred Natural
  | resolve _ _ => isTrue trivial
  | restore _ id _ => inferInstanceAs (Decidable (0 ≤ id))
  | freeze => isTrue trivial

/-- The table that the call makes of another one. -/
def attempt (t : SymbolTable) : Call → Except Error SymbolTable
  | resolve name kind => Prod.snd <$> t.resolve name kind
  | restore name id kind => Prod.snd <$> t.restore name id kind
  | freeze => .ok t.freeze

theorem perform_eq (c : Call) (g : Grammar) : c.perform g = match c.attempt g.symbols with
    | .ok t => .ok () { g with symbols := t }
    | .error e => .error e g := by
  have onSymbols : ∀ f : SymbolTable → Except Error (Symbol × SymbolTable),
      (discard (Grammar.onSymbols f) : Build Unit) g = match Prod.snd <$> f g.symbols with
        | .ok t => .ok () { g with symbols := t }
        | .error e => .error e g := by
    intro f
    simp only [discard, Functor.mapConst, Function.comp, EStateM.map, Grammar.onSymbols]
    cases f g.symbols <;> rfl
  cases c with
  | resolve name kind => exact onSymbols (·.resolve name kind)
  | restore name id kind => exact onSymbols (·.restore name id kind)
  | freeze => rfl

/-- A call that fails changes nothing. -/
theorem perform_of_error {c : Call} {g g' : Grammar} {e : Error} (failed : c.perform g = .error e g') :
    g' = g := by
  rw [perform_eq] at failed
  split at failed <;> cases failed
  rfl

theorem after_eq (c : Call) (t : SymbolTable) : c.after t = match c.attempt t with
    | .ok t' => t'
    | .error _ => t := by
  unfold after leaves
  rw [perform_eq]
  cases c.attempt t <;> rfl

end Call

/-! ## What a call can do -/

/-- All that a call can do to a table. -/
inductive Change (t : SymbolTable) : Call → SymbolTable → Prop
  | same (c : Call) : Change t c t
  | settled {c : Call} {a : Int} {x : Symbol} {kind : SymbolKind} :
      t.at? a = some x → Change t c (t.update { x with kind := kind })
  | appended {name : String} {kind : SymbolKind} : t.find? name = none → t.frozen = false →
      Change t (.resolve name kind)
        (t.install t.slots.size { name := name, id := t.slots.size, kind := kind })
  | seated {name : String} {id : Int} {kind : SymbolKind} {slot : Nat} : t.find? name = none →
      t.at? slot = none → (0 ≤ id → id = slot) →
      Change t (.restore name id kind) (t.install slot { name := name, id := id, kind := kind })
  | frozen : Change t .freeze t.freeze

theorem exists_at?_of_current? (here : t.current? s = some x) : ∃ a, t.at? a = some x := by
  unfold current? at here
  obtain ⟨i, -, slot⟩ := Option.bind_eq_some_iff.1 here
  exact ⟨i, by rwa [at?_natCast]⟩

theorem change (t : SymbolTable) (c : Call) : t.Change c (c.after t) := by
  rw [Call.after_eq]
  cases c with
  | resolve name kind =>
    simp only [Call.attempt, SymbolTable.resolve]
    cases absent : t.find? name with
    | some registered =>
      cases here : t.current? registered with
      | none => simpa [here] using .same _
      | some x =>
        obtain ⟨a, at_x⟩ := exists_at?_of_current? here
        by_cases settles : x.kind = .unknown ∧ kind ≠ .unknown
        · simpa [here, settles] using .settled at_x
        · simpa [here, settles] using .same _
    | none =>
      cases frozen : t.frozen with
      | true => simpa using .same _
      | false => simpa using .appended absent frozen
  | restore name id kind =>
    simp only [Call.attempt, SymbolTable.restore]
    cases absent : t.find? name with
    | some registered =>
      cases here : t.current? registered with
      | none => simpa [here] using .same _
      | some x =>
        obtain ⟨a, at_x⟩ := exists_at?_of_current? here
        by_cases elsewhere : x.id ≠ id
        · simpa [here, elsewhere] using .same _
        · simpa [here, elsewhere] using .settled at_x
    | none =>
      by_cases inside : id < t.slots.size
      · rcases t.slotOf?_cases id with ⟨outside, -⟩ | ⟨slot, there, place⟩
        · simpa [inside, outside] using .same _
        · cases holder : (t.slots[slot]?).join with
          | some x => simpa [inside, there, holder] using .same _
          | none => simpa [inside, there, holder] using .seated absent ((t.at?_natCast slot).trans holder) place
      · have natural : id = id.toNat := by omega
        have vacant : t.at? id.toNat = none := at?_of_size_le (by omega)
        simpa [inside] using .seated absent vacant fun _ => natural
  | freeze => exact .frozen

/-! ## Names keep their identifiers -/

/-- No two slots hold symbols of one name. -/
def Distinct (t : SymbolTable) : Prop :=
  ∀ ⦃a b s s'⦄, t.at? a = some s → t.at? b = some s' → s.name = s'.name → a = b

theorem idOf_eq_ok_of_find? (found : t.find? name = some s) : t.idOf name = .ok s.id := by
  simp [idOf, found]

theorem Distinct.find?_eq_some (distinct : t.Distinct) {a : Int} (at_s : t.at? a = some s) :
    t.find? s.name = some s := by
  cases found : t.find? s.name with
  | none => exact absurd rfl (find?_eq_none.1 found a s at_s)
  | some x =>
    obtain ⟨b, at_x⟩ := mem_symbols.1 (List.mem_of_find?_eq_some found)
    have named : x.name = s.name := of_decide_eq_true (List.find?_some found :)
    have place := distinct at_x at_s named
    simp_all

theorem exists_at?_of_find? (found : t.find? name = some s) : s.name = name ∧ ∃ a, t.at? a = some s :=
  ⟨of_decide_eq_true (List.find?_some found :), mem_symbols.1 (List.mem_of_find?_eq_some found)⟩

namespace Change

variable {c : Call} {a : Int}

/-- A symbol stays in its slot, with its name and its identifier. -/
theorem old (change : t.Change c t') (distinct : t.Distinct) (at_s : t.at? a = some s) :
    ∃ s', t'.at? a = some s' ∧ s'.name = s.name ∧ s'.id = s.id := by
  cases change with
  | same => exact ⟨s, at_s, rfl, rfl⟩
  | settled at_x =>
    rw [at?_update, at_s, Option.map_some]
    split
    · rename_i named
      obtain rfl := distinct at_s at_x named
      rw [at_s] at at_x
      cases at_x
      exact ⟨_, rfl, rfl, rfl⟩
    · exact ⟨s, rfl, rfl, rfl⟩
  | appended =>
    rw [at?_install_size, if_neg, at_s]
    · exact ⟨s, rfl, rfl, rfl⟩
    · rintro rfl
      simp [at?_size] at at_s
  | seated _ vacant =>
    rw [at?_install, if_neg, at_s]
    · exact ⟨s, rfl, rfl, rfl⟩
    · rintro rfl
      simp [vacant] at at_s
  | frozen => exact ⟨s, at_s, rfl, rfl⟩

/-- A symbol has the name of one that was in its slot, or it alone is new, and so is its name. In a frozen table
it is one that was restored. -/
theorem new (change : t.Change c t') (at_s : t'.at? a = some s) :
    (∃ x, t.at? a = some x ∧ x.name = s.name) ∨
      t.find? s.name = none ∧ (∀ b, b ≠ a → t'.at? b = t.at? b) ∧
        (t.frozen = true → ∃ kind, c = .restore s.name s.id kind) := by
  cases change with
  | same => exact .inl ⟨s, at_s, rfl⟩
  | settled at_x =>
    rw [at?_update] at at_s
    obtain ⟨y, at_y, rfl⟩ := Option.map_eq_some_iff.1 at_s
    refine .inl ⟨y, at_y, ?_⟩
    split <;> simp_all
  | appended absent unfrozen =>
    rw [at?_install_size] at at_s
    split at at_s
    · rename_i own
      cases at_s
      refine .inr ⟨absent, fun b other => ?_, by simp [unfrozen]⟩
      rw [at?_install_size, if_neg (own ▸ other)]
    · exact .inl ⟨s, at_s, rfl⟩
  | seated absent =>
    rw [at?_install] at at_s
    split at at_s
    · rename_i own
      cases at_s
      refine .inr ⟨absent, fun b other => ?_, fun _ => ⟨_, rfl⟩⟩
      rw [at?_install, if_neg (own ▸ other)]
    · exact .inl ⟨s, at_s, rfl⟩
  | frozen => exact .inl ⟨s, at_s, rfl⟩

theorem distinct (change : t.Change c t') (distinct : t.Distinct) : t'.Distinct := by
  intro a b x y at_x at_y named
  rcases change.new at_x with ⟨x', at_x', same⟩ | ⟨absent, others, -⟩
  · rcases change.new at_y with ⟨y', at_y', same'⟩ | ⟨absent, -⟩
    · exact distinct at_x' at_y' (by simp_all)
    · exact absurd (same.trans named) (find?_eq_none.1 absent a x' at_x')
  · by_contra other
    rw [others b (Ne.symm other)] at at_y
    exact find?_eq_none.1 absent b y at_y named.symm

theorem keeps_frozen (change : t.Change c t') (frozen : t.frozen = true) : t'.frozen = true := by
  cases change <;> first | exact frozen | rfl

/-- Under natural identifiers every symbol keeps to the slot of its identifier. -/
theorem keeps_seated (change : t.Change c t') (natural : c.Natural) (seated : t.Seated) : t'.Seated := by
  cases change with
  | same => exact seated
  | settled at_x =>
    obtain rfl := seated.id_eq at_x
    exact seated.update at_x rfl
  | appended absent => exact seated.install absent rfl
  | seated absent _ place => exact seated.install absent (place natural)
  | frozen => exact ⟨seated.id_eq, seated.name_inj⟩

theorem keeps_idOf (change : t.Change c t') (distinct : t.Distinct) (given : t.idOf name = .ok id) :
    t'.idOf name = .ok id := by
  unfold idOf at given
  split at given
  · rename_i s found
    cases given
    obtain ⟨rfl, a, at_s⟩ := exists_at?_of_find? found
    obtain ⟨s', at_s', named, same⟩ := change.old distinct at_s
    rw [← named, ← same]
    exact idOf_eq_ok_of_find? ((change.distinct distinct).find?_eq_some at_s')
  · cases given

/-- In a frozen table a name has the identifier it had, or none as before, unless it is restored. -/
theorem idOf_of_frozen (change : t.Change c t') (distinct : t.Distinct) (frozen : t.frozen = true)
    (name : String) : t'.idOf name = t.idOf name ∨
      t.contains name = false ∧ ∃ id kind, c = .restore name id kind ∧ t'.idOf name = .ok id := by
  cases before : t.find? name with
  | some s =>
    have given := idOf_eq_ok_of_find? before
    exact .inl ((change.keeps_idOf distinct given).trans given.symm)
  | none =>
    cases later : t'.find? name with
    | none => simp [idOf, before, later]
    | some s =>
      obtain ⟨rfl, a, at_s⟩ := exists_at?_of_find? later
      rcases change.new at_s with ⟨x, at_x, named⟩ | ⟨-, -, restored⟩
      · exact absurd named (find?_eq_none.1 before a x at_x)
      · obtain ⟨kind, rfl⟩ := restored frozen
        exact .inr ⟨by simp [contains, before], s.id, kind, rfl, idOf_eq_ok_of_find? later⟩

end Change

/-! ## Runs of calls -/

theorem distinct_fresh : fresh.Distinct := fun _ _ _ _ => lawful_fresh.name_inj

theorem Distinct.foldl_after (distinct : t.Distinct) (calls : List Call) :
    (calls.foldl Call.after t).Distinct := by
  induction calls generalizing t with
  | nil => exact distinct
  | cons c calls ih => exact ih ((t.change c).distinct distinct)

theorem Seated.foldl_after (seated : t.Seated) {calls : List Call} (natural : ∀ c ∈ calls, c.Natural) :
    (calls.foldl Call.after t).Seated := by
  induction calls generalizing t with
  | nil => exact seated
  | cons c calls ih =>
    obtain ⟨first, later⟩ := List.forall_mem_cons.1 natural
    exact ih ((t.change c).keeps_seated first seated) later

theorem Distinct.idOf_foldl_after (distinct : t.Distinct) (given : t.idOf name = .ok id) (calls : List Call) :
    (calls.foldl Call.after t).idOf name = .ok id := by
  induction calls generalizing t with
  | nil => exact given
  | cons c calls ih =>
    exact ih ((t.change c).distinct distinct) ((t.change c).keeps_idOf distinct given)

theorem contains_eq_of_idOf_eq (same : t'.idOf name = t.idOf name) : t'.contains name = t.contains name := by
  unfold idOf at same
  unfold contains
  split at same <;> split at same <;> simp_all

theorem Distinct.idOf_of_frozen (distinct : t.Distinct) (frozen : t.frozen = true) (calls : List Call)
    (name : String) : (calls.foldl Call.after t).idOf name = t.idOf name ∨
      t.contains name = false ∧ ∃ id kind, .restore name id kind ∈ calls ∧
        (calls.foldl Call.after t).idOf name = .ok id := by
  induction calls generalizing t with
  | nil => exact .inl rfl
  | cons c calls ih =>
    have change := t.change c
    have distinct' := change.distinct distinct
    rw [List.foldl_cons]
    rcases change.idOf_of_frozen distinct frozen name with same | ⟨absent, id, kind, rfl, given⟩
    · rw [← same, ← contains_eq_of_idOf_eq same]
      refine (ih distinct' (change.keeps_frozen frozen)).imp_right ?_
      rintro ⟨absent, id, kind, mem, given⟩
      exact ⟨absent, id, kind, List.mem_cons_of_mem _ mem, given⟩
    · exact .inr ⟨absent, id, kind, List.mem_cons_self, distinct'.idOf_foldl_after given calls⟩

/-! ## Names and identifiers -/

/-- Names and identifiers lead to each other, and the next identifier is free. -/
structure Consistent (t : SymbolTable) : Prop where
  symbol_idOf : ∀ {name}, t.contains name = true →
    ∃ id s, t.idOf name = .ok id ∧ t.symbol id = .ok s ∧ s.name = name ∧ s.id = id
  idOf_inj : ∀ {a b id}, t.idOf a = .ok id → t.idOf b = .ok id → a = b
  idOf_endMarker : t.idOf endMarkerName = .ok endMarkerId
  le_lastId : ∀ {name id}, t.idOf name = .ok id → id ≤ t.lastId
  resolve_new : ∀ {name} (kind : SymbolKind), t.frozen = false → t.contains name = false →
    ∃ s t', t.resolve name kind = .ok (s, t') ∧ t'.idOf name = .ok s.id ∧ ∀ other, t.idOf other ≠ .ok s.id
  mem_symbols : ∀ {name id}, t.idOf name = .ok id ↔ ∃ s ∈ t.symbols, s.name = name ∧ s.id = id
  ordered : (t.symbols.map Symbol.id).Pairwise (· < ·)
  counted : ∀ names : List String, names.Nodup → (∀ name, name ∈ names ↔ t.contains name = true) →
    t.size = names.length

theorem contains_iff_mem : t.contains name = true ↔ name ∈ t.symbols.map Symbol.name := by
  simp [contains, find?]

namespace Seated

/-- What holds of two symbols of a lower and a higher slot holds along the list of symbols. -/
theorem pairwise_symbols {R : Symbol → Symbol → Prop}
    (related : ∀ {a b x y}, a < b → t.at? a = some x → t.at? b = some y → R x y) : t.symbols.Pairwise R := by
  rw [symbols_eq_range t (Nat.le_refl _), List.pairwise_filterMap]
  apply List.pairwise_lt_range.imp
  intro a b lower x at_x y at_y
  exact related (Int.ofNat_lt.2 lower) at_x at_y

theorem ids_ordered (seated : t.Seated) : (t.symbols.map Symbol.id).Pairwise (· < ·) := by
  apply List.pairwise_map.2
  apply pairwise_symbols
  intro a b x y lower at_x at_y
  rwa [seated.id_eq at_x, seated.id_eq at_y]

theorem names_nodup (seated : t.Seated) : (t.symbols.map Symbol.name).Nodup := by
  apply List.pairwise_map.2
  apply pairwise_symbols
  intro a b x y lower at_x at_y same
  exact absurd (seated.name_inj at_x at_y same) (Int.ne_of_lt lower)

theorem mem_symbols_iff (seated : t.Seated) :
    t.idOf name = .ok id ↔ ∃ s ∈ t.symbols, s.name = name ∧ s.id = id := by
  rw [seated.idOf_eq_ok]
  constructor
  · rintro ⟨s, at_s, named⟩
    exact ⟨s, mem_symbols.2 ⟨id, at_s⟩, named, seated.id_eq at_s⟩
  · rintro ⟨s, mem, named, rfl⟩
    obtain ⟨a, at_s⟩ := mem_symbols.1 mem
    exact ⟨s, by rwa [seated.id_eq at_s], named⟩

/-- A new name is registered under an identifier that no name has. -/
theorem resolve_new (seated : t.Seated) (unfrozen : t.frozen = false) (absent : t.contains name = false)
    (kind : SymbolKind) : ∃ s t', t.resolve name kind = .ok (s, t') ∧ t'.idOf name = .ok s.id ∧
      ∀ other, t.idOf other ≠ .ok s.id := by
  have unknown : t.find? name = none := by simpa [contains] using absent
  let s : Symbol := { name := name, id := t.slots.size, kind := kind }
  have place : (t.install t.slots.size s).at? s.id = some s := by simp [at?_install_size, s]
  have resolved : t.resolve name kind = .ok (s, t.install t.slots.size s) := by
    simp [resolve, unknown, unfrozen, s]
  refine ⟨s, _, resolved, ?_, ?_⟩
  · exact (seated.install unknown rfl).idOf_eq_ok.2 ⟨s, place, rfl⟩
  · intro other given
    obtain ⟨x, at_x, -⟩ := seated.idOf_eq_ok.1 given
    simp [s, at?_size] at at_x

theorem consistent (seated : t.Seated) (endMarker : t.idOf endMarkerName = .ok endMarkerId) :
    t.Consistent where
  symbol_idOf := by
    intro name registered
    obtain ⟨s, mem, named⟩ := List.mem_map.1 (contains_iff_mem.1 registered)
    obtain ⟨a, at_s⟩ := SymbolTable.mem_symbols.1 mem
    exact ⟨a, s, seated.idOf_eq_ok.2 ⟨s, at_s, named⟩, symbol_eq_ok at_s, named, seated.id_eq at_s⟩
  idOf_inj := by
    intro a b id first second
    obtain ⟨x, at_x, rfl⟩ := seated.idOf_eq_ok.1 first
    obtain ⟨y, at_y, rfl⟩ := seated.idOf_eq_ok.1 second
    simp_all
  idOf_endMarker := endMarker
  le_lastId := by
    intro name id given
    obtain ⟨x, at_x, -⟩ := seated.idOf_eq_ok.1 given
    by_contra high
    have vacant : t.at? id = none := at?_of_size_le (by unfold lastId at high; omega)
    simp [vacant] at at_x
  resolve_new kind unfrozen absent := seated.resolve_new unfrozen absent kind
  mem_symbols := seated.mem_symbols_iff
  ordered := seated.ids_ordered
  counted := by
    intro names nodup same
    have perm : (t.symbols.map Symbol.name).Perm names := by
      apply (List.perm_ext_iff_of_nodup seated.names_nodup nodup).2
      intro name
      rw [same, contains_iff_mem]
    simpa [size] using perm.length_eq

end Seated

/-- Identifiers are skipped, filled in later and taken twice, and the table is frozen. -/
def skips : List Call :=
  [.restore "a" 5 .terminal, .resolve "b" .nonterminal, .restore "c" 5 .terminal, .restore "d" 3 .unknown,
    .restore "a" 4 .terminal, .restore "e" 0 .node, .resolve "d" .nonterminal, .restore "EOF" 2 .terminal,
    .freeze, .resolve "f" .terminal]

/-- In a frozen table no name gets another identifier, and a name gets its first one only where it is restored
from storage. -/
theorem idOf_after_freeze (earlier later : List Call) (name : String) :
    let t := (earlier.foldl Call.after fresh).freeze
    let t' := later.foldl Call.after t
    t'.idOf name = t.idOf name ∨
      t.contains name = false ∧ ∃ id kind, Call.restore name id kind ∈ later ∧ t'.idOf name = .ok id := by
  have distinct := distinct_fresh.foldl_after earlier
  have frozen : (earlier.foldl Call.after fresh).freeze.Distinct := Change.frozen.distinct distinct
  exact frozen.idOf_of_frozen rfl later name

/-- The names of a frozen table are not all that it will ever have: a restored name is registered. -/
theorem not_closed_by_freeze : ¬ ∀ (earlier later : List Call) (name : String),
    (∀ c ∈ later, c.Natural) →
      let t := (earlier.foldl Call.after fresh).freeze
      let t' := later.foldl Call.after t
      t'.contains name = t.contains name ∧ t'.idOf name = t.idOf name := by
  intro closed
  have absent := (closed [] [Call.restore "x" 3 .terminal] "x" (by decide)).1
  exact absurd absent (by decide +kernel)

end ParserGenerator.SymbolTable
