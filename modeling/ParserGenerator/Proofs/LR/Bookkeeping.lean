import ParserGenerator.Proofs.Grammar.Calls
import ParserGenerator.Proofs.LR.Untouched

/-!
# The books of a grammar

Whatever is asked of a grammar, in whatever order, also under the name of the start marker and also if calls
fail half done, its books are in order: the productions of a symbol are filed with it on their left, and their
numbers are natural. A call that closes the grammar leaves a coherent one, and it stays coherent.
-/

namespace ParserGenerator.Grammar

open Build

variable {g g' : Grammar} {p : Production} {s : Symbol} {id start : Int}

/-! ## Symbols that are added or settled -/

/-- Symbols were added or got the kind that was open. Productions and facts are the same. -/
structure Extended (g g' : Grammar) : Prop where
  lawful : g'.symbols.Lawful
  symbols : g.symbols.Extends g'.symbols
  byNumber : g'.byNumber = g.byNumber
  productions : g'.productions = g.productions
  nextNumber : g'.nextNumber = g.nextNumber
  closed : g'.closed = g.closed
  facts : g'.facts = g.facts

theorem carried_extended : Carried (fun _ _ => True) Extended where
  refl lawful := ⟨lawful, .refl _, rfl, rfl, rfl, rfl, rfl⟩
  trans h h' := ⟨h'.lawful, h.symbols.trans h'.symbols, h'.byNumber.trans h.byNumber,
    h'.productions.trans h.productions, h'.nextNumber.trans h.nextNumber, h'.closed.trans h.closed,
    h'.facts.trans h.facts⟩
  lawful h := h.lawful
  resolve := by
    intro g name kind lawful kinds _
    rw [Ends, resolve]
    rcases @SymbolTable.Lawful.resolve_cases g.symbols name kind lawful kinds with
      ⟨s, t', resolved, lawful', extended, at_s, named⟩ | refused
    · rw [onSymbols_eq resolved]
      exact ⟨⟨lawful', extended, rfl, rfl, rfl, rfl, rfl⟩, at_s, named⟩
    · rw [onSymbols, refused]
      exact ⟨lawful, .refl _, rfl, rfl, rfl, rfl, rfl⟩
  update lawful at_s named filed kinds :=
    ⟨lawful.update at_s named, lawful.extends_update at_s named filed (.inl kinds), rfl, rfl, rfl, rfl, rfl⟩
  labels lawful _ _ _ := ⟨lawful, .refl _, rfl, rfl, rfl, rfl, rfl⟩

namespace Extended

theorem registered (h : g.Extended g') (at_s : g.symbols.at? id = some s) :
    ∃ s', g'.symbols.at? id = some s' := by
  obtain ⟨s', at_s', -⟩ := h.symbols.old at_s
  exact ⟨s', at_s'⟩

theorem input (h : g.Extended g') (at_s : g.symbols.at? id = some s) (input : s.isInput = true) :
    ∃ s', g'.symbols.at? id = some s' ∧ s'.isInput = true := by
  obtain ⟨s', at_s', -, -, same | ⟨unknown, -⟩⟩ := h.symbols.old at_s
  · exact ⟨s', at_s', by rwa [Symbol.isInput, same]⟩
  · rw [Symbol.isInput, unknown] at input
    cases input

theorem isInput (h : g.Extended g') (input : g.isInput id = true) : g'.isInput id = true := by
  obtain ⟨s, at_s, input⟩ := isInput_iff.1 input
  exact isInput_iff.2 (h.input at_s input)

theorem nonterminal (h : g.Extended g') (at_s : g.symbols.at? id = some s) (kind : s.kind = .nonterminal) :
    ∃ s', g'.symbols.at? id = some s' ∧ s'.kind = .nonterminal := by
  obtain ⟨s', at_s', -, -, same | ⟨unknown, -⟩⟩ := h.symbols.old at_s
  · exact ⟨s', at_s', same.trans kind⟩
  · cases kind.symm.trans unknown

/-- What is filed with a symbol was filed with it before. -/
theorem productions_sub (h : g.Extended g') {n : Int} {s' : Symbol} (at_s' : g'.symbols.at? id = some s')
    (mem : n ∈ s'.productions) : ∃ s, g.symbols.at? id = some s ∧ n ∈ s.productions := by
  rcases h.symbols.origin at_s' with ⟨s, at_s, -, filed, -⟩ | ⟨-, empty, -⟩
  · exact ⟨s, at_s, filed ▸ mem⟩
  · rw [empty] at mem
    cases mem

end Extended

theorem Coherent.extend (coherent : g.Coherent) (h : g.Extended g') : g'.Coherent where
  table := h.lawful
  ending := by
    obtain ⟨s, at_s, input⟩ := coherent.ending
    exact h.input at_s input
  right := by
    rw [h.byNumber]
    intro n p hp id mem
    obtain ⟨s, at_s⟩ := coherent.right hp id mem
    exact h.registered at_s
  own := by
    rw [h.byNumber]
    intro id s' n at_s' mem
    obtain ⟨s, at_s, mem⟩ := h.productions_sub at_s' mem
    exact coherent.own at_s mem
  listed := by
    rw [h.byNumber, h.productions]
    exact coherent.listed
  natural := by
    rw [h.byNumber]
    exact coherent.natural
  counted := by
    rw [productionCount, h.byNumber, h.productions]
    exact coherent.counted
  zero := by
    rw [h.byNumber]
    exact coherent.zero

/-! ## Adding a production -/

/-- A production with a registered left-hand side is filed, unless its number is taken. -/
theorem ends_register {P : Grammar → Prop} (held : P g) (at_s : g.symbols.at? p.left = some s)
    (filed : g.byNumber.get? p.number = none → P (g.withProduction p s)) :
    Ends (register p) g (fun _ g' => P g' ∧ g' = g.withProduction p s) P := by
  have query {α : Type} (look : Grammar → Except Error α) :
      Ends (query look) g (fun a g' => look g = .ok a ∧ g' = g) P :=
    ends_query.mono (fun _ _ h => h) fun _ same => same ▸ held
  cases taken : g.byNumber.get? p.number with
  | none =>
    rw [Ends, register_eq taken at_s]
    exact ⟨filed taken, rfl⟩
  | some other =>
    rw [Grammar.register]
    apply ends_get_bind
    rw [taken]
    apply ends_bind (query _)
    rintro _ _ ⟨-, rfl⟩
    apply ends_bind (query _)
    rintro _ _ ⟨-, rfl⟩
    exact ends_throw held

/-- What stays true of an open grammar, whatever symbols it gets, if it takes a production with a nonterminal on
its left under a positive number. -/
structure Upheld (P : Grammar → Prop) : Prop where
  table : ∀ {g}, P g → g.symbols.Lawful
  opened : ∀ {g}, P g → g.closed = false
  next : ∀ {g}, P g → 0 < g.nextNumber
  extend : ∀ {g g'}, P g → g.Extended g' → P g'
  numbered : ∀ {g next}, P g → 0 < next → ∀ start, P { g with nextNumber := next, start := start }
  withProduction : ∀ {g p s}, P g → g.byNumber.get? p.number = none → g.symbols.at? p.left = some s →
    s.kind = .nonterminal → 0 < p.number → P (g.withProduction p s)

namespace Upheld

variable {P : Grammar → Prop} (upheld : Upheld P) (held : P g)
include upheld held

/-- A call that extends the symbols keeps what is upheld. -/
theorem ends {α : Type} {x : Build α} {done : α → Grammar → Prop} (ended : Ends x g done g.Extended) :
    Ends x g done P :=
  ended.mono (fun _ _ h => h) fun _ => upheld.extend held

/-- Behind the checks a production is filed under the next number, or it is refused. -/
theorem file {left : Int} (at_s : g.symbols.at? left = some s) (kind : s.kind = .nonterminal) (ids : List Int)
    (action label : Option String) (first : String) :
    Ends (do
      let number := (← get).nextNumber
      modify fun g => { g with nextNumber := number + 1 }
      let p : Production := ⟨number, left, ids, action, label⟩
      Grammar.register p
      modify fun g => { g with start := g.start <|> some first }
      return p) g (fun _ => P) P := by
  have positive := upheld.next held
  apply ends_get_bind
  apply ends_modify_bind
  have counted := upheld.numbered held (Int.lt_add_one_of_le positive.le) g.start
  refine ends_bind (ends_register counted at_s fun absent =>
    upheld.withProduction counted absent at_s kind positive) ?_
  rintro - g₁ ⟨held₁, -⟩
  exact upheld.numbered held₁ (upheld.next held₁) _

theorem addProduction (left : String) (items : List RightSymbol) (action label : Option String) :
    Ends (addProduction left items action label) g (fun _ => P) P := by
  rw [Grammar.addProduction]
  apply ends_get_bind
  rw [if_neg (by rw [upheld.opened held]; exact Bool.false_ne_true)]
  by_cases nameless : left.isEmpty = true
  · rw [if_pos nameless]
    exact ends_throw_bind held
  rw [if_neg nameless]
  apply ends_bind (upheld.ends held (carried_extended.resolve (upheld.table held) declarable_nonterminal trivial))
  rintro s g₁ ⟨extended₁, at_s, -⟩
  have held₁ := upheld.extend held extended₁
  by_cases kind : s.kind ≠ .nonterminal
  · rw [if_pos kind]
    exact ends_throw_bind held₁
  rw [if_neg kind]
  have kind := not_not.1 kind
  apply ends_bind (upheld.ends held₁ (carried_extended.rightIds (upheld.table held₁) left fun _ => trivial))
  rintro ids g₂ extended₂
  have held₂ := upheld.extend held₁ extended₂
  obtain ⟨s₂, at_s₂, kind₂⟩ := extended₂.nonterminal at_s kind
  cases action with
  | none => exact upheld.file held₂ at_s₂ kind₂ ids none label left
  | some text =>
    apply ends_bind (upheld.ends held₂ (carried_extended.newAction (upheld.table held₂) text true fun _ => trivial))
    rintro a g₃ ⟨extended₃, -⟩
    obtain ⟨s₃, at_s₃, kind₃⟩ := extended₃.nonterminal at_s₂ kind₂
    exact upheld.file (upheld.extend held₂ extended₃) at_s₃ kind₃ (ids ++ [a.id]) (some text) label left

end Upheld

/-! ## Books -/

/-- The productions of a symbol are filed with it on their left; only a production of one symbol has the
number 0, and all others have positive numbers; FIRST and FOLLOW hold what can be read. If the grammar is
closed, it is coherent. -/
structure Booked (g : Grammar) : Prop where
  table : g.symbols.Lawful
  ending : ∃ s, g.symbols.at? endMarkerId = some s ∧ s.isInput = true
  own : ∀ {id s n}, g.symbols.at? id = some s → n ∈ s.productions →
    ∃ p, g.byNumber.get? n = some p ∧ p.left = id
  numbers : ∀ {n p}, g.byNumber.get? n = some p → 0 < n ∨ n = 0 ∧ p.right.length = 1
  next : 0 < g.nextNumber
  only : g.InputsOnly g.facts
  coherent : g.closed = true → g.Coherent

/-- The books of a grammar that takes productions. -/
structure Drafted (g : Grammar) : Prop extends Booked g where
  opened : g.closed = false

theorem Booked.extend (booked : g.Booked) (h : g.Extended g') : g'.Booked where
  table := h.lawful
  ending := by
    obtain ⟨s, at_s, input⟩ := booked.ending
    exact h.input at_s input
  own := by
    rw [h.byNumber]
    intro id s' n at_s' mem
    obtain ⟨s, at_s, mem⟩ := h.productions_sub at_s' mem
    exact booked.own at_s mem
  numbers := by
    rw [h.byNumber]
    exact booked.numbers
  next := h.nextNumber ▸ booked.next
  only := h.facts ▸ booked.only.mono h.isInput
  coherent closed := (booked.coherent (h.closed ▸ closed)).extend h

theorem Drafted.extend (drafted : g.Drafted) (h : g.Extended g') : g'.Drafted :=
  ⟨drafted.toBooked.extend h, h.closed.trans drafted.opened⟩

theorem Booked.informed (booked : g.Booked) (h : g.Informed g') : g'.Booked := by
  obtain ⟨f, rfl, kept⟩ := h
  have only := kept booked.table.seated (isInput_iff.2 booked.ending) booked.only
  exact ⟨booked.table, booked.ending, booked.own, booked.numbers, booked.next, only.having f,
    fun closed => (booked.coherent closed).having f⟩

theorem booked_fresh : Booked .fresh where
  table := SymbolTable.lawful_fresh
  ending := open_fresh.input_endMarker
  own at_s mem := (open_fresh.mem_productions at_s).1 mem
  numbers := nofun
  next := Int.zero_lt_one
  only := ⟨fun mem => absurd mem (OrderedSet.not_mem_empty _), fun mem => absurd mem (OrderedSet.not_mem_empty _)⟩
  coherent := nofun

namespace Drafted

theorem query (drafted : g.Drafted) {α : Type} (look : Grammar → Except Error α) :
    Ends (query look) g (fun a g' => look g = .ok a ∧ g' = g) Drafted :=
  ends_query.mono (fun _ _ h => h) fun _ same => same ▸ drafted

/-- A call that extends the symbols keeps the books. -/
theorem ends (drafted : g.Drafted) {α : Type} {x : Build α} {done : α → Grammar → Prop}
    (ended : Ends x g done g.Extended) : Ends x g done Drafted :=
  ended.mono (fun _ _ h => h) fun _ => drafted.extend

theorem withProduction (drafted : g.Drafted) (absent : g.byNumber.get? p.number = none)
    (at_s : g.symbols.at? p.left = some s) (number : 0 < p.number ∨ p.number = 0 ∧ p.right.length = 1) :
    (g.withProduction p s).Drafted := by
  -- Symbols keep what they can be read as.
  have input : ∀ {id x}, g.symbols.at? id = some x → x.isInput = true →
      ∃ y, (g.withProduction p s).symbols.at? id = some y ∧ y.isInput = true := by
    intro id x at_x input
    obtain ⟨y, at_y, -, same⟩ := old_withProduction drafted.table.seated at_s at_x
    exact ⟨y, at_y, by rwa [Symbol.isInput, same]⟩
  refine ⟨⟨?_, ?_, ?_, ?_, drafted.next, ?_, ?_⟩, drafted.opened⟩
  · have place : g.symbols.at? ({ s with productions := s.productions ++ [p.number] } : Symbol).id = some s := by
      rw [drafted.table.id_eq at_s, at_s]
    exact drafted.table.update place rfl
  · obtain ⟨x, at_x, ended⟩ := drafted.ending
    exact input at_x ended
  · intro id x n at_x mem
    have old : ∀ {y}, g.symbols.at? id = some y → n ∈ y.productions →
        ∃ q, (g.withProduction p s).byNumber.get? n = some q ∧ q.left = id := by
      intro y at_y mem
      obtain ⟨q, hq, own⟩ := drafted.own at_y mem
      exact ⟨q, get?_withProduction_of_absent absent hq, own⟩
    rw [at?_withProduction drafted.table.seated at_s] at at_x
    split at at_x
    · rename_i left
      cases at_x
      rcases List.mem_append.1 mem with filed | new
      · exact old (left ▸ at_s) filed
      · rw [List.mem_singleton.1 new, get?_withProduction, if_pos rfl]
        exact ⟨p, rfl, left.symm⟩
    · exact old at_x mem
  · intro n q hq
    rw [get?_withProduction] at hq
    split at hq
    · rename_i same
      cases hq
      exact same ▸ number
    · exact drafted.numbers hq
  · refine drafted.only.mono fun {t} can => ?_
    obtain ⟨x, at_x, can⟩ := isInput_iff.1 can
    exact isInput_iff.2 (input at_x can)
  · intro closed
    exact absurd (drafted.opened.symm.trans closed) Bool.false_ne_true

/-- The next number and the start symbol may be others. -/
theorem numbered (drafted : g.Drafted) {next : Int} (positive : 0 < next) (start : Option String) :
    Drafted { g with nextNumber := next, start := start } :=
  ⟨⟨drafted.table, drafted.ending, drafted.own, drafted.numbers, positive, drafted.only.mono id,
    fun closed => absurd (drafted.opened.symm.trans closed) Bool.false_ne_true⟩, drafted.opened⟩

end Drafted

theorem upheld_drafted : Upheld Drafted where
  table drafted := drafted.table
  opened := Drafted.opened
  next drafted := drafted.next
  extend := Drafted.extend
  numbered drafted positive := drafted.numbered positive
  withProduction drafted absent at_s _ positive := drafted.withProduction absent at_s (.inl positive)

/-! ## Closing -/

/-- The grammar with a production of number 0. What else is filed was filed before, and what was registered
still is. -/
structure Started (g : Grammar) (start : Int) (g' : Grammar) : Prop extends Drafted g' where
  zero : ∃ p, g'.byNumber.get? 0 = some p
  old : ∀ {n p}, g'.byNumber.get? n = some p → g.byNumber.get? n = some p ∨ p.right = [start]
  registered : ∀ {id s}, g.symbols.at? id = some s → ∃ s', g'.symbols.at? id = some s'

theorem Drafted.markStart (drafted : g.Drafted) (s : Symbol) :
    Ends (markStart s) g (fun _ => g.Started s.id) Drafted := by
  rw [Grammar.markStart]
  apply ends_get_bind
  cases there : g.byNumber.contains 0 with
  | true =>
    have zero : ∃ p, g.byNumber.get? 0 = some p := Option.isSome_iff_exists.1 there
    exact ends_pure ⟨drafted, zero, fun hp => .inl hp, fun at_x => ⟨_, at_x⟩⟩
  | false =>
    apply ends_bind (drafted.ends (carried_extended.resolve drafted.table declarable_nonterminal trivial))
    rintro m g₁ ⟨extended, at_m, -⟩
    have drafted₁ := drafted.extend extended
    let p : Production := ⟨0, m.id, [s.id], none, none⟩
    refine (ends_register (p := p) drafted₁ at_m fun absent =>
      drafted₁.withProduction absent at_m (.inr ⟨rfl, rfl⟩)).mono ?_ fun _ h => h
    rintro - g₂ ⟨drafted₂, rfl⟩
    refine ⟨drafted₂, ⟨p, get?_withProduction.trans (if_pos rfl)⟩, fun {n q} hq => ?_, fun {id x} at_x => ?_⟩
    · rw [get?_withProduction] at hq
      split at hq
      · cases hq
        exact .inr rfl
      · exact .inl (extended.byNumber ▸ hq)
    · obtain ⟨y, at_y⟩ := extended.registered at_x
      obtain ⟨z, at_z, -⟩ := old_withProduction (p := p) drafted₁.table.seated at_m at_y
      exact ⟨z, at_z⟩

/-- Productions that are listed are all there are. -/
theorem listProductions_eq_ok {ps : Array Production} (listed : g.listProductions = .ok ps) :
    ps.size = g.productionCount ∧ ∀ i : Nat, ps[i]? = g.byNumber.get? i := by
  let numbers := (List.range g.productionCount).map Int.ofNat
  have complete : ∀ n ∈ numbers, ∃ p, g.byNumber.get? n = some p := by
    rw [listProductions] at listed
    split at listed
    · rename_i length
      exact fun n mem => Option.isSome_iff_exists.1 (List.filterMap_length_eq_length.1 length n mem)
    · cases listed
  have below : ∀ {i : Nat}, (i : Int) ∈ numbers ↔ i < g.productionCount := by
    intro i
    rw [List.mem_map]
    constructor
    · rintro ⟨j, mem, same⟩
      obtain rfl := Int.ofNat.inj same
      exact List.mem_range.1 mem
    · exact fun inside => ⟨i, List.mem_range.2 inside, rfl⟩
  obtain ⟨ps', listed', size, entries⟩ := listProductions_eq fun i inside => complete i (below.2 inside)
  cases listed.symm.trans listed'
  refine ⟨size, fun i => ?_⟩
  by_cases inside : i < g.productionCount
  · exact entries i inside
  · -- There are as many numbers in use as are listed, so there is no other one.
    have distinct : numbers.Nodup := List.nodup_range.map fun _ _ same => Int.ofNat.inj same
    have length : g.byNumber.keys.length ≤ numbers.length := by
      simp [numbers, productionCount, OrderedMap.size, OrderedMap.keys]
    have same := (List.subperm_of_subset distinct fun n mem =>
      OrderedMap.mem_keys.2 (complete n mem)).perm_of_length_le length
    have absent : g.byNumber.get? i = none := by
      rw [OrderedMap.get?_eq_none]
      exact fun mem => inside (below.1 (same.mem_iff.2 mem))
    rw [absent, Array.getElem?_eq_none (by omega)]

theorem startSymbol_eq_ok (table : g.symbols.Lawful) {name : String} (found : g.startSymbol name = .ok s) :
    g.symbols.at? s.id = some s ∧ s.name = name := by
  rw [startSymbol] at found
  split at found
  · rename_i x given
    split at found
    · cases found
      exact table.get?_eq_some.1 given
    · cases found
  · cases found

/-- Listed productions of registered symbols make a coherent grammar when it is closed over them. -/
theorem Drafted.sealed (drafted : g.Drafted) {ps : Array Production} (size : ps.size = g.productionCount)
    (listed : ∀ i : Nat, ps[i]? = g.byNumber.get? i)
    (right : ∀ {n p}, g.byNumber.get? n = some p → ∀ id ∈ p.right, ∃ s, g.symbols.at? id = some s)
    (zero : ∃ p, g.byNumber.get? 0 = some p) : (g.sealed ps).Booked := by
  have table : g.symbols.freeze.Lawful :=
    ⟨drafted.table.id_eq, drafted.table.name_inj, drafted.table.endMarker, drafted.table.dense⟩
  refine ⟨table, drafted.ending, drafted.own, drafted.numbers, drafted.next, drafted.only.mono id, fun _ => ?_⟩
  exact {
    table := table
    ending := drafted.ending
    right := right
    own := drafted.own
    listed := listed
    natural := by
      intro n p hp
      have := drafted.numbers hp
      exact ⟨n.toNat, by omega⟩
    counted := size.symm
    zero := by
      obtain ⟨p, hp⟩ := zero
      rcases drafted.numbers hp with positive | ⟨-, single⟩
      · exact absurd positive (Int.lt_irrefl 0)
      · exact ⟨p, hp, single⟩ }

theorem Drafted.closeOver (drafted : g.Drafted) (name : String) :
    Ends (closeOver name) g (fun _ => Booked) Drafted := by
  unfold Grammar.closeOver
  apply ends_bind (drafted.query _)
  rintro _ g ⟨known, rfl⟩
  apply ends_bind (drafted.query _)
  rintro _ g ⟨-, rfl⟩
  apply ends_bind (drafted.query _)
  rintro s g ⟨start, rfl⟩
  apply ends_get_bind
  have labelled := ends_applyLabels_keeping (fun h => h.Drafted ∧ g.Extended h)
    (fun kept => kept.1.table.seated) (fun kept at_s named filed kind =>
      have extended := carried_extended.update kept.1.table at_s named filed kind
      ⟨kept.1.extend extended, carried_extended.trans kept.2 extended⟩)
    g.labels.nodup ⟨drafted, carried_extended.refl drafted.table⟩
  apply ends_bind (labelled.mono (fun _ _ h => h.1) fun _ h => h.1)
  rintro - g₁ ⟨drafted₁, extended⟩
  apply ends_bind (drafted₁.markStart s)
  rintro - g₂ started
  apply ends_bind (started.query _)
  rintro ps g₂ ⟨listed, rfl⟩
  obtain ⟨size, entries⟩ := listProductions_eq_ok listed
  refine ends_modify (started.sealed size entries ?_ started.zero)
  intro n p hp id mem
  -- What was filed before was checked, and the start symbol was looked up.
  obtain ⟨x, at_x⟩ : ∃ x, g.symbols.at? id = some x := by
    rcases started.old hp with before | single
    · rw [extended.byNumber] at before
      have checked := Attempt.forM_eq_ok.1 known p (OrderedMap.mem_values.2 ⟨n, before⟩)
      obtain ⟨x, found, -⟩ := Attempt.bind_eq_ok.1 (Attempt.forM_eq_ok.1 checked id mem)
      exact ⟨x, SymbolTable.at?_of_symbol found⟩
    · rw [single, List.mem_singleton] at mem
      exact ⟨s, mem ▸ (startSymbol_eq_ok drafted.table start).1⟩
  obtain ⟨y, at_y⟩ := extended.registered at_x
  exact started.registered at_y

theorem Booked.close (booked : g.Booked) (start : Option String) :
    Ends (close start) g (fun _ => Booked) Booked := by
  rw [Grammar.close]
  apply ends_get_bind
  cases closed : g.closed with
  | true => exact ends_pure booked
  | false =>
    apply ends_modify_bind
    apply ends_get_bind
    have drafted := Drafted.numbered ⟨booked, closed⟩ booked.next (start <|> g.start)
    generalize (start <|> g.start) = chosen at drafted ⊢
    cases chosen with
    | none => exact ends_throw drafted.toBooked
    | some name => exact (drafted.closeOver name).mono (fun _ _ h => h) fun _ h => h.toBooked

/-! ## Histories -/

theorem Booked.after (booked : g.Booked) (c : Call) : (c.after g).Booked := by
  have keeps : ∀ {α : Type} {x : Build α} {done : α → Grammar → Prop},
      Ends x g (fun a g' => g.Extended g' ∧ done a g') g.Extended → (leaves x g).Booked :=
    fun ended => (ended.mono (fun _ _ h => booked.extend h.1) fun _ => booked.extend).of_leaves
  cases c with
  | declareTerminal name => exact keeps (carried_extended.declareTerminal booked.table trivial)
  | declareNonterminal name initialiser =>
    exact keeps (carried_extended.declareNonterminal booked.table trivial initialiser)
  | declarePrecedence associativity labels =>
    exact keeps ((carried_extended.declarePrecedence booked.table associativity labels).mono
      (fun _ _ h => ⟨h, trivial⟩) fun _ h => h)
  | newAction text trailing =>
    exact keeps (carried_extended.newAction booked.table text trailing fun _ => trivial)
  | addProduction left items action label =>
    cases closed : g.closed with
    | true =>
      rw [Call.after, leaves, addProduction_of_closed closed]
      exact booked
    | false =>
      have drafted : g.Drafted := ⟨booked, closed⟩
      exact ((upheld_drafted.addProduction drafted left items action label).mono (fun _ _ h => h.toBooked)
        fun _ h => h.toBooked).of_leaves
  | close start => exact (booked.close start).of_leaves

/-- The grammars that come about: some calls made them, in any order and under any names, and questions were
asked in between. Calls and questions may have failed. -/
inductive Made : Grammar → Prop
  | fresh : Made .fresh
  | call {g : Grammar} (c : Call) : Made g → Made (c.after g)
  | vanishing {g : Grammar} (id : Int) : Made g → Made (leaves (isNullable id) g)
  | beginning {g : Grammar} (ids : List Int) : Made g → Made (leaves (firstOfSequence ids) g)
  | analysis {g : Grammar} : Made g → Made (leaves analyze g)
  | tables {g : Grammar} (method : String) : Made g → Made (leaves (buildTables method) g)

theorem Declared.made (declared : Declared g) : Made g := by
  induction declared with
  | fresh => exact .fresh
  | call c _ _ ih => exact ih.call c

theorem Made.booked (made : Made g) : g.Booked := by
  have informed : ∀ {α : Type} {x : Build α} {g : Grammar}, g.Booked → Informs x g → (leaves x g).Booked :=
    fun booked informs => (informs.mono (fun _ _ => booked.informed) fun _ => booked.informed).of_leaves
  induction made with
  | fresh => exact booked_fresh
  | call c _ ih => exact ih.after c
  | vanishing id _ ih => exact informed ih (informs_isNullable id _)
  | beginning ids _ ih => exact informed ih (informs_firstOfSequence ids _)
  | analysis _ ih => exact informed ih (informs_analyze _)
  | tables method _ ih => exact informed ih (informs_buildTables method _)

/-- Tables of a grammar that came about in any way say what its states permit. -/
theorem Made.tabled {t : Tables} {method : String} (made : Made g) (closed : g.closed = true)
    (built : buildTables method g = .ok t g') : g'.Coherent ∧ g'.Tabled g'.explore t :=
  (made.booked.coherent closed).tabled_of_buildTables made.booked.only built

end ParserGenerator.Grammar
