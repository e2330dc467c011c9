import ParserGenerator.LR.Parser
import ParserGenerator.Proofs.LR.Lookahead
import ParserGenerator.Proofs.LR.Rows

/-!
# Tables

The tables of a closed grammar are built by either method. They say what the states permit, and without
conflicts they say all that canonical items demand, since both methods find every lookahead with which a
completed item is canonical.
-/

namespace ParserGenerator.Grammar

open Build

variable {g : Grammar} {marker start : Int} {states : Array State} {q : Nat} {n : Int} {p : Production}

/-- The tables tell the transitions and the productions, and their cells what the states permit. -/
structure Tabled (g : Grammar) (states : Array State) (t : Tables) : Prop where
  start : t.startState = 0
  permits : ∀ {k a}, t.action.get? k = some a →
    ∃ q : Nat, k.1 = q ∧ g.isInput k.2 = true ∧ g.Permits states q k.2 a
  goto : ∀ {q : Nat} {id r : Int}, t.goto.get? (q, id) = some r ↔
    g.isInput id = false ∧ ∃ r' : Nat, goto? states q id = some r' ∧ r = r'
  lefts : t.leftIds = g.productions.toList.map Production.left
  lengths : ∃ ns, g.productions.toList.mapM g.reduceLength = .ok ns ∧ t.rightLengths = ns.map Int.ofNat
  left : ∀ {n p}, g.byNumber.get? n = some p → Parser.entry t.leftIds n = .ok p.left
  length : ∀ {n p}, g.byNumber.get? n = some p →
    Parser.entry t.rightLengths n = .ok (g.erased p.right).length

/-- No cell is missing that a transition or a canonical item demands. -/
structure Covering (g : Grammar) (states : Array State) (t : Tables) : Prop where
  shift : ∀ {q r : Nat} {x}, g.isInput x = true → goto? states q x = some r →
    t.action.get? (q, x) = some ⟨.shift, r⟩
  reduce : ∀ {γ} {q : Nat} {n p x}, Trail states 0 γ q → g.byNumber.get? n = some p → n ≠ 0 →
    g.Canonical γ ⟨n, p.right.length⟩ x → t.action.get? (q, x) = some ⟨.reduce, n⟩
  accept : ∀ {q : Nat}, Holds states q .accepting → t.action.get? (q, endMarkerId) = some ⟨.accept, 0⟩

/-- A cell reduces by the productions that are completed in its state with its terminal as a lookahead, and
by no others. -/
def Reducing (g : Grammar) (states : Array State) (look : Nat → Item → Except Error TerminalSet)
    (t : Tables) : Prop :=
  ∀ {q : Nat} {n x : Int}, t.action.get? (q, x) = some ⟨.reduce, n⟩ ↔ n ≠ 0 ∧
    ∃ p ts, g.byNumber.get? n = some p ∧ Holds states q ⟨n, p.right.length⟩ ∧
      look q ⟨n, p.right.length⟩ = .ok ts ∧ x ∈ ts

/-- No cell is missing, and a cell reduces exactly by the productions with its terminal as a lookahead in
its state. -/
structure Decisive (g : Grammar) (states : Array State) (start : Int) (t : Tables) : Prop
    extends Covering g states t where
  reduce_iff : ∀ {q : Nat} {n x : Int}, t.action.get? (q, x) = some ⟨.reduce, n⟩ ↔
    n ≠ 0 ∧ g.Looks states start q n x

/-- The terminals on which a completed item is reduced are all with which it is canonical. -/
def Suffices (g : Grammar) (states : Array State) (look : Nat → Item → Except Error TerminalSet) : Prop :=
  ∀ {q n p}, g.byNumber.get? n = some p → n ≠ 0 → Holds states q ⟨n, p.right.length⟩ →
    ∃ ts, look q ⟨n, p.right.length⟩ = .ok ts ∧ (∀ t ∈ ts, g.isInput t = true) ∧
      ∀ {γ t}, Trail states 0 γ q → g.Canonical γ ⟨n, p.right.length⟩ t → t ∈ ts

/-! ## Parts of the tables -/

theorem exists_symbols {ids : List Int} (registered : ∀ id ∈ ids, ∃ s, g.symbols.at? id = some s) :
    ∃ ss, ids.mapM g.symbols.symbol = .ok ss ∧
      (ss.filter fun s => !s.isAction).length = (g.erased ids).length := by
  induction ids with
  | nil => exact ⟨[], rfl, rfl⟩
  | cons id ids ih =>
    obtain ⟨⟨s, at_s⟩, rest⟩ := List.forall_mem_cons.1 registered
    obtain ⟨ss, found, length⟩ := ih rest
    have known : g.symbols.symbol id = .ok s := SymbolTable.symbol_eq_ok at_s
    refine ⟨s :: ss, ?_, ?_⟩
    · rw [List.mapM_cons, known, found]
      rfl
    · by_cases action : s.isAction = true
      · rw [erased_cons_of_action ((isAction_eq at_s).trans action), List.filter_cons_of_neg (by simp [action]),
          length]
      · have plain : s.isAction = false := by simpa using action
        rw [erased_cons ((isAction_eq at_s).trans plain), List.filter_cons_of_pos (by simp [plain]),
          List.length_cons, List.length_cons, length]

section Parts

variable (coherent : g.Coherent)
include coherent

theorem Coherent.entry_map {f : Production → Int} (hp : g.byNumber.get? n = some p) :
    Parser.entry (g.productions.toList.map f) n = .ok (f p) := by
  obtain ⟨i, rfl⟩ := coherent.natural hp
  have at_i : g.productions[i]? = some p := (coherent.listed i).trans hp
  simp [Parser.entry, Int.not_lt.2 (Int.natCast_nonneg i), at_i]

theorem Coherent.reduceLength_eq (hp : g.byNumber.get? n = some p) :
    g.reduceLength p = .ok (g.erased p.right).length := by
  obtain ⟨ss, found, length⟩ := exists_symbols (coherent.right hp)
  refine Attempt.bind_eq_ok.2 ⟨ss, found, ?_⟩
  rw [length]
  rfl

theorem Coherent.mapM_reduceLength : g.productions.toList.mapM g.reduceLength =
    .ok (g.productions.toList.map fun p => (g.erased p.right).length) := by
  refine Attempt.mapM_eq_ok.2 (List.forall₂_map_right_iff.2 (List.forall₂_same.2 fun p mem => ?_))
  obtain ⟨i, at_i⟩ := List.mem_iff_getElem?.1 mem
  rw [Array.getElem?_toList] at at_i
  exact coherent.reduceLength_eq ((coherent.listed i).symm.trans at_i)

theorem Coherent.exists_lengths : ∃ lengths, g.productions.toList.mapM g.reduceLength = .ok lengths ∧
    ∀ {n p}, g.byNumber.get? n = some p →
      Parser.entry (lengths.map Int.ofNat) n = .ok (g.erased p.right).length := by
  refine ⟨_, coherent.mapM_reduceLength, fun hp => ?_⟩
  rw [List.map_map]
  exact coherent.entry_map hp

end Parts

theorem Settled.exists_formats (settled : g.Settled marker start) (auto : g.Automaton states) :
    ∃ texts, states.toList.mapM (fun s => s.items.mapM (Item.format g)) = .ok texts := by
  refine Attempt.exists_mapM fun s mem => Attempt.exists_mapM fun it mem' => ?_
  obtain ⟨q, at_q⟩ := List.mem_iff_getElem?.1 mem
  rw [Array.getElem?_toList] at at_q
  obtain ⟨p, hp, -⟩ := auto.valid ⟨s, at_q, mem'⟩
  obtain ⟨text, shown⟩ := settled.toLawful.exists_format hp (some it.position)
  refine ⟨s!"[{text}]", ?_⟩
  rw [Item.format, settled.coherent.productionAt?_eq hp]
  exact Attempt.bind_eq_ok.2 ⟨text, shown, rfl⟩

theorem get?_gotos {id r : Int} :
    (OrderedMap.ofRows (states.toList.map g.gotoCells)).get? ((q : Int), id) = some r ↔
      g.isInput id = false ∧ ∃ r' : Nat, goto? states q id = some r' ∧ r = r' := by
  rw [OrderedMap.get?_ofRows, List.getElem?_map, Array.getElem?_toList, goto?]
  cases states[q]? with
  | none => simp
  | some s =>
    simp only [Option.map_some, Option.bind_some, gotoCells, OrderedMap.get?_mapValues,
      OrderedMap.get?_filterKeys]
    by_cases input : g.isInput id = true
    · simp [input]
    · simp [input, eq_comm]

/-- The terminals on which a completed item is reduced by a method. -/
def lookOf (g : Grammar) (m : Method) (la : Lookaheads) (q : Nat) (it : Item) :
    Except Error TerminalSet :=
  match m with
  | .slr => g.followLookaheads it
  | .lalr => .ok (la.at q it.production)

/-- Tables that are put together say what the states permit, if the lookaheads are inputs. -/
theorem Coherent.tabled (coherent : g.Coherent) (valid : ∀ {q it}, Holds states q it → g.Valid it)
    {m : Method} {la : Lookaheads} {t : Tables}
    (inputs : ∀ q it, Holds states q it → it.isComplete g = true → it.production ≠ 0 →
      ∀ ts, g.lookOf m la q it = .ok ts → ∀ x ∈ ts, g.isInput x = true)
    (assembled : g.assemble m states la = .ok t) : g.Tabled states t := by
  obtain ⟨rows, built, assembled⟩ := Attempt.bind_eq_ok.1 assembled
  obtain ⟨items, -, assembled⟩ := Attempt.bind_eq_ok.1 assembled
  obtain ⟨lengths, counted, assembled⟩ := Attempt.bind_eq_ok.1 assembled
  cases assembled
  obtain ⟨lengths', counted', length⟩ := coherent.exists_lengths
  cases counted.symm.trans counted'
  refine ⟨rfl, ?_, get?_gotos, rfl, ⟨lengths, counted, rfl⟩, fun hp => coherent.entry_map hp,
    fun hp => length hp⟩
  rintro ⟨i, x⟩ a cell
  obtain ⟨q, cells, at_i, listed, mem⟩ := OrderedMap.mem_numbered.1 (OrderedMap.mem_toList.2 cell)
  rw [List.getElem?_map, Option.map_eq_some_iff] at listed
  obtain ⟨row, at_row, rfl⟩ := listed
  obtain ⟨⟨s, q'⟩, at_s, made⟩ := (Attempt.related_getElem? (Attempt.mapM_eq_ok.1 built)).2 row at_row
  rw [List.getElem?_zipIdx, Array.getElem?_toList, Option.map_eq_some_iff] at at_s
  obtain ⟨s, at_q, same⟩ := at_s
  cases same
  rw [Nat.zero_add] at made
  exact ⟨q, by omega,
    coherent.permitted_build valid at_q (inputs q) made x a (OrderedMap.mem_toList.1 mem)⟩

section Assemble

variable (settled : g.Settled marker start) (auto : g.Automaton states) {m : Method} {la : Lookaheads}
  (looks : g.Suffices states (g.lookOf m la))
include settled auto looks

theorem Settled.exists_rows :
    ∃ rows, states.toList.zipIdx.mapM (fun (s, n) => Row.build g n s (g.lookOf m la n)) = .ok rows ∧
      rows.length = states.size ∧ ∀ {q : Nat} {row : Row} {s : State}, rows[q]? = some row →
        states[q]? = some s → g.Filled states q (fun d => g.Shifts states q d ∨
          ∃ it ∈ s.completed g, Demands (g.lookOf m la q) it d) row := by
  have built : ∀ {q : Nat} {s : State}, states[q]? = some s →
      ∃ row, Row.build g q s (g.lookOf m la q) = .ok row ∧
        g.Filled states q (fun d => g.Shifts states q d ∨
          ∃ it ∈ s.completed g, Demands (g.lookOf m la q) it d) row := by
    intro q s at_q
    refine settled.exists_row auto at_q fun it holds complete ne => ?_
    obtain ⟨n, p, hp, rfl⟩ := settled.completed_eq auto holds complete
    obtain ⟨ts, found, inputs, -⟩ := looks hp ne holds
    exact ⟨ts, found, inputs⟩
  have each : ∀ e ∈ states.toList.zipIdx, ∃ row, Row.build g e.2 e.1 (g.lookOf m la e.2) = .ok row := by
    rintro ⟨s, q⟩ mem
    have at_q := List.mk_mem_zipIdx_iff_getElem?.1 mem
    rw [Array.getElem?_toList] at at_q
    obtain ⟨row, eq, -⟩ := built at_q
    exact ⟨row, eq⟩
  obtain ⟨rows, eq⟩ := Attempt.exists_mapM each
  have related := Attempt.mapM_eq_ok.1 eq
  refine ⟨rows, eq, ?_, ?_⟩
  · rw [← related.length_eq, List.length_zipIdx, Array.length_toList]
  · intro q row s at_row at_q
    obtain ⟨⟨s', q'⟩, listed, made⟩ := (Attempt.related_getElem? related).2 row at_row
    rw [List.getElem?_zipIdx, Array.getElem?_toList, at_q] at listed
    cases listed
    rw [Nat.zero_add] at made
    obtain ⟨row', eq', filled⟩ := built at_q
    cases eq'.symm.trans made
    exact filled

/-- The candidates for the cells of a state: its shifts and what its completed items demand. -/
def Candidate (g : Grammar) (states : Array State) (look : Nat → Item → Except Error TerminalSet) (q : Nat)
    (s : State) (d : Int × Action) : Prop :=
  g.Shifts states q d ∨ ∃ it ∈ s.completed g, Demands (look q) it d

/-- The tables are put together, and without conflicts their cells are exactly the candidates. -/
theorem Settled.exists_cells : ∃ t, g.assemble m states la = .ok t ∧
    (t.conflicts = [] → ∀ {q : Nat} {s : State} {d : Int × Action}, states[q]? = some s →
      (g.Candidate states (g.lookOf m la) q s d ↔ t.action.get? ((q : Int), d.1) = some d.2)) := by
  obtain ⟨rows, eq, size, filled⟩ := settled.exists_rows auto looks
  obtain ⟨texts, shown⟩ := settled.exists_formats auto
  obtain ⟨lengths, counted, -⟩ := settled.coherent.exists_lengths
  refine ⟨_, Attempt.bind_eq_ok.2 ⟨rows, eq, Attempt.bind_eq_ok.2 ⟨texts, shown,
    Attempt.bind_eq_ok.2 ⟨lengths, counted, rfl⟩⟩⟩, ?_⟩
  intro clean q s d at_q
  have inside : q < rows.length := size ▸ (Array.getElem?_eq_some_iff.1 at_q).1
  have at_row : rows[q]? = some rows[q] := List.getElem?_eq_getElem inside
  have unreported : rows[q].conflicts = [] :=
    List.flatMap_eq_nil_iff.1 clean _ (List.getElem_mem inside)
  rw [OrderedMap.get?_ofRows, List.getElem?_map, at_row]
  exact (filled at_row at_q).covers unreported (t := d.1) (a := d.2)

omit auto looks in
/-- A completed item is a candidate on each terminal of its lookahead set. -/
theorem Settled.candidate_reduce {ts : TerminalSet} {x : Int} {s : State} (at_q : states[q]? = some s)
    (hp : g.byNumber.get? n = some p) (ne : n ≠ 0) (holds : Holds states q ⟨n, p.right.length⟩)
    (found : g.lookOf m la q ⟨n, p.right.length⟩ = .ok ts) (inside : x ∈ ts) :
    g.Candidate states (g.lookOf m la) q s (x, ⟨.reduce, n⟩) := by
  refine .inr ⟨⟨n, p.right.length⟩, ?_, .inr ⟨ne, ts, x, found, inside, rfl⟩⟩
  exact mem_sortBy.2 (List.mem_filter.2 ⟨(holds_iff at_q).1 holds, settled.isComplete_end hp⟩)

section Clean

variable {t : Tables} (cells : ∀ {q : Nat} {s : State} {d : Int × Action}, states[q]? = some s →
  (g.Candidate states (g.lookOf m la) q s d ↔ t.action.get? ((q : Int), d.1) = some d.2))
include cells

theorem Settled.covering : g.Covering states t where
  shift := by
    intro q r x input step
    obtain ⟨s, at_q, -⟩ := goto?_eq_some.1 step
    exact (cells (d := (x, ⟨.shift, r⟩)) at_q).1 (.inl ⟨input, r, step, rfl⟩)
  reduce := by
    intro γ q n p x trail hp ne canonical
    obtain ⟨q', trail', holds⟩ := canonical.holds auto
    obtain rfl := trail'.unique trail
    obtain ⟨s, at_q, -⟩ := id holds
    obtain ⟨ts, found, -, all⟩ := looks hp ne holds
    have candidate := settled.candidate_reduce at_q hp ne holds found (all trail canonical)
    exact (cells at_q).1 candidate
  accept := by
    intro q holds
    obtain ⟨s, at_q, mem⟩ := holds
    refine (cells (d := (endMarkerId, ⟨.accept, 0⟩)) at_q).1 (.inr ⟨.accepting, ?_, .inl ⟨rfl, rfl⟩⟩)
    exact mem_sortBy.2 (List.mem_filter.2 ⟨mem, settled.isComplete_end settled.zero⟩)

omit looks in
theorem Settled.reducing (permits : ∀ {k a}, t.action.get? k = some a →
    ∃ q : Nat, k.1 = q ∧ g.isInput k.2 = true ∧ g.Permits states q k.2 a) :
    g.Reducing states (g.lookOf m la) t := by
  intro q n x
  constructor
  · intro cell
    obtain ⟨q', same, -, permits⟩ := permits cell
    obtain rfl : q = q' := Int.ofNat.inj same
    cases permits with
    | reduce _ _ holds =>
      obtain ⟨s, at_q, -⟩ := holds
      rcases (cells (d := (x, ⟨.reduce, n⟩)) at_q).2 cell with
        ⟨-, r, -, shift⟩ | ⟨it, completed, ⟨-, accept⟩ | ⟨ne, ts, x', found, inside, eq⟩⟩
      · cases shift
      · cases accept
      · cases eq
        rw [State.completed, mem_sortBy, List.mem_filter] at completed
        have holds : Holds states q it := ⟨s, at_q, completed.1⟩
        obtain ⟨n, p, hp, rfl⟩ := settled.completed_eq auto holds completed.2
        exact ⟨ne, p, ts, hp, holds, found, inside⟩
  · rintro ⟨ne, p, ts, hp, holds, found, inside⟩
    obtain ⟨s, at_q, -⟩ := id holds
    exact (cells at_q).1 (settled.candidate_reduce at_q hp ne holds found inside)

end Clean

/-- The tables of the states are put together. -/
theorem Settled.exists_assemble : ∃ t, g.assemble m states la = .ok t ∧ g.Tabled states t ∧
    (t.conflicts = [] → g.Covering states t ∧ g.Reducing states (g.lookOf m la) t) := by
  obtain ⟨t, assembled, cells⟩ := settled.exists_cells auto looks
  have inputs : ∀ q it, Holds states q it → it.isComplete g = true → it.production ≠ 0 →
      ∀ ts, g.lookOf m la q it = .ok ts → ∀ x ∈ ts, g.isInput x = true := by
    intro q it holds complete ne ts found
    obtain ⟨n, p, hp, rfl⟩ := settled.completed_eq auto holds complete
    obtain ⟨ts', found', inputs, -⟩ := looks hp ne holds
    cases found.symm.trans found'
    exact inputs
  have tabled := settled.coherent.tabled auto.valid inputs assembled
  refine ⟨t, assembled, tabled, fun clean => ?_⟩
  exact ⟨settled.covering auto looks (cells clean), settled.reducing auto (cells clean) tabled.permits⟩

end Assemble

/-! ## Both methods -/

section Build

variable (settled : g.Settled marker start) {f f' : Facts} (analysed : g.Analysed start f)
include settled

include analysed in
theorem Settled.suffices_slr {la : Lookaheads} :
    (g.having f).Suffices g.explore ((g.having f).lookOf .slr la) := by
  intro q n p hp ne _
  have hp : g.byNumber.get? n = some p := hp
  have listed := (settled.having f).coherent.productionAt?_eq hp
  obtain ⟨s, at_s, -⟩ := settled.left hp
  have known : (g.having f).symbols.symbol p.left = .ok s := SymbolTable.symbol_eq_ok at_s
  have inputs : ∀ t ∈ f.followOf p.left, g.isInput t = true :=
    fun t mem => (analysed.members mem).isInput settled.toLawful
  refine ⟨f.followOf p.left, ?_, inputs, fun {γ t} _ canonical => ?_⟩
  · show (g.having f).followLookaheads ⟨n, p.right.length⟩ = _
    rw [followLookaheads, listed]
    refine Attempt.bind_eq_ok.2 ⟨s, known, ?_⟩
    rw [settled.table.id_eq at_s]
    rfl
  · have canonical : g.Canonical γ ⟨n, p.right.length⟩ t := canonical.having g.facts
    obtain ⟨p', hp', ⟨zero, -⟩ | ⟨-, mem⟩⟩ := canonical.mem_followOf settled analysed
    · exact absurd zero ne
    · dsimp only at hp'
      rw [hp] at hp'
      cases hp'
      exact mem

theorem Settled.suffices_lalr {la : Lookaheads}
    (sets : ∀ q k t, t ∈ la.at q k ↔ g.Looks g.explore start q k t) :
    (g.having f').Suffices g.explore ((g.having f').lookOf .lalr la) := by
  intro q n p hp ne _
  have hp : g.byNumber.get? n = some p := hp
  refine ⟨la.at q n, rfl, fun t mem => ?_, fun {γ t} trail canonical => ?_⟩
  · obtain ⟨p, o, -, -, -, follow⟩ := (sets q n t).1 mem
    have input : g.isInput t = true := follow.isInput settled
    exact input
  · have canonical : g.Canonical γ ⟨n, p.right.length⟩ t := canonical.having g.facts
    exact (sets q n t).2 (canonical.looks settled settled.automaton hp ne trail)

omit settled in
theorem decisive_of_sets {la : Lookaheads} {t : Tables} (auto : g.Automaton states)
    (sets : ∀ q k x, x ∈ la.at q k ↔ g.Looks states start q k x) (covering : g.Covering states t)
    (reducing : g.Reducing states (g.lookOf .lalr la) t) : g.Decisive states start t where
  toCovering := covering
  reduce_iff := by
    intro q n x
    rw [reducing, and_congr_right_iff]
    intro ne
    constructor
    · rintro ⟨p, ts, -, -, found, inside⟩
      cases found
      exact (sets q n x).1 inside
    · intro looks
      obtain ⟨p, o, hp, holds, trail, -⟩ := id looks
      have right : p.right = [] ++ (p.right ++ []) := by simp
      obtain ⟨r, trail', ended⟩ := auto.walk hp right holds
      obtain rfl := trail'.unique trail
      exact ⟨p, _, hp, ended, rfl, (sets _ n x).2 looks⟩

/-- The tables of a settled grammar are built by either method; only facts about the grammar change. -/
theorem Settled.ends_buildTables (untouched : g.facts = {}) (m : Method) :
    Ends (buildTables m.name) g
      (fun t g' => ∃ f, g' = g.having f ∧ (g.having f).Tabled g.explore t ∧
        (t.conflicts = [] → (g.having f).Covering g.explore t ∧
          (m = .lalr → (g.having f).Decisive g.explore start t)))
      (fun _ => False) := by
  have named : Method.ofName? m.name = some m := by cases m <;> rfl
  have closed : (!g.closed) = false := by rw [settled.closed]; rfl
  have put_together : ∀ {f la}, (g.having f).Suffices g.explore ((g.having f).lookOf m la) →
      (m = .lalr → ∀ q k x, x ∈ la.at q k ↔ (g.having f).Looks g.explore start q k x) →
      Ends (query (·.assemble m g.explore la)) (g.having f)
        (fun t g' => ∃ f, g' = g.having f ∧ (g.having f).Tabled g.explore t ∧
          (t.conflicts = [] → (g.having f).Covering g.explore t ∧
            (m = .lalr → (g.having f).Decisive g.explore start t)))
        (fun _ => False) := by
    intro f la suffices_ sets
    have settled' := settled.having f
    obtain ⟨t, eq, tabled, clear⟩ := settled'.exists_assemble settled'.automaton suffices_
    rw [Ends, query_of_ok eq]
    refine ⟨f, rfl, tabled, fun clean => ⟨(clear clean).1, ?_⟩⟩
    rintro rfl
    exact decisive_of_sets settled'.automaton (sets rfl) (clear clean).1 (clear clean).2
  rw [buildTables, named]
  apply ends_get_bind
  rw [if_neg (by rw [closed]; exact Bool.false_ne_true)]
  apply ends_bind (settled.ends_analyze untouched)
  rintro - g' ⟨f, rfl, analysed⟩
  have settled' := settled.having f
  have states : (g.having f).states = .ok g.explore := settled'.states_eq
  apply ends_bind_of_ok (query_of_ok states)
  cases m with
  | slr => exact put_together (settled.suffices_slr analysed) nofun
  | lalr =>
    have answered := Answered.having analysed.answered
    apply ends_bind (settled'.ends_computeLookaheads answered.truthful)
    rintro la g'' ⟨⟨f', rfl⟩, sets⟩
    refine put_together (settled.suffices_lalr fun q k t => (sets q k t).trans looks_having) fun _ => ?_
    exact fun q k x => (sets q k x).trans (looks_having.trans looks_having.symm)

end Build

end ParserGenerator.Grammar
