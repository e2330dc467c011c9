import ParserGenerator.Proofs.Storage.Reading

/-!
# A decoded grammar has one stream

A stream may hold symbols with gaps between their identifiers, in any order and with repeats, and it may leave
production 0 to be made. Where the identifiers are natural numbers, each symbol that is restored takes its seat
and each production is filed; a grammar that is then closed can be stored, and its stream is decoded to a
grammar with the same stream.
-/

namespace ParserGenerator

namespace Grammar

open Build

variable {g g' : Grammar} {s : Symbol} {p : Production} {u : SymbolTable} {name : String}

/-! ## Symbols and productions from storage -/

theorem Gathered.seat (gathered : g.Gathered) (seats : g.symbols.Seats s u) :
    Gathered { g with symbols := u } where
  seated := seats.seated
  endMarker := by
    obtain ⟨e, at_e, named⟩ := gathered.endMarker
    show ∃ s, u.at? endMarkerId = some s ∧ s.name = endMarkerName
    rw [seats.entry]
    split
    · rename_i own
      exact ⟨s, rfl, (seats.old (own ▸ at_e)).1.symm.trans named⟩
    · exact ⟨e, at_e, named⟩
  number_eq := gathered.number_eq
  left := by
    intro n q hq
    obtain ⟨x, at_x⟩ := gathered.left hq
    show ∃ s, u.at? q.left = some s
    rw [seats.entry]
    split
    · exact ⟨s, rfl⟩
    · exact ⟨x, at_x⟩
  filed := by
    intro id y n at_y mem
    have at_y : u.at? id = some y := at_y
    rw [seats.entry] at at_y
    split at at_y
    · rename_i own
      cases at_y
      cases before : g.symbols.at? s.id with
      | none =>
        rw [seats.new before] at mem
        cases mem
      | some x =>
        rw [(seats.old before).2] at mem
        rw [own]
        exact gathered.filed before mem
    · exact gathered.filed at_y mem

theorem Gathered.withProduction (gathered : g.Gathered) (absent : g.byNumber.get? p.number = none)
    (at_s : g.symbols.at? p.left = some s) : (g.withProduction p s).Gathered := by
  have place : s.id = p.left := gathered.seated.id_eq at_s
  have after := at?_withProduction gathered.seated at_s
  have registered : ∀ {id x}, g.symbols.at? id = some x →
      ∃ y, (g.withProduction p s).symbols.at? id = some y ∧ y.name = x.name := by
    intro id x at_x
    rw [after]
    split
    · rename_i own
      rw [own, at_s] at at_x
      cases at_x
      exact ⟨_, rfl, rfl⟩
    · exact ⟨x, at_x, rfl⟩
  have found : ∀ n, (g.withProduction p s).byNumber.get? n =
      if p.number = n then some p else g.byNumber.get? n := fun n => OrderedMap.get?_insert
  refine ⟨gathered.seated.update (s := s) (place.symm ▸ at_s) rfl, ?_, ?_, ?_, ?_⟩
  · obtain ⟨e, at_e, named⟩ := gathered.endMarker
    obtain ⟨y, at_y, same⟩ := registered at_e
    exact ⟨y, at_y, same.trans named⟩
  · intro n q hq
    rw [found] at hq
    split at hq
    · rename_i own
      cases hq
      exact own
    · exact gathered.number_eq hq
  · intro n q hq
    rw [found] at hq
    have before : ∃ x, g.symbols.at? q.left = some x := by
      split at hq
      · cases hq
        exact ⟨s, at_s⟩
      · exact gathered.left hq
    obtain ⟨x, at_x⟩ := before
    obtain ⟨y, at_y, -⟩ := registered at_x
    exact ⟨y, at_y⟩
  · -- A number that was filed before is another one than the new number.
    have old : ∀ {id x n}, g.symbols.at? id = some x → n ∈ x.productions →
        ∃ q, (g.withProduction p s).byNumber.get? n = some q ∧ q.left = id := by
      intro id x n at_x mem
      obtain ⟨q, hq, left⟩ := gathered.filed at_x mem
      have other : p.number ≠ n := by
        rintro rfl
        rw [absent] at hq
        cases hq
      exact ⟨q, by rw [found, if_neg other, hq], left⟩
    intro id y n at_y mem
    rw [after] at at_y
    split at at_y
    · rename_i own
      cases at_y
      rcases List.mem_append.1 mem with mem | mem
      · rw [own]
        exact old at_s mem
      · rw [List.mem_singleton.1 mem, found, if_pos rfl]
        exact ⟨p, rfl, own.symm⟩
    · exact old at_y mem

theorem Gathered.restoreProduction (gathered : g.Gathered) {q : Production}
    (restored : restoreProduction p g = .ok q g') : g'.Gathered ∧ g'.closed = g.closed := by
  obtain ⟨⟨⟩, g₁, registered, restored⟩ := bind_eq_ok.1 restored
  obtain ⟨s, absent, at_s, rfl⟩ := register_eq_ok registered
  cases restored
  have filed := gathered.withProduction absent at_s
  exact ⟨⟨filed.seated, filed.endMarker, filed.number_eq, filed.left, filed.filed⟩, rfl⟩

/-! ## The checks of closing -/

theorem exists_of_checkKnown (known : g.checkKnown p = .ok ()) :
    ∀ id ∈ p.right, ∃ s, g.symbols.at? id = some s := by
  intro id mem
  obtain ⟨s, found, -⟩ := Attempt.bind_eq_ok.1 (Attempt.forM_eq_ok.1 known id mem)
  exact ⟨s, SymbolTable.at?_of_symbol found⟩

theorem Gathered.vetted (gathered : g.Gathered) (chosen : g.start = some name)
    (known : g.byNumber.values.forM g.checkKnown = .ok ())
    (symbols : g.symbols.symbols.forM checkSymbol = .ok ())
    (start : g.startSymbol name = .ok s) : g.Vetted name ∧ g.symbols.at? s.id = some s := by
  have passed : ∀ {id x}, g.symbols.at? id = some x → checkSymbol x = .ok () :=
    fun at_x => Attempt.forM_eq_ok.1 symbols _ (SymbolTable.mem_symbols.2 ⟨_, at_x⟩)
  have first : g.symbols.at? s.id = some s ∧ s.name = name ∧ s.kind = .nonterminal := by
    rw [startSymbol] at start
    split at start
    · rename_i x found
      split at start
      · cases start
        obtain ⟨at_x, named⟩ := gathered.seated.get?_eq_some.1 found
        exact ⟨at_x, named, by assumption⟩
      · cases start
    · cases start
  refine ⟨⟨gathered, ?_, fun at_x => (checkSymbol_eq_ok (passed at_x)).1,
    fun at_x => (checkSymbol_eq_ok (passed at_x)).2, ⟨s, first⟩, chosen⟩, first.1⟩
  intro n q hq
  exact exists_of_checkKnown (Attempt.forM_eq_ok.1 known q (OrderedMap.mem_values.2 ⟨n, hq⟩))

/-- Symbols keep their names and kinds, and stay with productions; one that is new is the start marker. -/
structure Carries (g g' : Grammar) : Prop where
  old : ∀ {id x}, g.symbols.at? id = some x → ∃ y, g'.symbols.at? id = some y ∧ y.name = x.name ∧
    y.kind = x.kind ∧ (x.productions ≠ [] → y.productions ≠ [])
  new : ∀ {id y}, g'.symbols.at? id = some y → g.symbols.at? id = none →
    y.name = startMarkerName ∧ y.kind = .nonterminal

theorem Vetted.carried (vetted : g.Vetted name) (gathered : g'.Gathered) (carries : g.Carries g')
    (right : ∀ {n p}, g'.byNumber.get? n = some p → ∀ id ∈ p.right, ∃ s, g.symbols.at? id = some s)
    (start : g'.start = g.start) : g'.Vetted name where
  toGathered := gathered
  right := by
    intro n q hq id mem
    obtain ⟨x, at_x⟩ := right hq id mem
    obtain ⟨y, at_y, -⟩ := carries.old at_x
    exact ⟨y, at_y⟩
  known := by
    intro id y at_y
    cases before : g.symbols.at? id with
    | none =>
      rw [(carries.new at_y before).2]
      decide
    | some x =>
      obtain ⟨z, at_z, -, kind, -⟩ := carries.old before
      rw [at_y] at at_z
      cases at_z
      rw [kind]
      exact vetted.known before
  produced := by
    intro id y at_y nonterminal plain
    cases before : g.symbols.at? id with
    | none => exact absurd (carries.new at_y before).1 plain
    | some x =>
      obtain ⟨z, at_z, named, kind, filed⟩ := carries.old before
      rw [at_y] at at_z
      cases at_z
      exact filed (vetted.produced before (kind ▸ nonterminal) (named ▸ plain))
  start := by
    obtain ⟨x, at_x, named, kind⟩ := vetted.start
    obtain ⟨y, at_y, same, kind', -⟩ := carries.old at_x
    exact ⟨y, (gathered.seated.id_eq at_y).symm ▸ at_y, same.trans named, kind'.trans kind⟩
  chosen := start.trans vetted.chosen

theorem Labelled.carried (labelled : g.Labelled) (seated : g.symbols.Seated) (seated' : g'.symbols.Seated)
    (carries : g.Carries g') (labels : g'.labels = g.labels)
    (precedences : ∀ {id x y}, g.symbols.at? id = some x → g'.symbols.at? id = some y →
      y.precedence = x.precedence) : g'.Labelled := by
  intro label mem
  rw [labels] at mem
  rw [bears_iff seated']
  intro y at_y named terminal
  cases before : g.symbols.at? y.id with
  | none =>
    rw [(carries.new at_y before).2] at terminal
    cases terminal
  | some x =>
    obtain ⟨z, at_z, same, kind, -⟩ := carries.old before
    rw [at_y] at at_z
    cases at_z
    have place : x.id = y.id := seated.id_eq before
    rw [precedences before at_y]
    exact (bears_iff seated).1 (labelled label mem) x (place.symm ▸ before) (same.symm.trans named)
      (kind.symm.trans terminal)

/-- A symbol that takes its seat has the kind of the one that was there, or it is the start marker. -/
theorem carries_of_seats (seats : g.symbols.Seats s u)
    (kind : ∀ {x}, g.symbols.at? s.id = some x → s.kind = x.kind)
    (new : g.symbols.at? s.id = none → s.name = startMarkerName ∧ s.kind = .nonterminal) :
    g.Carries { g with symbols := u } where
  old := by
    intro id x at_x
    show ∃ y, u.at? id = some y ∧ _
    rw [seats.entry]
    split
    · rename_i own
      rw [own] at at_x
      obtain ⟨named, filed⟩ := seats.old at_x
      exact ⟨s, rfl, named.symm, kind at_x, fun some => filed ▸ some⟩
    · exact ⟨x, at_x, rfl, rfl, fun some => some⟩
  new := by
    intro id y at_y vacant
    have at_y : u.at? id = some y := at_y
    rw [seats.entry] at at_y
    split at at_y
    · rename_i own
      cases at_y
      exact new (own ▸ vacant)
    · rw [vacant] at at_y
      cases at_y

theorem Gathered.carries_withProduction (gathered : g.Gathered) (at_s : g.symbols.at? p.left = some s) :
    g.Carries (g.withProduction p s) where
  old := by
    intro id x at_x
    rw [at?_withProduction gathered.seated at_s]
    split
    · rename_i own
      rw [own, at_s] at at_x
      cases at_x
      exact ⟨_, rfl, rfl, rfl, fun _ => List.append_ne_nil_of_right_ne_nil _ (List.cons_ne_nil _ _)⟩
    · exact ⟨x, at_x, rfl, rfl, fun some => some⟩
  new := by
    intro id y at_y vacant
    rw [at?_withProduction gathered.seated at_s] at at_y
    split at at_y
    · rename_i own
      rw [own, at_s] at vacant
      cases vacant
    · rw [vacant] at at_y
      cases at_y

theorem Vetted.update {s' : Symbol} (vetted : g.Vetted name) (at_s : g.symbols.at? s'.id = some s)
    (named : s'.name = s.name) (filed : s'.productions = s.productions) (kind : s'.kind = s.kind) :
    Vetted { g with symbols := g.symbols.update s' } name := by
  have seats := vetted.seated.seats_update at_s named filed
  refine vetted.carried (vetted.toGathered.seat seats) (carries_of_seats seats ?_ ?_) vetted.right rfl
  · intro x at_x
    rw [at_s] at at_x
    cases at_x
    exact kind
  · intro vacant
    rw [at_s] at vacant
    cases vacant

/-! ## The start marker -/

/-- A grammar whose terminals have their precedences, with the symbol that it is closed over. -/
structure Markable (g : Grammar) (name : String) (first : Int) : Prop extends Vetted g name where
  labelled : g.Labelled
  first_at : ∃ s, g.symbols.at? first = some s

variable {first : Int}

/-- The start marker is registered, or it was already, as whatever it was. -/
theorem Markable.marker (ready : g.Markable name first) {m : Symbol}
    (resolved : resolve startMarkerName .nonterminal g = .ok m g') :
    g'.Markable name first ∧ g'.symbols.at? m.id = some m ∧ g'.byNumber = g.byNumber ∧ g'.closed = g.closed := by
  obtain ⟨u, found, rfl⟩ := onSymbols_eq_ok.1 resolved
  rw [SymbolTable.resolve] at found
  cases there : g.symbols.find? startMarkerName with
  | some x =>
    obtain ⟨at_x, -⟩ := ready.seated.find?_eq_some.1 there
    rw [there] at found
    have settled : ¬ (x.kind = .unknown ∧ SymbolKind.nonterminal ≠ .unknown) :=
      fun h => ready.known at_x h.1
    simp only [ready.seated.current?_eq at_x, if_neg settled] at found
    cases found
    exact ⟨ready, at_x, rfl, rfl⟩
  | none =>
    rw [there] at found
    simp only at found
    split at found
    · cases found
    · cases found
      have vacant := g.symbols.at?_size
      have seats := ready.seated.seats_install there (s := g.markerOf) rfl vacant rfl
      have carries : g.Carries g.withMarker := carries_of_seats seats
        (fun at_x => by
          rw [markerOf, vacant] at at_x
          cases at_x)
        fun _ => ⟨rfl, rfl⟩
      have vetted : g.withMarker.Vetted name :=
        ready.toVetted.carried (ready.toGathered.seat seats) carries ready.right rfl
      refine ⟨⟨vetted, ready.labelled.carried ready.seated vetted.seated carries rfl ?_, ?_⟩, ?_, rfl, rfl⟩
      · intro id x y at_x at_y
        have at_y : g.withMarker.symbols.at? id = some y := at_y
        rw [at?_withMarker] at at_y
        split at at_y
        · rename_i own
          rw [own, vacant] at at_x
          cases at_x
        · rw [at_x] at at_y
          cases at_y
          rfl
      · obtain ⟨x, at_x⟩ := ready.first_at
        obtain ⟨y, at_y, -⟩ := carries.old at_x
        exact ⟨y, at_y⟩
      · show g.withMarker.symbols.at? (g.symbols.slots.size : Int) = some g.markerOf
        rw [at?_withMarker, if_pos rfl]

/-- Closing adds production 0 unless it is there. -/
theorem Markable.markStart (ready : g.Markable name s.id) (marked : markStart s g = .ok () g') :
    g'.Vetted name ∧ g'.Labelled ∧ ∃ p, g'.byNumber.get? 0 = some p := by
  rw [Grammar.markStart] at marked
  obtain ⟨_, _, got, marked⟩ := bind_eq_ok.1 marked
  cases got
  cases there : g.byNumber.get? 0 with
  | some p =>
    rw [if_neg (by simp [OrderedMap.contains, there])] at marked
    cases marked
    exact ⟨ready.toVetted, ready.labelled, p, there⟩
  | none =>
    rw [if_pos (by simp [OrderedMap.contains, there])] at marked
    obtain ⟨m, g₁, resolved, marked⟩ := bind_eq_ok.1 marked
    obtain ⟨marked₁, at_m, filed, -⟩ := ready.marker resolved
    obtain ⟨x, absent, at_x, rfl⟩ := register_eq_ok marked
    have carries := marked₁.toGathered.carries_withProduction at_x
    have gathered := marked₁.toGathered.withProduction absent at_x
    refine ⟨marked₁.toVetted.carried gathered carries ?_ rfl,
      marked₁.labelled.carried marked₁.seated gathered.seated carries rfl ?_, ⟨0, m.id, [s.id], none, none⟩, ?_⟩
    · intro n q hq id mem
      rw [Grammar.withProduction, OrderedMap.get?_insert] at hq
      split at hq
      · cases hq
        rw [List.mem_singleton.1 mem]
        exact marked₁.first_at
      · exact marked₁.right hq id mem
    · intro id y z at_y at_z
      rw [at?_withProduction marked₁.seated at_x] at at_z
      split at at_z
      · rename_i own
        rw [own, at_x] at at_y
        cases at_y
        cases at_z
        rfl
      · rw [at_y] at at_z
        cases at_z
        rfl
    · rw [Grammar.withProduction, OrderedMap.get?_insert, if_pos rfl]

/-! ## Closing -/

theorem Gathered.closeOver (gathered : g.Gathered) (chosen : g.start = some name)
    (closed : closeOver name g = .ok () g') : g'.Storable name := by
  rw [Grammar.closeOver] at closed
  obtain ⟨⟨⟩, known, closed⟩ := query_bind_eq_ok.1 closed
  obtain ⟨⟨⟩, symbols, closed⟩ := query_bind_eq_ok.1 closed
  obtain ⟨s, start, closed⟩ := query_bind_eq_ok.1 closed
  obtain ⟨vetted, at_s⟩ := gathered.vetted chosen known symbols start
  obtain ⟨_, _, got, closed⟩ := bind_eq_ok.1 closed
  cases got
  obtain ⟨_, g₁, applied, closed⟩ := bind_eq_ok.1 closed
  have kept := ends_applyLabels_keeping
    (fun h => h.Vetted name ∧ ∃ x, h.symbols.at? s.id = some x)
    (fun h => h.1.seated) (fun {h x x'} kept at_x named filed kind =>
      ⟨kept.1.update at_x named filed kind, by
        obtain ⟨y, at_y⟩ := kept.2
        show ∃ z, (h.symbols.update x').at? s.id = some z
        rw [kept.1.seated.at?_update at_x named]
        split
        · exact ⟨x', rfl⟩
        · exact ⟨y, at_y⟩⟩)
    g.labels.nodup ⟨vetted, s, at_s⟩
  obtain ⟨⟨vetted₁, start_at⟩, labels, bears, -⟩ := kept.of_ok applied
  have ready : g₁.Markable name s.id := ⟨vetted₁, by rwa [Labelled, labels], start_at⟩
  obtain ⟨_, g₂, marked, closed⟩ := bind_eq_ok.1 closed
  obtain ⟨vetted₂, labelled, zero⟩ := ready.markStart marked
  obtain ⟨ps, listed, closed⟩ := query_bind_eq_ok.1 closed
  cases closed
  exact {
    seated := ⟨vetted₂.seated.id_eq, vetted₂.seated.name_inj⟩
    endMarker := vetted₂.endMarker
    number_eq := vetted₂.number_eq
    left := vetted₂.left
    filed := vetted₂.filed
    right := vetted₂.right
    known := vetted₂.known
    produced := vetted₂.produced
    start := vetted₂.start
    chosen := vetted₂.chosen
    labelled := labelled
    zero := zero
    listed := listed }

theorem Gathered.close (gathered : g.Gathered) (unclosed : g.closed = false)
    (closed : close (some name) g = .ok () g') : g'.Storable name := by
  rw [Grammar.close] at closed
  obtain ⟨_, _, got, closed⟩ := bind_eq_ok.1 closed
  cases got
  rw [if_neg (by simp [unclosed])] at closed
  obtain ⟨_, _, modified, closed⟩ := bind_eq_ok.1 closed
  cases modified
  obtain ⟨_, _, got, closed⟩ := bind_eq_ok.1 closed
  cases got
  have gathered' : Gathered { g with start := some name } :=
    ⟨gathered.seated, gathered.endMarker, gathered.number_eq, gathered.left, gathered.filed⟩
  exact gathered'.closeOver rfl closed

end Grammar

namespace Storage

open Build Grammar
open Json (Value)

variable {g g' : Grammar} {t : Tables} {stream : List Value}

theorem parsePrecedence_eq_ok {p : String × Int} {q : Precedence} (parsed : parsePrecedence p g = .ok q g') :
    g = g' := by
  rw [parsePrecedence] at parsed
  cases found : Associativity.ofName? p.1 with
  | some a =>
    rw [found] at parsed
    cases parsed
    rfl
  | none =>
    rw [found] at parsed
    cases parsed

theorem gathered_restoreSymbol (gathered : g.Gathered) {r : SymbolRecord} (natural : 0 ≤ r.id)
    (restored : restoreSymbol r g = .ok () g') : g'.Gathered ∧ g'.closed = g.closed := by
  rw [restoreSymbol] at restored
  cases found : SymbolKind.ofTag? r.tag with
  | none =>
    rw [found] at restored
    cases restored
  | some kind =>
    rw [found] at restored
    obtain ⟨s, g₁, registered, restored⟩ := bind_eq_ok.1 restored
    obtain ⟨u, installed, rfl⟩ := onSymbols_eq_ok.1 registered
    have seats := gathered.seated.seats_restore natural installed
    cases declared : r.precedence with
    | none =>
      simp only [declared] at restored
      cases restored
      exact ⟨gathered.seat (seats.update rfl rfl rfl), rfl⟩
    | some p =>
      simp only [declared] at restored
      obtain ⟨q, g₂, parsed, restored⟩ := bind_eq_ok.1 restored
      obtain rfl := parsePrecedence_eq_ok parsed
      cases restored
      exact ⟨gathered.seat (seats.update rfl rfl rfl), rfl⟩

theorem gathered_restoreLabel (gathered : g.Gathered) {l : String × String × Int}
    (restored : restoreLabel l g = .ok () g') : g'.Gathered ∧ g'.closed = g.closed := by
  rw [restoreLabel] at restored
  obtain ⟨q, g₁, parsed, restored⟩ := bind_eq_ok.1 restored
  obtain rfl := parsePrecedence_eq_ok parsed
  cases restored
  exact ⟨⟨gathered.seated, gathered.endMarker, gathered.number_eq, gathered.left, gathered.filed⟩, rfl⟩

/-- The grammar that completes tables can be stored, and the tables with it. -/
theorem storable_of_complete (gathered : g.Gathered) (unclosed : g.closed = false) {start : String}
    {t₀ : Tables} (completed : complete start t₀ g = .ok t g') :
    g'.Storable start ∧ Completed g' t ∧ t.action = t₀.action := by
  obtain ⟨_, g₁, closed, completed⟩ := bind_eq_ok.1 completed
  obtain ⟨_, _, got, completed⟩ := bind_eq_ok.1 completed
  cases got
  obtain ⟨ns, lengths, completed⟩ := query_bind_eq_ok.1 completed
  cases completed
  exact ⟨gathered.close unclosed closed, ⟨rfl, ns, lengths, rfl⟩, rfl⟩

/-- What is decoded from a stream whose symbols have natural identifiers can be stored again. -/
theorem storable_of_decode (natural : ∀ s ∈ symbolsOf stream, 0 ≤ s.id) (decoded : decode stream = .ok (g, t)) :
    ∃ name, g.Storable name ∧ Readable t ∧ Completed g t := by
  have runs : Runs readTables ⟨0, stream, .fresh⟩
      (fun t r => ∃ name, r.grammar.Storable name ∧ Readable t ∧ Completed r.grammar t) fun _ => True :=
    runs_readTables (fun g => g.Gathered ∧ g.closed = false) (fun _ => trivial)
      (fun t g => ∃ name, g.Storable name ∧ Readable t ∧ Completed g t) ⟨open_fresh.gathered, rfl⟩ natural
      (fun s g natural h => runs_of_ok fun _ g' restored =>
        (gathered_restoreSymbol h.1 natural restored).imp_right fun same => same.trans h.2)
      (fun l g h => runs_of_ok fun _ g' restored =>
        (gathered_restoreLabel h.1 restored).imp_right fun same => same.trans h.2)
      (fun p g h => runs_of_ok fun _ g' restored =>
        (h.1.restoreProduction restored).imp_right fun same => same.trans h.2)
      (fun start t₀ g readable h => runs_of_ok fun t g' completed => by
        obtain ⟨storable, fits, same⟩ := storable_of_complete h.1 h.2 completed
        exact ⟨start, storable, by rwa [Readable, same], fits⟩)
  rw [decode] at decoded
  split at decoded
  · rename_i t' r ended
    cases decoded
    exact runs.of_ok ended
  · cases decoded

/-- A grammar and its tables that were decoded, from whatever stream, have one that is decoded again: to the
same tables and to a grammar with that very stream. -/
theorem encode_canonical (natural : ∀ s ∈ symbolsOf stream, 0 ≤ s.id) (decoded : decode stream = .ok (g, t)) :
    ∃ g', decode (encode g t) = .ok (g', t) ∧ encode g' t = encode g t := by
  obtain ⟨name, storable, readable, completed⟩ := storable_of_decode natural decoded
  obtain ⟨g', again, remade⟩ := exists_decode_remade storable readable completed
  exact ⟨g', again, remade.encode_eq storable.toGathered⟩

/-- The symbol `x` is stored twice, slots are skipped, and production 0 is left out. -/
theorem encode_canonical_gaps :
    ∃ (stream : List Value) (g : Grammar) (t : Tables), decode stream = .ok (g, t) ∧
      (∀ s ∈ symbolsOf stream, 0 ≤ s.id) ∧ encode g t ≠ stream ∧
      ∃ g', decode (encode g t) = .ok (g', t) ∧ encode g' t = encode g t := by
  let stream : List Value := [.string "1.0", .string "lalr", .string "S", .int 3,
    .string "x", .int 9, .int 1, .string "", .null, .int 0,
    .string "S", .int 5, .int 2, .string "", .null, .int 0,
    .string "x", .int 9, .int 1, .string "", .null, .int 7, .string "left", .int 4,
    .int 1, .string "x", .string "right", .int 1,
    .int 1, .int 1, .int 5, .int 1, .int 9, .null, .null,
    .int 0, .int 1, .int 2, .int 0, .int 9, .string "shift", .int 1, .int 0, .int 9, .string "odd", .int 3,
    .int 0, .int 0, .int 0, .int 0]
  have natural : ∀ s ∈ symbolsOf stream, 0 ≤ s.id := by decide +kernel
  have other : ((decode stream).toOption.map fun p => (encode p.1 p.2).length == stream.length) =
      some false := by decide +kernel
  cases decoded : decode stream with
  | error e =>
    rw [decoded] at other
    cases other
  | ok parts =>
    rw [decoded] at other
    refine ⟨stream, parts.1, parts.2, decoded, natural, fun eq => ?_, encode_canonical natural decoded⟩
    have unequal : ((encode parts.1 parts.2).length == stream.length) = false := Option.some.inj other
    rw [eq, beq_self_eq_true] at unequal
    cases unequal

end Storage

end ParserGenerator
