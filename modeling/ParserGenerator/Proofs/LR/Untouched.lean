import ParserGenerator.Proofs.LR.Tables

/-!
# What analysis and construction change

Whatever is found out about a grammar, also one that was not made by declarations, is kept beside its symbols
and productions, and every member of a FIRST, FOLLOW or lookahead set can be read.
-/

namespace ParserGenerator.Grammar

open Build

variable {α β : Type} {x : Build α} {h : α → Build β} {g g' g'' : Grammar} {f f' : Facts} {s : TerminalSet}
  {a id t : Int} {γ : List Int}

/-! ## Members of FIRST and FOLLOW -/

/-- Every member of a FIRST or FOLLOW set can be read. -/
structure InputsOnly (g : Grammar) (f : Facts) : Prop where
  first : ∀ {a t}, t ∈ f.firstOf a → g.isInput t = true
  follow : ∀ {a t}, t ∈ f.followOf a → g.isInput t = true

namespace InputsOnly

theorem mono (only : g.InputsOnly f) (inputs : ∀ {t}, g.isInput t = true → g'.isInput t = true) :
    g'.InputsOnly f :=
  ⟨fun mem => inputs (only.first mem), fun mem => inputs (only.follow mem)⟩

theorem having (only : g.InputsOnly f') (f : Facts) : (g.having f).InputsOnly f' := ⟨only.first, only.follow⟩

theorem addFirst (only : g.InputsOnly f) (new : ∀ t ∈ s, g.isInput t = true) :
    g.InputsOnly (f.addFirst id s) where
  first mem := (mem_addFirst.1 mem).elim only.first fun own => new _ own.2
  follow := only.follow

theorem addFollow (only : g.InputsOnly f) (new : ∀ t ∈ s, g.isInput t = true) :
    g.InputsOnly (f.addFollow id s) where
  first := only.first
  follow mem := (mem_addFollow.1 mem).elim only.follow fun own => new _ own.2

theorem firstOfSequence (only : g.InputsOnly f) (γ : List Int) :
    ∀ t ∈ (f.firstOfSequence γ).1, g.isInput t = true := by
  induction γ with
  | nil => exact fun t mem => absurd mem (OrderedSet.not_mem_empty t)
  | cons id γ ih =>
    intro t mem
    rw [Facts.firstOfSequence] at mem
    split at mem
    · exact (OrderedSet.mem_union.1 mem).elim only.first (ih t)
    · exact only.first mem

theorem foldl_seedFirst (only : g.InputsOnly f) (seated : g.symbols.Seated) :
    g.InputsOnly (g.symbols.symbols.foldl seedFirst f) := by
  refine List.foldlRecOn (motive := g.InputsOnly) _ seedFirst only fun f only s mem => ?_
  rw [seedFirst]
  split
  · rename_i input
    obtain ⟨id, at_s⟩ := SymbolTable.mem_symbols.1 mem
    refine only.addFirst fun t own => ?_
    rw [List.mem_singleton.1 (OrderedSet.mem_ofList.1 own), seated.id_eq at_s]
    exact isInput_iff.2 ⟨s, at_s, input⟩
  · exact only

theorem firstPass (only : g.InputsOnly f) (ps : List Production) : g.InputsOnly (firstPass ps f).1 :=
  List.foldlRecOn (motive := g.InputsOnly) ps widenFirst only fun _ only p _ =>
    only.addFirst (only.firstOfSequence p.right)

theorem occur (only : g.InputsOnly f) (isNonterminal : Int → Bool) (left id : Int) (ids : List Int) :
    g.InputsOnly (occur isNonterminal left f id ids) where
  first mem := by
    rw [Facts.firstOf, (frame_occur isNonterminal left f id ids).2] at mem
    exact only.first mem
  follow mem := by
    rcases mem_occur.1 mem with old | ⟨-, -, first | ⟨-, old⟩⟩
    · exact only.follow old
    · exact only.firstOfSequence ids _ first
    · exact only.follow old

theorem widenFollow (only : g.InputsOnly f) (isNonterminal : Int → Bool) (left : Int) (ids : List Int) :
    g.InputsOnly (widenFollow isNonterminal left f ids) := by
  induction ids generalizing f with
  | nil => exact only
  | cons id ids ih => exact ih (only.occur isNonterminal left id ids)

theorem followPass (only : g.InputsOnly f) (ps : List Production) : g.InputsOnly (g.followPass ps f).1 :=
  List.foldlRecOn (motive := g.InputsOnly) ps _ only fun _ only p _ =>
    only.widenFollow g.isNonterminal p.left p.right

end InputsOnly

/-! ## Calls that find out facts -/

/-- The second grammar is the first with other facts. If the members of FIRST and FOLLOW could be read, they
still can. -/
def Informed (g g' : Grammar) : Prop :=
  ∃ f, g' = g.having f ∧
    (g.symbols.Seated → g.isInput endMarkerId = true → g.InputsOnly g.facts → g.InputsOnly f)

theorem Informed.refl (g : Grammar) : g.Informed g := ⟨g.facts, rfl, fun _ _ only => only⟩

theorem Informed.trans (first : g.Informed g') (second : g'.Informed g'') : g.Informed g'' := by
  obtain ⟨f, rfl, kept⟩ := first
  obtain ⟨f', rfl, kept'⟩ := second
  refine ⟨f', rfl, fun seated ending only => ?_⟩
  have after := kept' seated ending ((kept seated ending only).having f)
  exact ⟨after.first, after.follow⟩

/-- The call leaves an informed grammar, whether it fails or not. -/
def Informs (x : Build α) (g : Grammar) : Prop := Ends x g (fun _ => g.Informed) g.Informed

theorem informs_pure (a : α) (g : Grammar) : Informs (pure a) g := Informed.refl g

theorem informs_throw (e : Error) (g : Grammar) : Informs (throw e : Build α) g := Informed.refl g

theorem informs_get_bind {h : Grammar → Build β} (rest : Informs (h g) g) : Informs (get >>= h) g := rest

theorem informs_query (look : Grammar → Except Error α) (g : Grammar) : Informs (query look) g := by
  rw [Informs, Ends, query]
  cases look g <;> exact Informed.refl g

theorem informs_facts {change : Grammar → Facts} (kept : g.symbols.Seated → g.isInput endMarkerId = true →
    g.InputsOnly g.facts → g.InputsOnly (change g)) :
    Informs (modify fun g => { g with facts := change g }) g :=
  ends_modify ⟨change g, rfl, kept⟩

theorem informs_bind (first : Informs x g) (second : ∀ a g', g.Informed g' → Informs (h a) g') :
    Informs (x >>= h) g :=
  ends_bind first fun a g' informed =>
    (second a g' informed).mono (fun _ _ => informed.trans) fun _ => informed.trans

/-- A call behind a check that may throw. -/
theorem informs_guarded {check : Grammar → Bool} (e : Error) (rest : Informs x g) :
    Informs (do
      if check (← get) then throw e
      x) g := by
  refine informs_get_bind ?_
  dsimp only
  split
  · exact ends_throw_bind (Informed.refl g)
  · exact rest

theorem informs_forM {h : α → Build Unit} (each : ∀ a g, Informs (h a) g) (as : List α) (g : Grammar) :
    Informs (as.forM h) g := by
  induction as generalizing g with
  | nil => exact informs_pure () g
  | cons a as ih => exact informs_bind (each a g) fun _ g' _ => ih g'

theorem informs_foldlM {h : β → α → Build β} (each : ∀ b a g, Informs (h b a) g) (as : List α) (b : β)
    (g : Grammar) : Informs (as.foldlM h b) g := by
  induction as generalizing b g with
  | nil => exact informs_pure b g
  | cons a as ih =>
    rw [List.foldlM_cons]
    exact informs_bind (each b a g) fun b g' _ => ih b g'

/-! ## Symbols that vanish -/

theorem informs_settle (id : Int) (b : Bool) (g : Grammar) : Informs (settle id b) g :=
  informs_facts fun _ _ only => ⟨only.first, only.follow⟩

theorem informs_markVanishing (found : List Int) (id : Int) (g : Grammar) :
    Informs (markVanishing found id) g := by
  refine informs_bind (informs_query _ g) fun _ g' _ => informs_get_bind ?_
  split
  · exact informs_pure found g'
  · exact informs_bind (informs_settle id true g') fun _ g'' _ => informs_pure _ g''

theorem informs_settleByKind (found : List Int) (s : Symbol) (g : Grammar) :
    Informs (settleByKind found s) g := by
  refine informs_bind (informs_query _ g) fun kind g' _ => informs_get_bind ?_
  dsimp only
  split
  · exact informs_pure _ g'
  · split
    · exact informs_bind (informs_settle s.id false g') fun _ g'' _ => informs_pure found g''
    · split
      · exact informs_markVanishing found s.id g'
      · exact informs_pure found g'

theorem informs_await (state : List Int × List Waiting) (p : Production) (g : Grammar) :
    Informs (await state p) g := by
  have each : ∀ id g, Informs (do let _ ← query (·.derivationKind id) : Build Unit) g :=
    fun id g => informs_bind (informs_query _ g) fun _ g' _ => informs_pure () g'
  refine informs_bind (informs_forM each p.right g) fun _ g' _ => informs_get_bind ?_
  dsimp only
  split
  · exact informs_bind (informs_markVanishing state.1 p.left g') fun _ g'' _ => informs_pure _ g''
  · exact informs_pure _ g'

theorem informs_spread (found : List Int) (waiting : List Waiting) (g : Grammar) :
    Informs (spread found waiting) g := by
  induction found, waiting using spread.induct generalizing g with
  | case1 found waiting next quiet =>
    rw [spread, if_pos quiet]
    exact informs_pure () g
  | case2 found waiting next some ih =>
    rw [spread, if_neg some]
    exact informs_bind (informs_foldlM (fun found (w : Waiting) => informs_markVanishing found w.left) _ _ g)
      fun more g' _ => ih more g'

theorem informs_settleNullable (g : Grammar) : Informs settleNullable g := by
  have each : ∀ (s : Symbol) g, Informs (do
      if !(← get).facts.isSettled s.id then settle s.id false : Build Unit) g := by
    intro s g
    refine informs_get_bind ?_
    split
    · exact informs_settle s.id false g
    · exact informs_pure () g
  exact informs_get_bind (informs_bind (informs_foldlM informs_settleByKind _ [] g) fun found g' _ =>
    informs_get_bind (informs_bind (informs_foldlM informs_await _ (found, []) g') fun state g'' _ =>
      informs_bind (informs_spread state.1 state.2 g'') fun _ g₃ _ => informs_forM each _ g₃))

theorem informs_isNullable (id : Int) (g : Grammar) : Informs (isNullable id) g := by
  have answer : ∀ g, Informs (do return (← get).facts.isNullable id : Build Bool) g :=
    fun g => informs_get_bind (informs_pure _ g)
  refine informs_bind (informs_query _ g) fun _ g' _ => informs_get_bind ?_
  dsimp only
  split
  · exact informs_bind (informs_query _ g') fun _ g'' _ =>
      informs_bind (informs_settleNullable g'') fun _ g₃ _ => answer g₃
  · exact answer g'

/-! ## FIRST and FOLLOW -/

theorem informs_computeFirst (g : Grammar) : Informs computeFirst g := by
  refine informs_get_bind ?_
  dsimp only
  split
  · refine informs_bind (informs_facts fun seated _ only => ?_) fun _ g' _ => informs_throw _ g'
    exact (only.foldl_seedFirst seated).firstPass _
  · exact informs_facts fun seated _ only =>
      iterate_keeps (fun f only => only.firstPass g.sortedProductions) (only.foldl_seedFirst seated)

theorem informs_seedFollow (id : Int) (g : Grammar) : Informs (seedFollow id) g := by
  refine informs_bind (informs_query _ g) fun _ g' _ => informs_facts fun _ ending only => ?_
  refine only.addFollow fun t mem => ?_
  rwa [List.mem_singleton.1 (OrderedSet.mem_ofList.1 mem)]

theorem informs_computeFollow (g : Grammar) : Informs computeFollow g := by
  refine informs_bind (informs_query _ g) fun marker g₁ _ =>
    informs_bind (informs_seedFollow marker g₁) fun _ g₂ _ =>
    informs_bind (informs_query _ g₂) fun start g₃ _ =>
    informs_bind (informs_seedFollow start g₃) fun _ g _ => informs_get_bind ?_
  refine informs_bind (informs_facts fun _ _ only => ?_) fun _ g' _ => informs_pure _ g'
  exact iterate_keeps (I := fun state : Facts × List (List (Int × Nat)) => g.InputsOnly state.1)
    (fun state only => only.followPass g.sortedProductions) only

theorem informs_analyze (g : Grammar) : Informs analyze g :=
  informs_guarded _ (informs_bind (informs_settleNullable g) fun _ g' _ =>
    informs_bind (informs_computeFirst g') fun _ g'' _ => informs_computeFollow g'')

theorem informs_firstOfSequence (ids : List Int) (g : Grammar) : Informs (firstOfSequence ids) g := by
  induction ids generalizing g with
  | nil => exact informs_pure _ g
  | cons id ids ih =>
    refine informs_bind (informs_query _ g) fun _ g' _ => informs_get_bind ?_
    refine informs_bind (informs_isNullable id g') fun nullable g'' _ => ?_
    cases nullable with
    | true => exact informs_bind (ih g'') fun rest g₃ _ => informs_pure _ g₃
    | false => exact informs_pure _ g''

/-! ## Tables -/

theorem informs_computeLookaheads (states : Array State) (g : Grammar) :
    Informs (computeLookaheads states) g := by
  refine informs_get_bind ?_
  split
  · exact informs_pure _ g
  · exact informs_throw _ g
  · exact informs_bind (informs_isNullable _ g) fun _ g' _ => informs_query _ g'

theorem informs_buildTables (method : String) (g : Grammar) : Informs (buildTables method) g := by
  rw [buildTables]
  split
  · exact informs_throw _ g
  · rename_i m _
    refine informs_guarded _ (informs_bind (informs_analyze g) fun _ g₁ _ =>
      informs_bind (informs_query _ g₁) fun states g₂ _ => ?_)
    cases m with
    | slr => exact informs_query _ g₂
    | lalr => exact informs_bind (informs_computeLookaheads states g₂) fun _ g₃ _ => informs_query _ g₃

/-- The symbols are the same behind the call, if it ends well. -/
def KeepsSymbols (x : Build α) : Prop := ∀ g a g', x g = .ok a g' → g'.symbols = g.symbols

/-- Building tables leaves the symbols of any grammar as they are. -/
theorem keepsSymbols_buildTables (method : String) : KeepsSymbols (buildTables method) := by
  intro g t g' built
  obtain ⟨f, rfl, -⟩ := (informs_buildTables method g).of_ok built
  rfl

/-! ## Lookahead sets -/

section Lookaheads

variable {states : Array State} {la : Lookaheads} {q : Nat} {k : Int} (ending : g.isInput endMarkerId = true)
include ending

theorem isInput_of_mem_directReads {tr : Transition} (mem : t ∈ g.directReads states tr) :
    g.isInput t = true := by
  rw [directReads] at mem
  split at mem
  · rcases OrderedSet.mem_insert.1 mem with own | rfl
    · exact (List.mem_filter.1 (OrderedSet.mem_ofList.1 own)).2
    · exact ending
  · exact (List.mem_filter.1 (OrderedSet.mem_ofList.1 mem)).2

theorem isInput_of_mem_lookaheads (found : g.lookaheads states = .ok la) (mem : t ∈ la.at q k) :
    g.isInput t = true := by
  obtain ⟨reads, -, found⟩ := Attempt.bind_eq_ok.1 found
  obtain ⟨r, -, found⟩ := Attempt.bind_eq_ok.1 found
  cases found
  obtain ⟨n, -, mem⟩ := mem_at_map.1 mem
  obtain ⟨n, mem⟩ := Digraph.exists_of_mem_saturate mem
  obtain ⟨n, mem⟩ := Digraph.exists_of_mem_saturate mem
  rw [Array.getD_eq_getD_getElem?, Array.getElem?_map] at mem
  cases at_n : (g.nonterminalTransitions states).all[n]? with
  | none =>
    rw [at_n] at mem
    exact absurd mem (OrderedSet.not_mem_empty t)
  | some tr =>
    rw [at_n] at mem
    exact isInput_of_mem_directReads ending mem

end Lookaheads

theorem lookaheads_of_computeLookaheads {states : Array State} {la : Lookaheads}
    (computed : computeLookaheads states g = .ok la g') : g'.lookaheads states = .ok la := by
  obtain ⟨_, _, got, computed⟩ := bind_eq_ok.1 computed
  cases got
  cases found : g.lookaheads states with
  | ok la' =>
    rw [found] at computed
    cases computed
    exact found
  | error obstacle =>
    rw [found] at computed
    cases obstacle with
    | error e => cases computed
    | unsettled id =>
      obtain ⟨_, g₁, -, computed⟩ := bind_eq_ok.1 computed
      obtain ⟨answer, rfl⟩ := query_eq_ok.1 computed
      cases again : g'.lookaheads states with
      | ok la' =>
        rw [again] at answer
        cases answer
        rfl
      | error e =>
        rw [again] at answer
        cases answer

/-! ## Tables -/

theorem states_eq_ok {states : Array State} (found : g.states = .ok states) : states = g.explore := by
  obtain ⟨_, -, found⟩ := Attempt.bind_eq_ok.1 found
  cases found
  rfl

theorem Coherent.having (coherent : g.Coherent) (f : Facts) : (g.having f).Coherent :=
  ⟨coherent.table, coherent.ending, coherent.right, coherent.own, coherent.listed, coherent.natural,
    coherent.counted, coherent.zero⟩

/-- Tables are put together from the states and the lookahead sets of the grammar that is left. -/
theorem exists_assemble_of_buildTables {t : Tables} {method : String}
    (built : buildTables method g = .ok t g') : ∃ m la, g'.assemble m g'.explore la = .ok t ∧
      (m = .lalr → g'.lookaheads g'.explore = .ok la) := by
  rw [buildTables] at built
  cases named : Method.ofName? method with
  | none =>
    rw [named] at built
    cases built
  | some m =>
    rw [named] at built
    obtain ⟨-, built⟩ := guarded_eq_ok.1 built
    obtain ⟨_, g₁, -, built⟩ := bind_eq_ok.1 built
    obtain ⟨states, found, built⟩ := query_bind_eq_ok.1 built
    obtain rfl := states_eq_ok found
    cases m with
    | slr =>
      obtain ⟨_, _, none, built⟩ := bind_eq_ok.1 built
      cases none
      obtain ⟨assembled, rfl⟩ := query_eq_ok.1 built
      exact ⟨.slr, #[], assembled, fun same => by cases same⟩
    | lalr =>
      obtain ⟨la, g₂, computed, built⟩ := bind_eq_ok.1 built
      obtain ⟨assembled, rfl⟩ := query_eq_ok.1 built
      have sets := lookaheads_of_computeLookaheads computed
      obtain ⟨f, rfl, -⟩ := (informs_computeLookaheads g₁.explore g₁).of_ok computed
      exact ⟨.lalr, la, assembled, fun _ => sets⟩

/-- Tables that are built say what the states of the grammar permit. -/
theorem Coherent.tabled_of_buildTables {t : Tables} {method : String} (coherent : g.Coherent)
    (only : g.InputsOnly g.facts) (built : buildTables method g = .ok t g') :
    g'.Coherent ∧ g'.Tabled g'.explore t := by
  obtain ⟨m, la, assembled, sets⟩ := exists_assemble_of_buildTables built
  have ending := isInput_iff.2 coherent.ending
  obtain ⟨f, rfl, kept⟩ := (informs_buildTables method g).of_ok built
  have only := (kept coherent.table.seated ending only).having f
  have coherent := coherent.having f
  refine ⟨coherent, coherent.tabled coherent.valid_holds (fun q it _ _ _ ts found x mem => ?_) assembled⟩
  cases m with
  | slr =>
    have found : (g.having f).followLookaheads it = .ok ts := found
    rw [followLookaheads] at found
    split at found
    · cases found
    · obtain ⟨s, -, found⟩ := Attempt.bind_eq_ok.1 found
      cases found
      exact only.follow mem
  | lalr =>
    cases found
    exact isInput_of_mem_lookaheads (isInput_iff.2 coherent.ending) (sets rfl) mem

end ParserGenerator.Grammar
