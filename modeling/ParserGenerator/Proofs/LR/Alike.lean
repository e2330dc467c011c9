import ParserGenerator.LR.Construction
import ParserGenerator.Proofs.Analysis.FirstFollow
import ParserGenerator.Proofs.Grammar.Order

/-!
# Tables of alike grammars

In whatever order productions were filed, a closed grammar has the same states and lookahead sets, and the
same tables are built for it.
-/

namespace ParserGenerator.Grammar

open Build

variable {g h : Grammar} {α β : Type}

namespace Alike

/-- What is told without the order of filing and without the counters is the same. -/
theorem of_rest (a : g.Alike h) {F : Grammar → β}
    (same : ∀ m n l c, F { g with byNumber := m, nextNumber := n, level := l, actionCount := c } = F g) :
    F h = F g := by
  obtain ⟨n, l, c, eq⟩ := a.rest
  rw [eq]
  exact same _ n l c

theorem having (a : g.Alike h) (f : Facts) : (g.having f).Alike (h.having f) where
  rest := by
    obtain ⟨n, l, c, eq⟩ := a.rest
    refine ⟨n, l, c, ?_⟩
    rw [eq]
    rfl
  numbered := a.numbered
  sorted := a.sorted

variable (a : g.Alike h)
include a

theorem symbols : h.symbols = g.symbols := a.of_rest fun _ _ _ _ => rfl

theorem facts : h.facts = g.facts := a.of_rest fun _ _ _ _ => rfl

theorem production : h.production = g.production := by
  funext n
  rw [Grammar.production, a.numbered, ← Grammar.production]

/-! ## States -/

theorem values_perm : h.byNumber.values.Perm g.byNumber.values :=
  (sortBy_perm _ _).symm.trans ((List.Perm.of_eq a.sorted).trans (sortBy_perm _ _))

theorem itemBound : h.itemBound = g.itemBound := by
  have counted : h.productionCount = g.productionCount := by
    have := a.values_perm.length_eq
    rwa [OrderedMap.values, OrderedMap.values, List.length_map, List.length_map] at this
  have productions : h.productions = g.productions := a.of_rest fun _ _ _ _ => rfl
  have longest : h.longestRight = g.longestRight := by
    rw [longestRight, longestRight, productions]
    refine (a.values_perm.append_left _).foldl_eq' (fun p _ q _ n => ?_) 0
    rw [Nat.max_assoc, Nat.max_assoc, Nat.max_comm p.right.length]
  rw [Grammar.itemBound, Grammar.itemBound, counted, longest]

theorem closure : h.closure = g.closure := by
  have consequences : Item.consequences h = Item.consequences g := a.of_rest fun _ _ _ _ => rfl
  funext kernel
  rw [Grammar.closure, Grammar.closure, a.itemBound, consequences]

theorem connect : h.connect = g.connect := by
  have advanceOver : h.advanceOver = g.advanceOver := a.of_rest fun _ _ _ _ => rfl
  funext source items states id
  rw [Grammar.connect, Grammar.connect, a.closure, advanceOver]

theorem states : h.states = g.states := by
  have nextSymbols : h.nextSymbols = g.nextSymbols := a.of_rest fun _ _ _ _ => rfl
  have check : Item.check h = Item.check g := a.of_rest fun _ _ _ _ => rfl
  have explored : h.explore = g.explore := by
    rw [explore, explore, a.itemBound, a.closure, a.connect, nextSymbols]
  rw [Grammar.states, Grammar.states, explored, check]

/-! ## Lookahead sets -/

theorem vanishes : h.vanishes = g.vanishes := a.of_rest fun _ _ _ _ => rfl

theorem allVanish : h.allVanish = g.allVanish := by
  funext ids
  induction ids with
  | nil => rfl
  | cons id ids ih => rw [Grammar.allVanish, Grammar.allVanish, a.vanishes, ih]

theorem vanishing : h.vanishing = g.vanishing := by
  funext ids
  induction ids with
  | nil => rfl
  | cons id ids ih => rw [Grammar.vanishing, Grammar.vanishing, a.vanishes, ih]

theorem relateReads : h.relateReads = g.relateReads := by
  have readsThrough : h.readsThrough = g.readsThrough := by
    have isInput : h.isInput = g.isInput := a.of_rest fun _ _ _ _ => rfl
    funext states t
    simp only [Grammar.readsThrough, a.vanishing, isInput]
  funext states x
  rw [Grammar.relateReads, Grammar.relateReads, readsThrough]

theorem walk : h.walk = g.walk := by
  funext states state ids
  induction ids generalizing state with
  | nil => rfl
  | cons id ids ih => simp only [Grammar.walk, a.symbols, a.allVanish, ih]

theorem relate : h.relate = g.relate := by
  have relateProduction : h.relateProduction = g.relateProduction := by
    funext states x state number r production
    rw [Grammar.relateProduction, Grammar.relateProduction, a.production, a.walk]
  funext states x
  rw [Grammar.relate, Grammar.relate, a.symbols, relateProduction]

theorem lookaheads : h.lookaheads = g.lookaheads := by
  have transitions : h.nonterminalTransitions = g.nonterminalTransitions :=
    a.of_rest fun _ _ _ _ => rfl
  have directReads : h.directReads = g.directReads := a.of_rest fun _ _ _ _ => rfl
  funext states
  rw [Grammar.lookaheads, Grammar.lookaheads, transitions, directReads, a.relateReads, a.relate]

/-! ## Rows -/

theorem levelOf : h.levelOf = g.levelOf := by
  have lastTerminal : precedenceOf.lastTerminal h = precedenceOf.lastTerminal g := by
    funext ids
    induction ids with
    | nil => rfl
    | cons id ids ih => simp only [precedenceOf.lastTerminal, a.symbols, ih]
  have labels : h.labels = g.labels := a.of_rest fun _ _ _ _ => rfl
  funext p
  rw [Grammar.levelOf, Grammar.levelOf, precedenceOf, precedenceOf, lastTerminal, labels]

theorem putReduce : Row.putReduce h = Row.putReduce g := by
  have decide : h.decide = g.decide := by
    funext terminal p state
    rw [Grammar.decide, Grammar.decide, a.symbols, a.facts, a.levelOf]
  funext state it p r terminal
  simp only [Row.putReduce, decide, a.symbols]

theorem build : Row.build h = Row.build g := by
  have putAccept : Row.putAccept h = Row.putAccept g := a.of_rest fun _ _ _ _ => rfl
  have productionAt? : h.productionAt? = g.productionAt? := a.of_rest fun _ _ _ _ => rfl
  have isInput : h.isInput = g.isInput := a.of_rest fun _ _ _ _ => rfl
  have completed : State.completed h = State.completed g := a.of_rest fun _ _ _ _ => rfl
  have putCompleted : Row.putCompleted h = Row.putCompleted g := by
    funext state look r it
    rw [Row.putCompleted, Row.putCompleted, putAccept, productionAt?, a.putReduce]
  funext state s look
  rw [Row.build, Row.build, isInput, completed, putCompleted]

theorem assemble : h.assemble = g.assemble := by
  have followLookaheads : h.followLookaheads = g.followLookaheads := a.of_rest fun _ _ _ _ => rfl
  have format : Item.format h = Item.format g := a.of_rest fun _ _ _ _ => rfl
  have reduceLength : h.reduceLength = g.reduceLength := a.of_rest fun _ _ _ _ => rfl
  have productions : h.productions = g.productions := a.of_rest fun _ _ _ _ => rfl
  have gotoCells : h.gotoCells = g.gotoCells := a.of_rest fun _ _ _ _ => rfl
  funext m states la
  rw [Grammar.assemble, Grammar.assemble, a.build, followLookaheads, format, reduceLength, productions,
    gotoCells]

end Alike

/-! ## Calls -/

/-- Two calls end the same way with the same value, and leave alike grammars. -/
def Agree (x y : EStateM.Result Error Grammar α) : Prop :=
  match x, y with
  | .ok a g, .ok b h => a = b ∧ g.Alike h
  | .error e g, .error e' h => e = e' ∧ g.Alike h
  | _, _ => False

/-- A call on alike grammars ends the same way. -/
def Steady (x : Build α) : Prop := ∀ g h, Alike g h → Agree (x g) (x h)

namespace Steady

variable {x : Build α} {f : α → Build β}

theorem pure (b : β) : Steady (Pure.pure b : Build β) := fun _ _ a => ⟨rfl, a⟩

theorem throw (e : Error) : Steady (MonadExcept.throw e : Build β) := fun _ _ a => ⟨rfl, a⟩

theorem bind (first : Steady x) (second : ∀ b, Steady (f b)) : Steady (x >>= f) := by
  intro g h a
  have agree := first g h a
  cases left : x g with
  | ok b g₁ =>
    cases right : x h with
    | ok b' h₁ =>
      rw [left, right] at agree
      obtain ⟨rfl, a₁⟩ := agree
      rw [bind_of_ok left, bind_of_ok right]
      exact second b g₁ h₁ a₁
    | error e h₁ =>
      rw [left, right] at agree
      exact agree.elim
  | error e g₁ =>
    cases right : x h with
    | ok b h₁ =>
      rw [left, right] at agree
      exact agree.elim
    | error e' h₁ =>
      rw [left, right] at agree
      rw [bind_of_error left, bind_of_error right]
      exact agree

theorem query {look : Grammar → Except Error α} (same : ∀ {g h}, Alike g h → look h = look g) :
    Steady (query look) := by
  intro g h a
  rw [Grammar.query, Grammar.query, same a]
  split
  · exact ⟨rfl, a⟩
  · exact ⟨rfl, a⟩

/-- What is read off the grammar is the same. -/
theorem reading {f : Grammar → Build β} (same : ∀ {g h}, Alike g h → f h = f g)
    (steady : ∀ g, Steady (f g)) : Steady (get >>= f) := by
  intro g h a
  show Agree (f g g) (f h h)
  rw [same a]
  exact steady g g h a

theorem guarded {c : Prop} [Decidable c] {e : Error} {rest : PUnit → Build β}
    (steady : ∀ u, Steady (rest u)) : Steady (if c then MonadExcept.throw e >>= rest else rest ⟨⟩) := by
  split
  · exact (throw e).bind steady
  · exact steady _

theorem changingFacts (change : Facts → Facts) :
    Steady (modify fun g : Grammar => { g with facts := change g.facts }) := by
  intro g h a
  have changed := a.having (change g.facts)
  refine ⟨rfl, ?_⟩
  show Alike _ { h with facts := change h.facts }
  rw [a.facts]
  exact changed

theorem forM {as : List α} {f : α → Build Unit} (each : ∀ a, Steady (f a)) : Steady (as.forM f) := by
  induction as with
  | nil => exact pure ()
  | cons a as ih => exact (each a).bind fun _ => ih

theorem foldlM {as : List α} {f : β → α → Build β} (each : ∀ b a, Steady (f b a)) (b : β) :
    Steady (as.foldlM f b) := by
  induction as generalizing b with
  | nil => exact pure b
  | cons a as ih =>
    rw [List.foldlM_cons]
    exact (each b a).bind ih

theorem symbol (id : Int) : Steady (Grammar.query (·.symbols.symbol id)) :=
  query fun a => by rw [a.symbols]

theorem derivationKind (id : Int) : Steady (Grammar.query (·.derivationKind id)) :=
  query fun a => congrFun (a.of_rest (F := Grammar.derivationKind) fun _ _ _ _ => rfl) id

/-! ## The analysis -/

theorem settle (id : Int) (b : Bool) : Steady (settle id b) := changingFacts (·.settle id b)

theorem markVanishing (found : List Int) (id : Int) : Steady (markVanishing found id) := by
  refine (symbol id).bind fun _ => reading (fun a => by rw [a.facts]) fun g => ?_
  split
  · exact pure found
  · exact (settle id true).bind fun _ => pure _

theorem settleByKind (found : List Int) (s : Symbol) : Steady (settleByKind found s) := by
  refine (derivationKind s.id).bind fun kind => reading (fun a => by rw [a.facts]) fun g => ?_
  dsimp only
  split
  · exact pure _
  split
  · exact (settle s.id false).bind fun _ => pure _
  split
  · exact markVanishing found s.id
  · exact pure found

theorem await (state : List Int × List Waiting) (p : Production) : Steady (await state p) := by
  refine (forM fun id => (derivationKind id).bind fun _ => pure ()).bind fun _ => ?_
  refine reading (fun a => by rw [a.facts]) fun g => ?_
  dsimp only
  split
  · exact (markVanishing _ _).bind fun _ => pure _
  · exact pure _

theorem spread (found : List Int) (waiting : List Waiting) : Steady (spread found waiting) := by
  fun_induction Grammar.spread found waiting with
  | case1 => exact pure ()
  | case2 found waiting next released ih =>
    have mark : ∀ found (w : Waiting), Steady (Grammar.markVanishing found w.left) :=
      fun found w => markVanishing found w.left
    exact (foldlM mark next.2.1).bind ih

theorem settleNullable : Steady settleNullable := by
  refine reading (fun a => by rw [a.symbols]) fun g => ?_
  have kinds : Steady (g.symbols.symbols.foldlM Grammar.settleByKind []) := foldlM settleByKind []
  refine kinds.bind fun found => reading (fun a => by rw [a.sorted]) fun g' => ?_
  have waits : Steady (g'.sortedProductions.foldlM Grammar.await (found, [])) := foldlM await (found, [])
  have rest : Steady (g.symbols.symbols.forM fun s => do
      if !(← get).facts.isSettled s.id then Grammar.settle s.id false) := by
    refine forM fun s => reading (fun a => by rw [a.facts]) fun g => ?_
    split
    · exact settle s.id false
    · exact pure ()
  exact waits.bind fun state => (spread state.1 state.2).bind fun _ => rest

theorem isNullable (id : Int) : Steady (isNullable id) := by
  refine (symbol id).bind fun _ => reading (fun a => by rw [a.facts]) fun g => ?_
  have answer : Steady (do return (← get).facts.isNullable id : Build Bool) :=
    reading (fun a => by rw [a.facts]) fun g => pure _
  split
  · exact (derivationKind id).bind fun _ => settleNullable.bind fun _ => answer
  · exact answer

theorem setFacts (f : Facts) : Steady (setFacts f) := changingFacts fun _ => f

theorem computeFirst : Steady computeFirst := by
  refine reading (fun a => ?_) fun g => ?_
  · have ids := a.of_rest (F := Grammar.ids) fun _ _ _ _ => rfl
    simp only [a.symbols, a.facts, a.sorted, ids]
  · dsimp only
    split
    · exact (setFacts _).bind fun _ => throw _
    · exact setFacts _

theorem seedFollow (id : Int) : Steady (seedFollow id) :=
  (symbol id).bind fun _ => changingFacts (·.addFollow id (OrderedSet.ofList [endMarkerId]))

theorem computeFollow : Steady computeFollow := by
  have marker : Steady (Grammar.query idOfStartMarker) := query fun a => a.of_rest fun _ _ _ _ => rfl
  have start : Steady (Grammar.query idOfStart) := query fun a => a.of_rest fun _ _ _ _ => rfl
  refine marker.bind fun m => (seedFollow m).bind fun _ => start.bind fun s => (seedFollow s).bind fun _ => ?_
  refine reading (fun {g h} a => ?_) fun g => (setFacts _).bind fun _ => pure _
  have ids : h.ids = g.ids := a.of_rest fun _ _ _ _ => rfl
  have followPass : h.followPass = g.followPass := a.of_rest fun _ _ _ _ => rfl
  have followSizes : h.followSizes = g.followSizes := a.of_rest fun _ _ _ _ => rfl
  simp only [a.facts, a.sorted, ids, followPass, followSizes]

theorem analyze : Steady analyze := by
  refine reading (fun a => ?_) fun g => ?_
  · rw [a.of_rest (F := Grammar.closed) fun _ _ _ _ => rfl]
  · split
    · exact throw _
    · exact settleNullable.bind fun _ => computeFirst.bind fun _ => computeFollow

/-! ## Tables -/

theorem computeLookaheads (states : Array State) : Steady (computeLookaheads states) := by
  refine reading (fun a => by rw [a.lookaheads]) fun g => ?_
  split
  · exact pure _
  · exact throw _
  · exact (isNullable _).bind fun _ => query fun a => by rw [a.lookaheads]

theorem buildTables (method : String) : Steady (buildTables method) := by
  rw [Grammar.buildTables]
  split
  · exact throw _
  · rename_i m _
    refine reading (fun a => ?_) fun g => guarded fun _ => analyze.bind fun _ =>
      (query fun a => a.states).bind fun states => ?_
    · rw [a.of_rest (F := Grammar.closed) fun _ _ _ _ => rfl]
    · have assembled : ∀ la, Steady (Grammar.query (·.assemble m states la)) :=
        fun la => query fun a => by rw [a.assemble]
      cases m with
      | slr => exact (pure #[]).bind assembled
      | lalr => exact (computeLookaheads states).bind assembled

end Steady

/-- The same tables are built for alike grammars. -/
theorem Alike.buildTables (a : g.Alike h) {method : String} {t : Tables} {g' : Grammar}
    (built : buildTables method g = .ok t g') :
    ∃ h', Grammar.buildTables method h = .ok t h' ∧ g'.Alike h' := by
  have agree := Steady.buildTables method g h a
  rw [built] at agree
  cases again : Grammar.buildTables method h with
  | ok u h' =>
    rw [again] at agree
    obtain ⟨rfl, a'⟩ := agree
    exact ⟨h', rfl, a'⟩
  | error e h' =>
    rw [again] at agree
    exact agree.elim

end ParserGenerator.Grammar
