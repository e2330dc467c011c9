import ParserGenerator.Proofs.Grammar.Additions
import ParserGenerator.Proofs.Grammar.Calls
import ParserGenerator.Proofs.Grammar.Order

/-!
# What a history of calls leaves

Calls come in any order and some fail, also half done. Whatever they were, the productions are numbered from 1 on
as they were added and filed with their left-hand sides, and symbols keep their identifiers and the kinds that
are known. A grammar that was closed has one more production, of its start marker, and later calls add nothing.
-/

namespace ParserGenerator.Grammar

open Build

variable {g g' : Grammar} {marker start : Int} {ps : List Production} {s : Symbol}

/-! ## Histories -/

/-- The production that a call adds, if it is one that does. -/
def Call.added (g : Grammar) : Call → Option Production
  | addProduction left items action label =>
    match Grammar.addProduction left items action label g with
    | .ok p _ => some p
    | .error _ _ => none
  | _ => none

/-- The productions that calls add one after the other, in their order. -/
def addedBy : Grammar → List Call → List Production
  | _, [] => []
  | g, c :: calls => (c.added g).toList ++ addedBy (c.after g) calls

/-- Each call fits the grammar that it finds. -/
def AllFit : Grammar → List Call → Prop
  | _, [] => True
  | g, c :: calls => c.Fits g ∧ AllFit (c.after g) calls

instance (g : Grammar) : DecidablePred (RightSymbol.Fits g)
  | .name n => inferInstanceAs (Decidable (n ≠ startMarkerName))
  | .interned s => inferInstanceAs (Decidable (g.symbols.get? s.name = some s))
  | .foreign _ => isTrue trivial

instance (g : Grammar) : DecidablePred (Call.Fits g)
  | .declareTerminal name => inferInstanceAs (Decidable (name ≠ startMarkerName))
  | .declareNonterminal name _ => inferInstanceAs (Decidable (name ≠ startMarkerName))
  | .declarePrecedence _ _ => isTrue trivial
  | .newAction _ _ => isTrue trivial
  | .addProduction left items _ _ =>
    inferInstanceAs (Decidable (left ≠ startMarkerName ∧ ∀ item ∈ items, item.Fits g))
  | .close _ => isTrue trivial

instance decidableAllFit : (g : Grammar) → (calls : List Call) → Decidable (AllFit g calls)
  | _, [] => isTrue trivial
  | g, c :: calls =>
    have := decidableAllFit (c.after g) calls
    inferInstanceAs (Decidable (c.Fits g ∧ AllFit (c.after g) calls))

/-! ## What one call leaves -/

/-- The grammar files the productions in this order. If it is closed, it files one more behind them. -/
inductive Holding (ps : List Production) (g : Grammar) : Prop
  | opened : g.Open → g.byNumber.values = ps → Holding ps g
  | settled {marker start : Int} : g.Settled marker start →
      g.byNumber.values = ps ++ [opening marker start] → Holding ps g

theorem Holding.lawful (holding : Holding ps g) : g.Lawful := by
  rcases holding with ⟨sound, -⟩ | ⟨settled, -⟩
  · exact sound.toLawful
  · exact settled.toLawful

/-- A grammar that grows files nothing, and its symbols stay. -/
theorem Grows.holding (grown : g.Grows g') (holding : Holding ps g) :
    Holding (ps ++ []) g' ∧ g.Keeps g' := by
  rw [List.append_nil]
  refine ⟨?_, grown.keepsAll⟩
  rcases holding with ⟨sound, filed⟩ | ⟨settled, filed⟩
  · exact .opened (grown.open_of_open sound) (grown.byNumber.symm ▸ filed)
  · exact .settled (grown.settled_of_settled settled) (grown.byNumber.symm ▸ filed)

/-- Closing files the production of the start marker behind all others. -/
theorem ClosedFrom.holding {g₁ : Grammar} (source : ClosedFrom g g₁ g') (filed : g.byNumber.values = ps) :
    Holding ps g' := by
  obtain ⟨-, grown, ⟨_, start, checked, listed, rfl⟩, -, -, ⟨marker, first, settled⟩, -⟩ := source
  have values : (g₁.marked start).byNumber.values = ps ++ [opening g₁.symbols.slots.size start] := by
    rw [← filed, ← grown.byNumber]
    exact values_withProduction (g := g₁.withMarker) (p := opening _ start) checked.toOpen.get?_zero _
  obtain ⟨others, whole, -⟩ := settled.exists_filed
  have last := List.append_inj_right' (values.symm.trans whole) rfl
  exact .settled settled (values.trans (by rw [last]))

/-- A call adds at most its production to an open grammar, and the symbols stay. -/
theorem Open.holding_after (sound : g.Open) (filed : g.byNumber.values = ps) (c : Call) (fits : c.Fits g) :
    Holding (ps ++ (c.added g).toList) (c.after g) ∧ g.Keeps (c.after g) := by
  have holding : Holding ps g := .opened sound filed
  cases c with
  | addProduction left items action label =>
    have ended := ends_addProduction sound fits.1 trivial (fun _ => trivial)
      (fun item mem => (fits.2 item mem).ready sound.table) action label
    cases result : Grammar.addProduction left items action label g with
    | ok p g' =>
      obtain ⟨g₁, s, made, rfl⟩ := ended.of_ok result
      have opened := made.grown.open_of_open sound
      have absent : g₁.byNumber.get? p.number = none := made.number ▸ opened.absent
      simp only [Call.added, Call.after, leaves, result, Option.toList_some]
      refine ⟨.opened (opened.withProduction made.number made.at_left made.kind made.usable _) ?_, ?_⟩
      · rw [← filed, ← made.grown.byNumber]
        exact values_withProduction absent s
      · exact made.grown.keepsAll.trans (opened.toLawful.keeps_withProduction made.at_left)
    | error e g' =>
      rw [Ends, result] at ended
      simp only [Call.added, Call.after, leaves, result]
      exact ended.toGrows.holding holding
  | close start =>
    simp only [Call.added, Call.after, Option.toList_none, List.append_nil]
    rcases sound.close_cases start with ⟨g₁, g', closing, source⟩ | ⟨e, refused, -⟩
    · rw [leaves, closing]
      exact ⟨source.holding filed, source.keeps⟩
    · rw [leaves, refused]
      exact ⟨.opened (sound.with_start _) filed, .refl g⟩
  | _ =>
    rcases Call.grows sound.table _ fits with grown | ⟨_, _, _, _, other⟩ | ⟨_, other⟩
    · exact grown.holding holding
    · cases other
    · cases other

theorem Settled.added_eq_none (settled : g.Settled marker start) (c : Call) : c.added g = none := by
  cases c <;> simp [Call.added, addProduction_of_closed settled.closed]

theorem Holding.after (holding : Holding ps g) (c : Call) (fits : c.Fits g) :
    Holding (ps ++ (c.added g).toList) (c.after g) ∧ g.Keeps (c.after g) := by
  rcases holding with ⟨sound, filed⟩ | ⟨settled, filed⟩
  · exact sound.holding_after filed c fits
  · rw [settled.added_eq_none c]
    exact (settled.grows_after c fits).holding (.settled settled filed)

/-! ## What a history leaves -/

theorem Holding.foldl_after (holding : Holding ps g) {calls : List Call} (fit : AllFit g calls) :
    Holding (ps ++ addedBy g calls) (calls.foldl Call.after g) ∧ g.Keeps (calls.foldl Call.after g) := by
  induction calls generalizing g ps with
  | nil => exact ⟨by simpa [addedBy] using holding, .refl g⟩
  | cons c calls ih =>
    obtain ⟨first, kept⟩ := holding.after c fit.1
    obtain ⟨later, kept'⟩ := ih first fit.2
    rw [addedBy, ← List.append_assoc]
    exact ⟨later, kept.trans kept'⟩

theorem Settled.grows_foldl_after (settled : g.Settled marker start) {calls : List Call} (fit : AllFit g calls) :
    g.Grows (calls.foldl Call.after g) := by
  induction calls generalizing g with
  | nil => exact .refl settled.table
  | cons c calls ih =>
    have grown := settled.grows_after c fit.1
    exact grown.trans (ih (grown.settled_of_settled settled) fit.2)

/-! ## Productions -/

/-- The grammar has the productions in this order, numbered from 1 on, beside one with the number 0. They are filed
with their left-hand sides and are made of registered symbols. -/
structure Recorded (ps : List Production) (g : Grammar) : Prop where
  numbers : ps.map Production.number = (List.range ps.length).map fun i : Nat => (i : Int) + 1
  productions : g.sortedProductions.filter (·.number ≠ 0) = ps
  left : ∀ p ∈ g.sortedProductions, ∃ s, g.symbols.symbol p.left = .ok s ∧ s.kind = .nonterminal
  right : ∀ p ∈ g.sortedProductions, ∀ id ∈ p.right,
    id ≠ endMarkerId ∧ ∃ s, g.symbols.symbol id = .ok s ∧ s.name ≠ endMarkerName
  ofSymbol : ∀ {id s}, g.symbols.symbol id = .ok s →
    s.productions = (g.sortedProductions.filter (·.left = id)).map Production.number ∧
      s.productions.Pairwise (· < ·)

theorem Holding.numbers (holding : Holding ps g) :
    ps.map Production.number = (List.range ps.length).map fun i : Nat => (i : Int) + 1 := by
  suffices ∃ n, ps.map Production.number = (List.range n).map fun i : Nat => (i : Int) + 1 by
    obtain ⟨n, numbers⟩ := this
    have length := congrArg List.length numbers
    simp only [List.length_map, List.length_range] at length
    rwa [length]
  rcases holding with ⟨sound, filed⟩ | ⟨settled, filed⟩
  · obtain ⟨n, -, keys⟩ := sound.numbered
    exact ⟨n, by rw [← filed, sound.map_number_values, keys]⟩
  · obtain ⟨n, keys⟩ := settled.ordered
    have numbers := settled.map_number_values
    rw [filed, keys, List.map_append] at numbers
    exact ⟨n, List.append_cancel_right numbers⟩

/-- An open grammar filed its productions by number. -/
theorem Open.sorted (sound : g.Open) : g.sortedProductions = g.byNumber.values := by
  obtain ⟨n, -, keys⟩ := sound.numbered
  obtain ⟨increasing, -⟩ := increasing_of_numbers (sound.map_number_values.trans keys)
  unfold sortedProductions
  apply sortBy_of_pairwise
  exact increasing.imp fun lower => decide_eq_true (Int.le_of_lt lower)

/-- By number, production 0 comes first if there is one. -/
theorem Holding.sorted (holding : Holding ps g) :
    g.sortedProductions = ps ∨ ∃ marker start, g.sortedProductions = opening marker start :: ps := by
  rcases holding with ⟨sound, filed⟩ | ⟨settled, filed⟩
  · exact .inl (sound.sorted.trans filed)
  · obtain ⟨others, whole, sorted, -⟩ := settled.exists_sorted
    obtain ⟨rfl, -⟩ := List.append_inj' (whole.symm.trans filed) rfl
    exact .inr ⟨_, _, sorted⟩

theorem Holding.sorted_increasing (holding : Holding ps g) :
    g.sortedProductions.Pairwise fun p q => p.number < q.number := by
  obtain ⟨increasing, positive⟩ := increasing_of_numbers holding.numbers
  rcases holding.sorted with sorted | ⟨marker, start, sorted⟩
  · rwa [sorted]
  · rw [sorted]
    exact List.pairwise_cons.2 ⟨positive, increasing⟩

theorem Holding.filter_left_sorted (holding : Holding ps g) (id : Int) :
    g.sortedProductions.filter (·.left = id) = g.byNumber.values.filter (·.left = id) := by
  rcases holding with ⟨sound, -⟩ | ⟨settled, -⟩
  · rw [sound.sorted]
  · exact settled.filter_left_sorted id

theorem Holding.recorded (holding : Holding ps g) : Recorded ps g where
  numbers := holding.numbers
  productions := by
    obtain ⟨-, positive⟩ := increasing_of_numbers holding.numbers
    have others : ps.filter (·.number ≠ 0) = ps := by
      apply List.filter_eq_self.2
      intro p mem
      have := positive p mem
      simp only [decide_eq_true_eq]
      omega
    rcases holding.sorted with sorted | ⟨marker, start, sorted⟩
    · rw [sorted, others]
    · rw [sorted, List.filter_cons_of_neg (by simp [opening]), others]
  left := by
    intro p mem
    obtain ⟨n, found⟩ := mem_sortedProductions.1 mem
    obtain ⟨s, at_s, kind⟩ := holding.lawful.left found
    exact ⟨s, SymbolTable.symbol_eq_ok at_s, kind⟩
  right := by
    intro p mem id inside
    obtain ⟨n, found⟩ := mem_sortedProductions.1 mem
    obtain ⟨other, s, at_s⟩ := holding.lawful.right found id inside
    refine ⟨other, s, SymbolTable.symbol_eq_ok at_s, fun named => other ?_⟩
    obtain ⟨x, at_x, ended⟩ := holding.lawful.table.endMarker
    exact holding.lawful.table.name_inj at_s at_x (named.trans ended.symm)
  ofSymbol := by
    intro id s found
    have filed := holding.lawful.filed (SymbolTable.at?_of_symbol found)
    rw [← holding.filter_left_sorted] at filed
    refine ⟨filed, ?_⟩
    rw [filed, List.pairwise_map]
    exact holding.sorted_increasing.filter _

/-! ## Symbols -/

/-- Names keep their identifiers, and known symbols their kinds. -/
structure Stays (g g' : Grammar) : Prop where
  idOf : ∀ {name id}, g.symbols.idOf name = .ok id → g'.symbols.idOf name = .ok id
  kind : ∀ {id s}, g.symbols.symbol id = .ok s → s.kind ≠ .unknown →
    ∃ s', g'.symbols.symbol id = .ok s' ∧ s'.name = s.name ∧ s'.kind = s.kind

theorem Keeps.stays (keeps : g.Keeps g') (lawful : g.Lawful) (lawful' : g'.Lawful) : Stays g g' where
  idOf := by
    intro name id given
    obtain ⟨s, at_s, rfl⟩ := lawful.table.idOf_eq_ok.1 given
    obtain ⟨s', at_s', named, -⟩ := keeps at_s
    exact lawful'.table.idOf_eq_ok.2 ⟨s', at_s', named⟩
  kind := by
    intro id s found known
    obtain ⟨s', at_s', named, same⟩ := keeps (SymbolTable.at?_of_symbol found)
    exact ⟨s', SymbolTable.symbol_eq_ok at_s', named, same known⟩

/-! ## Closed grammars -/

/-- Nothing is left open: symbols are known, nonterminals have productions, and production 0 leads from the start
marker to the start symbol and is the only one of the marker. Productions are listed by number. -/
structure Finished (g : Grammar) : Prop where
  known : ∀ {id s}, g.symbols.symbol id = .ok s → s.kind ≠ .unknown
  produced : ∀ {id s}, g.symbols.symbol id = .ok s → s.kind = .nonterminal →
    ∃ p ∈ g.productions, p.left = id
  marked : ∃ marker start, g.idOfStartMarker = .ok marker ∧ g.idOfStart = .ok start ∧
    g.productions[0]? = some ⟨0, marker, [start], none, none⟩ ∧
    ∀ p ∈ g.productions, p.left = marker → p.number = 0
  number : ∀ {i : Nat} {p : Production}, g.productions[i]? = some p → p.number = i
  listed : g.productions.toList = g.sortedProductions

/-- The productions are the same, and so are the names and their identifiers. -/
structure Fixed (g g' : Grammar) : Prop where
  productions : g'.productions = g.productions
  sorted : g'.sortedProductions = g.sortedProductions
  idOf : ∀ name, g'.symbols.idOf name = g.symbols.idOf name

theorem Settled.mem_productions_iff (settled : g.Settled marker start) {p : Production} :
    p ∈ g.productions ↔ ∃ n, g.byNumber.get? n = some p := by
  rw [← Array.mem_toList_iff, settled.toList_productions, mem_sortedProductions]

theorem Settled.finished (settled : g.Settled marker start) : Finished g where
  known found := settled.known (SymbolTable.at?_of_symbol found)
  produced := by
    intro id s found kind
    have at_s := SymbolTable.at?_of_symbol found
    have own := settled.produced at_s kind
    rw [settled.filed at_s] at own
    obtain ⟨p, filed⟩ := List.exists_mem_of_ne_nil _ (mt (congrArg (List.map Production.number)) own)
    obtain ⟨mem, left⟩ := List.mem_filter.1 filed
    exact ⟨p, settled.mem_productions_iff.2 (OrderedMap.mem_values.1 mem), of_decide_eq_true left⟩
  marked := by
    refine ⟨marker, start, settled.idOf_marker, settled.idOf_start, (settled.listed 0).trans settled.zero, ?_⟩
    intro p mem left
    obtain ⟨n, found⟩ := settled.mem_productions_iff.1 mem
    rw [settled.number_eq found]
    exact settled.marker_left found left
  number := by
    intro i p at_i
    exact settled.number_eq ((settled.listed i).symm.trans at_i)
  listed := settled.toList_productions

/-- A closed grammar that grows gets no new names. -/
theorem Grows.fixed (grown : g.Grows g') (settled : g.Settled marker start) : Fixed g g' where
  productions := grown.productions
  sorted := by rw [sortedProductions, grown.byNumber, sortedProductions]
  idOf := by
    intro name
    have stays := grown.keepsAll.stays settled.toLawful (grown.lawful_of_lawful settled.toLawful)
    cases given : g.symbols.idOf name with
    | ok id => exact stays.idOf given
    | error e =>
      cases given' : g'.symbols.idOf name with
      | ok id =>
        obtain ⟨s', at_s', rfl⟩ := grown.lawful.idOf_eq_ok.1 given'
        obtain ⟨s, at_s, named, -⟩ := grown.before_of_frozen settled.frozen at_s'
        rw [settled.table.idOf_eq_ok.2 ⟨s, at_s, named.symm⟩] at given
        cases given
      | error e' =>
        unfold SymbolTable.idOf at given given'
        split at given <;> split at given' <;> simp_all

/-! ## The whole history -/

theorem Holding.close (holding : Holding ps g) {first : Option String} (closing : close first g = .ok () g') :
    ∃ marker start, g'.Settled marker start := by
  rcases holding with ⟨sound, -⟩ | ⟨settled, -⟩
  · obtain ⟨g₁, source⟩ := (ends_close_of_open sound first).of_ok closing
    exact source.complete.1
  · rw [close_of_closed settled.closed] at closing
    cases closing
    exact ⟨_, _, settled⟩

theorem Holding.close_ne_numberGap (holding : Holding ps g) {first : Option String} {e : Error}
    (refused : Grammar.close first g = .error e g') (missing : List Int) :
    e ≠ .definition (.numberGap missing) := by
  rcases holding with ⟨sound, -⟩ | ⟨settled, -⟩
  · rcases sound.close_cases first with ⟨_, _, closing, -⟩ | ⟨e', refused', complaint⟩
    · rw [refused] at closing
      cases closing
    · rw [refused] at refused'
      cases refused'
      exact complaint.ne_numberGap missing
  · rw [close_of_closed settled.closed] at refused
    cases refused

/-- Whatever the calls on an empty grammar were, also those that failed: its productions are numbered as they were
added, so that it is never refused to be closed for a gap; symbols stay what they are; and when it is closed, nothing
is left open, and later calls add nothing. -/
theorem invariants_of_history (calls : List Call) (fit : AllFit .fresh calls) :
    let g := calls.foldl Call.after .fresh
    Recorded (addedBy .fresh calls) g ∧
      (∀ later, AllFit g later → Stays g (later.foldl Call.after g)) ∧
      (∀ first e g' missing, close first g = .error e g' → e ≠ .definition (.numberGap missing)) ∧
      ∀ first g', close first g = .ok () g' →
        Finished g' ∧ ∀ later, AllFit g' later → Fixed g' (later.foldl Call.after g') := by
  intro g
  have holding : Holding (addedBy .fresh calls) g :=
    ((Holding.opened open_fresh rfl : Holding [] .fresh).foldl_after fit).1
  refine ⟨holding.recorded, ?_, ?_, ?_⟩
  · intro later fit'
    obtain ⟨holding', keeps⟩ := holding.foldl_after fit'
    exact keeps.stays holding.lawful holding'.lawful
  · intro first e g' missing refused
    exact holding.close_ne_numberGap refused missing
  · intro first g' closing
    obtain ⟨marker, start, settled⟩ := holding.close closing
    refine ⟨settled.finished, ?_⟩
    intro later fit'
    exact (settled.grows_foldl_after fit').fixed settled

/-- Half of the calls fail, and all but the last one leave something undone. -/
def mendedCalls : List Call :=
  [.declareTerminal "x", .addProduction "S" [.name "x", .name ""] none none, .close none,
    .addProduction "S" [.name "T", .name "x"] (some "act") none, .close none,
    .addProduction "x" [] none none, .declareNonterminal "U" "", .addProduction "T" [] none none,
    .close none, .addProduction "U" [.name "T"] none none, .declarePrecedence "left" ["x", "x"],
    .close (some "V"), .newAction "late" false]

theorem invariants_of_mendedCalls :
    AllFit .fresh mendedCalls ∧
      (addedBy .fresh mendedCalls).map (fun p => (p.number, p.left, p.right)) =
        [(1, 4, [5, 3, 6]), (2, 5, []), (3, 7, [5])] ∧
      Recorded (addedBy .fresh mendedCalls) (mendedCalls.foldl Call.after .fresh) ∧
      ∃ g', close (some "S") (mendedCalls.foldl Call.after .fresh) = .ok () g' ∧ Finished g' ∧
        Fixed g' ([.declareTerminal "y", .addProduction "S" [] none none].foldl Call.after g') := by
  have fit : AllFit .fresh mendedCalls := by decide +kernel
  obtain ⟨filed, -, -, closes⟩ := invariants_of_history mendedCalls fit
  have ends : Ends (close (some "S")) (mendedCalls.foldl Call.after .fresh) (fun _ _ => True) fun _ => False := by
    decide +kernel
  obtain ⟨_, g', closing, -⟩ := ends.exists_ok
  obtain ⟨finished, fixed⟩ := closes (some "S") g' closing
  refine ⟨fit, by decide +kernel, filed, g', closing, finished, fixed _ ?_⟩
  simp [AllFit, Call.Fits, startMarkerName]

end ParserGenerator.Grammar
