import ParserGenerator.Proofs.Grammar.Close

/-!
# Grammars made by calls

A grammar is made from the empty one by calls in any order, of which some may fail. It is open until a
call closes it; from then on it is settled, and later calls change nothing that matters.
-/

namespace ParserGenerator.Grammar

open Build

variable {g : Grammar}

/-- What can be called on a grammar while it is made. -/
inductive Call where
  | declareTerminal (name : String)
  | declareNonterminal (name initialiser : String)
  | declarePrecedence (associativity : String) (labels : List String)
  | newAction (text : String) (trailing : Bool)
  | addProduction (left : String) (items : List RightSymbol) (action label : Option String)
  | close (start : Option String)

namespace Call

/-- The grammar behind a call, also behind one that fails. -/
def after (g : Grammar) : Call → Grammar
  | declareTerminal name => leaves (Grammar.declareTerminal name) g
  | declareNonterminal name initialiser => leaves (Grammar.declareNonterminal name initialiser) g
  | declarePrecedence associativity labels => leaves (Grammar.declarePrecedence associativity labels) g
  | newAction text trailing => leaves (Grammar.newAction text trailing) g
  | addProduction left items action label => leaves (Grammar.addProduction left items action label) g
  | close start => leaves (Grammar.close start) g

/-- The call does not use the name of the start marker, and the symbols in it are the grammar's. -/
def Fits (g : Grammar) : Call → Prop
  | declareTerminal name => name ≠ startMarkerName
  | declareNonterminal name _ => name ≠ startMarkerName
  | declarePrecedence _ _ => True
  | newAction _ _ => True
  | addProduction left items _ _ => left ≠ startMarkerName ∧ ∀ item ∈ items, item.Fits g
  | close _ => True

end Call

/-- The grammars that calls make. -/
inductive Declared : Grammar → Prop
  | fresh : Declared .fresh
  | call {g : Grammar} (c : Call) : Declared g → c.Fits g → Declared (c.after g)

theorem addProduction_of_closed (closed : g.closed = true) (left : String)
    (items : List RightSymbol) (action label : Option String) :
    addProduction left items action label g = .error (.definition .grammarClosed) g := by
  rw [addProduction]
  show (if g.closed = true then _ else _ : Build Production) g = _
  rw [if_pos closed]
  rfl

/-- A declaration makes the grammar grow. -/
theorem Call.grows (lawful : g.symbols.Lawful) (c : Call) (fits : c.Fits g) : g.Grows (c.after g) ∨
    (∃ left items action label, c = .addProduction left items action label) ∨
    ∃ start, c = .close start := by
  -- Whatever the names and kinds that are declared.
  have grows : ∀ {α : Type} {x : Build α} {done : α → Grammar → Prop},
      Ends x g (fun a g' => g.GrowsBy (fun _ _ => True) g' ∧ done a g') (g.GrowsBy fun _ _ => True) →
        g.Grows (leaves x g) :=
    fun ended => (ended.mono (fun _ _ h => h.1.toGrows) fun _ h => h.toGrows).of_leaves
  cases c with
  | declareTerminal => exact .inl (grows (ends_declareTerminal lawful fits trivial))
  | declareNonterminal _ initialiser =>
    exact .inl (grows (ends_declareNonterminal lawful fits trivial initialiser))
  | declarePrecedence associativity labels =>
    exact .inl (grows ((ends_declarePrecedence lawful associativity labels).mono
      (fun _ _ h => ⟨h, trivial⟩) fun _ h => h))
  | newAction text trailing => exact .inl (grows (ends_newAction lawful text trailing fun _ => trivial))
  | addProduction left items action label => exact .inr (.inl ⟨left, items, action, label, rfl⟩)
  | close start => exact .inr (.inr ⟨start, rfl⟩)

theorem Open.after (sound : g.Open) (c : Call) (fits : c.Fits g) :
    (c.after g).Open ∨ Complete (c.after g) := by
  rcases c.grows sound.table fits with grown | ⟨left, items, action, label, rfl⟩ | ⟨start, rfl⟩
  · exact .inl (grown.open_of_open sound)
  · exact .inl (ends_addProduction_open sound fits.1 fits.2 action label).of_leaves
  · have ended : Ends (close start) g (fun _ g' => g'.Open ∨ Complete g')
        fun g' => g'.Open ∨ Complete g' :=
      (ends_close_of_open sound start).mono (fun _ _ ⟨_, closed⟩ => .inr closed.complete)
        fun _ h => .inl h
    exact ended.of_leaves

/-- A call on a settled grammar makes it grow at most. -/
theorem Settled.grows_after {marker start : Int} (settled : g.Settled marker start) (c : Call)
    (fits : c.Fits g) : g.Grows (c.after g) := by
  rcases c.grows settled.table fits with grown | ⟨left, items, action, label, rfl⟩ | ⟨_, rfl⟩
  · exact grown
  · rw [Call.after, leaves, addProduction_of_closed settled.closed]
    exact .refl settled.table
  · rw [Call.after, leaves, close_of_closed settled.closed]
    exact .refl settled.table

theorem Complete.after (complete : Complete g) (c : Call) (fits : c.Fits g) :
    Complete (c.after g) := by
  obtain ⟨⟨marker, start, settled⟩, facts⟩ := complete
  have grown := settled.grows_after c fits
  exact ⟨⟨marker, start, grown.settled_of_settled settled⟩, grown.facts.trans facts⟩

/-- A grammar that calls make is open, or it is settled and nothing was computed yet. -/
theorem Declared.open_or_complete (declared : Declared g) : g.Open ∨ Complete g := by
  induction declared with
  | fresh => exact .inl open_fresh
  | call c _ fits ih =>
    rcases ih with sound | complete
    · exact sound.after c fits
    · exact .inr (complete.after c fits)

theorem Declared.complete (declared : Declared g) (closed : g.closed = true) : Complete g := by
  rcases declared.open_or_complete with sound | complete
  · rw [sound.closed] at closed
    cases closed
  · exact complete

theorem Declared.calls {cs : List Call} (declared : Declared g) (fits : ∀ c ∈ cs, ∀ g, c.Fits g) :
    Declared (cs.foldl Call.after g) := by
  induction cs generalizing g with
  | nil => exact declared
  | cons c cs ih =>
    obtain ⟨first, later⟩ := List.forall_mem_cons.1 fits
    exact ih (declared.call c (first g)) later

/-- Assignments between places that pointers lead to, with an action inside and one at the end. -/
def pointerCalls : List Call :=
  [.declareTerminal "*", .declareTerminal "=", .declareTerminal "id", .newAction "target" false,
    .addProduction "S" [.name "L", .name "%action1", .name "=", .name "R"] none none,
    .addProduction "S" [.name "R"] none none,
    .addProduction "L" [.name "*", .name "R"] none none,
    .addProduction "L" [.name "id"] none none,
    .addProduction "R" [.name "L"] (some "load") none,
    .close none]

def pointers : Grammar := pointerCalls.foldl Call.after .fresh

theorem declared_pointers : Declared pointers :=
  Declared.fresh.calls (by simp [pointerCalls, Call.Fits, RightSymbol.Fits, startMarkerName])

theorem closed_pointers : pointers.closed = true := by decide +kernel

theorem idOfStart_pointers : pointers.idOfStart = .ok 7 := by decide +kernel

end ParserGenerator.Grammar
