import ParserGenerator.Proofs.Analysis.Barred
import ParserGenerator.Proofs.LR.Bookkeeping

/-!
# Questions asked before a grammar is closed

A question about an open symbol settles all symbols by the productions that there are then, and what is
settled stays. So whoever is answered in the negative is refused for good: later productions of it count for
nothing. The analysis of the closed grammar says of a nonterminal whether it derives the empty word past those
that were refused, which is the truth about all nonterminals exactly if none of the refused ones derives it.
-/

namespace ParserGenerator.Grammar

open Build

variable {g g' : Grammar} {refused : Int → Prop} {answers : IdMap Bool} {id : Int}

/-- What is done to a grammar: something is called, or it is asked whether a symbol vanishes. -/
inductive Deed where
  | call (c : Call)
  | ask (id : Int)

/-- The question has no answer yet, and it gets one. -/
def Resolves (g : Grammar) (id : Int) : Prop := g.facts.isSettled id = false ∧ ∃ b g', isNullable id g = .ok b g'

namespace Deed

/-- The grammar behind a deed, also behind one that fails. -/
def after (g : Grammar) : Deed → Grammar
  | call c => c.after g
  | ask id => leaves (isNullable id) g

/-- The deed is no attempt to close the grammar. -/
def Drafts : Deed → Prop
  | call (.close _) => False
  | _ => True

/-- What is refused behind a deed. A question that gets a new answer refuses every nonterminal that does not
derive the empty word past those that were refused before. -/
def refuses (g : Grammar) (refused : Int → Prop) : Deed → Int → Prop
  | call _, x => refused x
  | ask id, x => refused x ∨ g.Resolves id ∧ g.isNonterminal x = true ∧ ¬ g.DerivesPast refused [x] []

end Deed

/-- What is refused behind some deeds. -/
def refusedBehind (g : Grammar) (refused : Int → Prop) : List Deed → Int → Prop
  | [] => refused
  | d :: ds => refusedBehind (d.after g) (d.refuses g refused) ds

/-- What some deeds on the empty grammar refuse. -/
def refusedBy (ds : List Deed) : Int → Prop := refusedBehind .fresh (fun _ => False) ds

/-! ## What a grammar keeps while questions are asked -/

/-- The answers so far are right past the nonterminals that were refused. -/
structure Fair (refused : Int → Prop) (g : Grammar) : Prop where
  told : g.Told refused g.facts.nullable
  nonterminals : ∀ {x}, refused x → g.isNonterminal x = true

theorem Fair.broaden (fair : Fair refused g) (h : g.Broader g') (facts : g'.facts = g.facts) : Fair refused g' where
  told := facts ▸ h.told fair.nonterminals fair.told
  nonterminals refused := h.nonterminal (fair.nonterminals refused)

/-- An open grammar of which questions were asked. -/
structure Questioned (refused : Int → Prop) (g : Grammar) : Prop extends Fair refused g where
  table : g.symbols.Lawful
  opened : g.closed = false
  next : 0 < g.nextNumber
  kinds : ∀ {id s}, g.symbols.at? id = some s → s.kind ≠ .node
  positive : ∀ {n p}, g.byNumber.get? n = some p → 0 < n
  left : ∀ {n p}, g.byNumber.get? n = some p → g.isNonterminal p.left = true

theorem Extended.broader (h : g.Extended g') : g.Broader g' := by
  refine broader_of_old (fun at_s known => ?_) fun hp => h.byNumber ▸ hp
  obtain ⟨s', at_s', -, same⟩ := h.symbols.keeps at_s known
  exact ⟨s', at_s', same⟩

theorem broader_withProduction {p : Production} {s : Symbol} (seated : g.symbols.Seated)
    (absent : g.byNumber.get? p.number = none) (at_s : g.symbols.at? p.left = some s) :
    g.Broader (g.withProduction p s) := by
  refine broader_of_old (fun at_x _ => ?_) (get?_withProduction_of_absent absent)
  obtain ⟨y, at_y, -, same⟩ := old_withProduction seated at_s at_x
  exact ⟨y, at_y, same⟩

theorem Extended.kinds (h : g.Extended g') (kinds : ∀ {id s}, g.symbols.at? id = some s → s.kind ≠ .node)
    {s' : Symbol} (at_s' : g'.symbols.at? id = some s') : s'.kind ≠ .node := by
  rcases h.symbols.origin at_s' with ⟨s, at_s, -, -, same | ⟨-, declarable⟩⟩ | ⟨-, -, declarable, -⟩
  · exact same ▸ kinds at_s
  · exact declarable.2
  · exact declarable.2

theorem upheld_questioned : Upheld (Questioned refused) where
  table questioned := questioned.table
  opened questioned := questioned.opened
  next questioned := questioned.next
  extend {g g'} questioned h := {
    questioned.toFair.broaden h.broader h.facts with
    table := h.lawful
    opened := h.closed.trans questioned.opened
    next := h.nextNumber ▸ questioned.next
    kinds := h.kinds questioned.kinds
    positive := fun hp => questioned.positive (h.byNumber ▸ hp)
    left := fun hp => h.broader.nonterminal (questioned.left (h.byNumber ▸ hp)) }
  numbered {g next} questioned positive start := by
    have broader : g.Broader { g with nextNumber := next, start := start } :=
      broader_of_old (fun at_s _ => ⟨_, at_s, rfl⟩) fun hp => hp
    exact {
      questioned.toFair.broaden broader rfl with
      table := questioned.table
      opened := questioned.opened
      next := positive
      kinds := questioned.kinds
      positive := questioned.positive
      left := questioned.left }
  withProduction {g p s} questioned absent at_s kind number := by
    have broader := broader_withProduction questioned.table.seated absent at_s
    have place : g.symbols.at? ({ s with productions := s.productions ++ [p.number] } : Symbol).id = some s := by
      rw [questioned.table.id_eq at_s, at_s]
    have nonterminal : g.isNonterminal p.left = true := isNonterminal_iff.2 ⟨s, at_s, kind⟩
    exact {
      questioned.toFair.broaden broader rfl with
      table := questioned.table.update place rfl
      opened := questioned.opened
      next := questioned.next
      kinds := by
        intro id x at_x
        obtain ⟨y, at_y, -, same⟩ := of_withProduction questioned.table.seated at_s at_x
        exact same ▸ questioned.kinds at_y
      positive := by
        intro n q hq
        rw [get?_withProduction] at hq
        split at hq
        · rename_i same
          exact same ▸ number
        · exact questioned.positive hq
      left := by
        intro n q hq
        rw [get?_withProduction] at hq
        split at hq
        · cases hq
          exact broader.nonterminal nonterminal
        · exact broader.nonterminal (questioned.left hq) }

theorem questioned_fresh : Questioned (fun _ => False) .fresh where
  told := ⟨nofun, nofun, False.elim⟩
  nonterminals := False.elim
  table := SymbolTable.lawful_fresh
  opened := rfl
  next := Int.zero_lt_one
  kinds at_s := by
    rcases open_fresh.kinds at_s with ⟨kind, -⟩ | ⟨declarable, -⟩
    · rw [kind]
      exact nofun
    · exact declarable.2
  positive := nofun
  left := nofun

/-- Other answers are no other symbols or productions. -/
theorem Questioned.knowing {refused' : Int → Prop} (questioned : Questioned refused g)
    (nonterminals : ∀ {x}, refused' x → g.isNonterminal x = true) (told : g.Told refused' answers) :
    Questioned refused' (g.knowing answers) where
  told := (broader_of_old (fun at_s _ => ⟨_, at_s, rfl⟩) fun hp => hp : g.Broader (g.knowing answers)).told
    nonterminals told
  nonterminals := nonterminals
  table := questioned.table
  opened := questioned.opened
  next := questioned.next
  kinds := questioned.kinds
  positive := questioned.positive
  left := questioned.left

/-- Only a question that gets a new answer refuses something. -/
theorem Deed.refuses_ask_of_not_resolves (stays : ¬ g.Resolves id) : (ask id).refuses g refused = refused :=
  funext fun _ => propext (or_iff_left fun h => stays h.1)

theorem Deed.refuses_ask (resolves : g.Resolves id) : (ask id).refuses g refused =
    fun x => refused x ∨ g.isNonterminal x = true ∧ ¬ g.VanishesPast refused x := by
  funext x
  refine propext (or_congr_right ⟨?_, ?_⟩)
  · rintro ⟨-, nonterminal, stays⟩
    exact ⟨nonterminal, by rwa [derivesPast_nil_iff nonterminal] at stays⟩
  · rintro ⟨nonterminal, stays⟩
    exact ⟨resolves, nonterminal, by rwa [derivesPast_nil_iff nonterminal]⟩

theorem Questioned.ask (questioned : Questioned refused g) (id : Int) :
    Questioned ((Deed.ask id).refuses g refused) ((Deed.ask id).after g) := by
  have ended := ends_isNullable questioned.table questioned.told id
  rw [Ends] at ended
  rw [Deed.after, leaves]
  cases answer : isNullable id g with
  | error e g' =>
    rw [answer] at ended
    obtain ⟨answers, rfl, told⟩ := ended
    have stays : ¬ g.Resolves id := by
      rintro ⟨-, b, g', given⟩
      cases answer.symm.trans given
    rw [Deed.refuses_ask_of_not_resolves stays]
    exact questioned.knowing questioned.nonterminals told
  | ok b g' =>
    rw [answer] at ended
    rcases ended with ⟨given, rfl⟩ | ⟨unsettled, answers, rfl, resolved⟩
    · have stays : ¬ g'.Resolves id := by
        rintro ⟨unsettled, -⟩
        rw [isSettled_iff.2 ⟨b, given⟩] at unsettled
        cases unsettled
      rw [Deed.refuses_ask_of_not_resolves stays]
      exact questioned
    · rw [Deed.refuses_ask ⟨unsettled, b, _, answer⟩]
      exact questioned.knowing (fun refused => refused.elim questioned.nonterminals And.left)
        (resolved.told questioned.nonterminals)

theorem Questioned.call (questioned : Questioned refused g) {c : Call} (drafts : (Deed.call c).Drafts) :
    Questioned refused (c.after g) := by
  have keeps : ∀ {α : Type} {x : Build α} {done : α → Grammar → Prop},
      Ends x g (fun a g' => g.Extended g' ∧ done a g') g.Extended → Questioned refused (leaves x g) :=
    fun ended => (ended.mono (fun _ _ h => upheld_questioned.extend questioned h.1)
      fun _ => upheld_questioned.extend questioned).of_leaves
  cases c with
  | declareTerminal name => exact keeps (carried_extended.declareTerminal questioned.table trivial)
  | declareNonterminal name initialiser =>
    exact keeps (carried_extended.declareNonterminal questioned.table trivial initialiser)
  | declarePrecedence associativity labels =>
    exact keeps ((carried_extended.declarePrecedence questioned.table associativity labels).mono
      (fun _ _ h => ⟨h, trivial⟩) fun _ h => h)
  | newAction text trailing =>
    exact keeps (carried_extended.newAction questioned.table text trailing fun _ => trivial)
  | addProduction left items action label =>
    exact (upheld_questioned.addProduction questioned left items action label).of_leaves
  | close start => exact drafts.elim

/-- Behind a deed the answers are right past what is refused then. -/
theorem Questioned.after (questioned : Questioned refused g) {d : Deed} (drafts : d.Drafts) :
    Questioned (d.refuses g refused) (d.after g) := by
  cases d with
  | call c => exact questioned.call drafts
  | ask id => exact questioned.ask id

theorem Questioned.behind (questioned : Questioned refused g) {ds : List Deed} (draft : ∀ d ∈ ds, d.Drafts) :
    Questioned (refusedBehind g refused ds) (ds.foldl Deed.after g) := by
  induction ds generalizing g refused with
  | nil => exact questioned
  | cons d ds ih =>
    obtain ⟨first, later⟩ := List.forall_mem_cons.1 draft
    exact ih (questioned.after first) later

/-! ## Closing -/

section Sealed

variable {p : Production} {m : Symbol} (ps : Array Production) (lawful : g.symbols.Lawful)
  (at_m : g.symbols.at? p.left = some m)
include lawful at_m

theorem lawful_sealed : ((g.withProduction p m).sealed ps).symbols.Lawful := by
  have place : g.symbols.at? ({ m with productions := m.productions ++ [p.number] } : Symbol).id = some m := by
    rw [lawful.id_eq at_m, at_m]
  have updated := lawful.update place rfl
  exact ⟨updated.id_eq, updated.name_inj, updated.endMarker, updated.dense⟩

theorem old_sealed {x : Symbol} (at_x : g.symbols.at? id = some x) :
    ∃ y, ((g.withProduction p m).sealed ps).symbols.at? id = some y ∧ y.name = x.name ∧ y.kind = x.kind :=
  old_withProduction lawful.seated at_m at_x

theorem finds_sealed {x : Symbol} (at_x : g.symbols.at? id = some x) :
    Finds ((g.withProduction p m).sealed ps) (((g.withProduction p m).sealed ps).symbols.idOf x.name) := by
  obtain ⟨y, at_y, named, -⟩ := old_sealed ps lawful at_m at_x
  exact ⟨id, y, (lawful_sealed ps lawful at_m).idOf_eq_ok.2 ⟨y, at_y, named⟩, at_y⟩

/-- With one more production a grammar can be analysed once it is closed, if its symbols may stand in
productions and the start marker and the start symbol are registered. -/
theorem analysable_sealed (kinds : ∀ {id s}, g.symbols.at? id = some s → Derivable s)
    (left : ∀ {n q}, g.byNumber.get? n = some q → ∃ s, g.symbols.at? q.left = some s)
    (right : ∀ {n q}, g.byNumber.get? n = some q → ∀ id ∈ q.right, ∃ s, g.symbols.at? id = some s)
    (own : ∀ id ∈ p.right, ∃ s, g.symbols.at? id = some s) (marker : m.name = startMarkerName)
    (start : ∃ id s, g.symbols.at? id = some s ∧ g.start = some s.name) :
    ((g.withProduction p m).sealed ps).Analysable := by
  -- A production is the new one, or it was there before.
  have productions {n : Int} {q : Production} (hq : ((g.withProduction p m).sealed ps).byNumber.get? n = some q) :
      p = q ∨ g.byNumber.get? n = some q := by
    rw [show ((g.withProduction p m).sealed ps).byNumber = (g.withProduction p m).byNumber from rfl,
      get?_withProduction] at hq
    split at hq
    · exact .inl (Option.some.inj hq)
    · exact .inr hq
  have registered {id : Int} : (∃ x, g.symbols.at? id = some x) →
      ∃ y, ((g.withProduction p m).sealed ps).symbols.at? id = some y := by
    rintro ⟨x, at_x⟩
    obtain ⟨y, at_y, -⟩ := old_sealed ps lawful at_m at_x
    exact ⟨y, at_y⟩
  refine ⟨⟨?_, ?_, ?_⟩, lawful_sealed ps lawful at_m, rfl, ?_, ?_⟩
  · intro id y at_y
    obtain ⟨x, at_x, -, same⟩ := of_withProduction lawful.seated at_m at_y
    rw [Derivable, same]
    exact kinds at_x
  · intro n q hq
    rcases productions hq with rfl | before
    · exact registered ⟨m, at_m⟩
    · exact registered (left before)
  · intro n q hq id mem
    rcases productions hq with rfl | before
    · exact registered (own id mem)
    · exact registered (right before id mem)
  · have found := finds_sealed ps lawful at_m at_m
    rwa [marker] at found
  · obtain ⟨id, s, at_s, chosen⟩ := start
    have same : ((g.withProduction p m).sealed ps).start = some s.name := chosen
    rw [idOfStart, same]
    exact finds_sealed ps lawful at_m at_s

end Sealed

theorem Questioned.get?_zero (questioned : Questioned refused g) : g.byNumber.get? 0 = none := by
  rw [Option.eq_none_iff_forall_ne_some]
  exact fun p hp => absurd (questioned.positive hp) (Int.lt_irrefl 0)

/-- The start marker is registered, and the grammar gets the production 0. -/
theorem Questioned.markStart (questioned : Questioned refused g)
    (known : ∀ {id s}, g.symbols.at? id = some s → s.kind ≠ .unknown) (s : Symbol) :
    Ends (markStart s) g (fun _ g' => ∃ h m, Questioned refused h ∧ g.Extended h ∧ h.start = g.start ∧
      (∀ {id x}, h.symbols.at? id = some x → x.kind ≠ .unknown) ∧ h.symbols.at? m.id = some m ∧
      m.name = startMarkerName ∧ g' = h.withProduction ⟨0, m.id, [s.id], none, none⟩ m) (fun _ => True) := by
  have unmarked : (!g.byNumber.contains 0) = true := by
    rw [OrderedMap.contains, questioned.get?_zero]
    rfl
  rw [Grammar.markStart]
  apply ends_get_bind
  rw [if_pos unmarked]
  cases resolved : resolve startMarkerName .nonterminal g with
  | error e g' =>
    rw [Ends, bind_of_error resolved]
    trivial
  | ok m h =>
    have ended : Ends (resolve startMarkerName .nonterminal) g _ _ :=
      carried_extended.resolve questioned.table declarable_nonterminal trivial
    obtain ⟨extended, at_m, named⟩ := ended.of_ok resolved
    obtain ⟨t, looked, rfl⟩ := onSymbols_eq_ok.1 resolved
    have questioned' := upheld_questioned.extend questioned extended
    rw [Ends, bind_of_ok resolved, register_eq (p := ⟨0, m.id, [s.id], none, none⟩) questioned'.get?_zero at_m]
    refine ⟨_, m, questioned', extended, rfl, ?_, at_m, named, rfl⟩
    intro id x at_x
    rcases questioned.table.origin_of_resolve looked at_x with ⟨y, at_y, -, same⟩ | ⟨-, same⟩
    · exact same ▸ known at_y
    · rw [same]
      decide

theorem Questioned.closeOver (questioned : Questioned refused g) {name : String} (chosen : g.start = some name) :
    Ends (closeOver name) g (fun _ g' => g'.Analysable ∧ Fair refused g') (fun _ => True) := by
  have query {α : Type} (look : Grammar → Except Error α) (g : Grammar) :
      Ends (query look) g (fun a g' => look g = .ok a ∧ g' = g) (fun _ => True) :=
    ends_query.mono (fun _ _ h => h) fun _ _ => trivial
  unfold Grammar.closeOver
  apply ends_bind (query _ _)
  rintro _ g ⟨used, rfl⟩
  apply ends_bind (query _ _)
  rintro _ g ⟨checked, rfl⟩
  apply ends_bind (query _ _)
  rintro s g ⟨start, rfl⟩
  obtain ⟨at_s, named⟩ := startSymbol_eq_ok questioned.table start
  have known {id : Int} {x : Symbol} (at_x : g.symbols.at? id = some x) : x.kind ≠ .unknown :=
    (checkSymbol_eq_ok (Attempt.forM_eq_ok.1 checked x (SymbolTable.mem_symbols.2 ⟨_, at_x⟩))).1
  apply ends_get_bind
  -- Labels change nothing but the precedences of terminals.
  have labelled := ends_applyLabels_keeping (g.GrowsBy fun _ _ => False) (fun grown => grown.lawful.seated)
    (fun grown at_s named filed kind => grown.trans (growsBy_update grown.lawful at_s named filed kind))
    g.labels.nodup (.refl questioned.table)
  apply ends_bind (labelled.mono (fun _ _ h => h.1) fun _ _ => trivial)
  rintro - g₁ grown
  have extended : g.Extended g₁ := ⟨grown.lawful, grown.extended, grown.byNumber, grown.productions, grown.nextNumber,
    grown.closed, grown.facts⟩
  have questioned₁ := upheld_questioned.extend questioned extended
  have known₁ {id : Int} {x : Symbol} (at_x : g₁.symbols.at? id = some x) : x.kind ≠ .unknown := by
    obtain ⟨y, at_y, -, same⟩ := (grown.origin at_x).resolve_right not_false
    exact same ▸ known at_y
  apply ends_bind (questioned₁.markStart known₁ s)
  rintro - g₂ ⟨h, m, questioned₂, extended₂, start₂, known₂, at_m, marker, rfl⟩
  apply ends_bind (query _ _)
  rintro ps _ ⟨-, rfl⟩
  have registered {id : Int} {x : Symbol} (at_x : g.symbols.at? id = some x) :
      ∃ y, h.symbols.at? id = some y ∧ y.name = x.name := by
    obtain ⟨y, at_y, named, -⟩ := (extended.symbols.trans extended₂.symbols).old at_x
    exact ⟨y, at_y, named⟩
  have left {n : Int} {p : Production} (hp : h.byNumber.get? n = some p) : ∃ x, h.symbols.at? p.left = some x := by
    obtain ⟨x, at_x, -⟩ := isNonterminal_iff.1 (questioned₂.left hp)
    exact ⟨x, at_x⟩
  have right {n : Int} {p : Production} (hp : h.byNumber.get? n = some p) :
      ∀ id ∈ p.right, ∃ x, h.symbols.at? id = some x := by
    intro id mem
    rw [extended₂.byNumber, extended.byNumber] at hp
    have passed := Attempt.forM_eq_ok.1 used p (OrderedMap.mem_values.2 ⟨n, hp⟩)
    obtain ⟨y, found, -⟩ := Attempt.bind_eq_ok.1 (Attempt.forM_eq_ok.1 passed id mem)
    obtain ⟨z, at_z, -⟩ := registered (SymbolTable.at?_of_symbol found)
    exact ⟨z, at_z⟩
  obtain ⟨x, at_x, same⟩ := registered at_s
  have filed := broader_withProduction (p := ⟨0, m.id, [s.id], none, none⟩) questioned₂.table.seated
    questioned₂.get?_zero at_m
  refine ends_modify ⟨analysable_sealed ps questioned₂.table at_m (fun at_y => ⟨known₂ at_y, questioned₂.kinds at_y⟩)
    left right ?_ marker ⟨s.id, x, at_x, ?_⟩,
    questioned₂.toFair.broaden ⟨filed.input, filed.action, filed.nonterminal, filed.byNumber⟩ rfl⟩
  · intro id mem
    exact ⟨x, List.mem_singleton.1 mem ▸ at_x⟩
  · rw [start₂, grown.start, chosen, same, named]

theorem Questioned.close (questioned : Questioned refused g) (start : Option String) :
    Ends (close start) g (fun _ g' => g'.Analysable ∧ Fair refused g') (fun _ => True) := by
  rw [Grammar.close]
  apply ends_get_bind
  rw [if_neg (by rw [questioned.opened]; exact Bool.false_ne_true)]
  apply ends_modify_bind
  apply ends_get_bind
  have renamed := upheld_questioned.numbered questioned questioned.next (start <|> g.start)
  generalize (start <|> g.start) = chosen at renamed ⊢
  cases chosen with
  | none => exact ends_throw trivial
  | some name => exact renamed.closeOver rfl

/-! ## The analysis behind questions -/

/-- Calls and questions in any order, of which some may fail, and then a call that closes the grammar: the
analysis succeeds, and it takes a nonterminal for one that derives the empty word exactly if it does past all
that the questions refused. That is right about all nonterminals exactly if no refused one derives the empty
word by the productions that there are in the end. -/
theorem analysis_behind_questions {ds : List Deed} {start : Option String} (draft : ∀ d ∈ ds, d.Drafts)
    (closed : close start (ds.foldl Deed.after .fresh) = .ok () g) :
    ∃ passes g', analyze g = .ok passes g' ∧
      (∀ id, g.isNonterminal id = true →
        (g'.facts.isNullable id = true ↔ g.DerivesPast (refusedBy ds) [id] [])) ∧
      ((∀ id, g.isNonterminal id = true →
          (g'.facts.isNullable id = true ↔ g.DerivesPast (fun _ => False) [id] [])) ↔
        ∀ x, refusedBy ds x → ¬ g.DerivesPast (fun _ => False) [x] []) := by
  have questioned : Questioned (refusedBy ds) _ := questioned_fresh.behind draft
  obtain ⟨analysable, fair⟩ := (questioned.close start).of_ok closed
  obtain ⟨passes, g', analyzed, answers⟩ := (analysable.ends_analyze fair.told).exists_ok
  refine ⟨passes, g', analyzed, fun id nonterminal => ?_, ?_⟩
  · rw [answers nonterminal, derivesPast_nil_iff nonterminal]
  · have stays : (∀ x, refusedBy ds x → ¬ g.DerivesPast (fun _ => False) [x] []) ↔
        ∀ x, refusedBy ds x → ¬ g.VanishesPast (fun _ => False) x :=
      forall₂_congr fun x refused => not_congr (derivesPast_nil_iff (fair.nonterminals refused))
    rw [stays, ← vanishesPast_iff_of_stays fair.nonterminals]
    refine forall₂_congr fun id nonterminal => ?_
    rw [answers nonterminal, derivesPast_nil_iff nonterminal]

/-- A nonterminal gets its empty production behind a question about it. -/
def lateDeeds : List Deed :=
  [.call (.declareTerminal "x"), .call (.addProduction "S" [.name "x"] none none), .ask 4,
    .call (.addProduction "S" [] none none)]

def lateEmpty : Grammar := leaves (close none) (lateDeeds.foldl Deed.after .fresh)

theorem draft_lateDeeds : ∀ d ∈ lateDeeds, d.Drafts := by simp [lateDeeds, Deed.Drafts]

theorem close_lateDeeds : close none (lateDeeds.foldl Deed.after .fresh) = .ok () lateEmpty := by
  have ended : Ends (close none) (lateDeeds.foldl Deed.after .fresh) (fun _ _ => True) (fun _ => False) := by
    decide +kernel
  exact ended.ok_leaves.choose_spec

theorem analysis_behind_questions_lateDeeds : (∀ d ∈ lateDeeds, d.Drafts) ∧
    close none (lateDeeds.foldl Deed.after .fresh) = .ok () lateEmpty ∧
    ∃ passes g', analyze lateEmpty = .ok passes g' ∧
      (∀ id, lateEmpty.isNonterminal id = true →
        (g'.facts.isNullable id = true ↔ lateEmpty.DerivesPast (refusedBy lateDeeds) [id] [])) ∧
      ((∀ id, lateEmpty.isNonterminal id = true →
          (g'.facts.isNullable id = true ↔ lateEmpty.DerivesPast (fun _ => False) [id] [])) ↔
        ∀ x, refusedBy lateDeeds x → ¬ lateEmpty.DerivesPast (fun _ => False) [x] []) :=
  ⟨draft_lateDeeds, close_lateDeeds, analysis_behind_questions draft_lateDeeds close_lateDeeds⟩

/-- The question makes the analysis deny that the nonterminal derives the empty word, which it does. -/
theorem analysis_spoiled : ¬ ∀ (ds : List Deed) (start : Option String) (g g' : Grammar)
    (passes : List (List (Int × Nat))), (∀ d ∈ ds, d.Drafts) →
    close start (ds.foldl Deed.after .fresh) = .ok () g → analyze g = .ok passes g' →
    ∀ id, g.isNonterminal id = true →
      (g'.facts.isNullable id = true ↔ g.DerivesPast (fun _ => False) [id] []) := by
  intro right
  have ended : Ends analyze lateEmpty (fun _ _ => True) (fun _ => False) := by decide +kernel
  obtain ⟨passes, analyzed⟩ := ended.ok_leaves
  have nonterminal : lateEmpty.isNonterminal 4 = true := by decide +kernel
  have production : lateEmpty.byNumber.get? 2 = some ⟨2, 4, [], none, none⟩ := by decide +kernel
  have derives : lateEmpty.DerivesPast (fun _ => False) [4] [] :=
    .single (.rule [] [] production nonterminal not_false)
  have denied : (leaves analyze lateEmpty).facts.isNullable 4 = false := by decide +kernel
  have told := (right lateDeeds none lateEmpty _ passes draft_lateDeeds close_lateDeeds analyzed 4 nonterminal).2 derives
  cases denied.symm.trans told

end ParserGenerator.Grammar
