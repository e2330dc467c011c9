import ParserGenerator.Analysis.Nullable
import ParserGenerator.Proofs.Grammar.Build
import ParserGenerator.Proofs.Grammar.Derivation
import Mathlib.Tactic.ByContra

/-!
# How it is settled which symbols vanish

An answer that was settled before stays. Symbols that were answered in the negative are barred: their
productions release nothing any more. What is found besides vanishes by the productions of the others.
While the effect of found symbols spreads, a production whose left-hand side is not yet settled waits for at
least one symbol, and every found symbol that it still waits for is among those whose effect is to come. Once
none is to come, a symbol that was not found does not vanish past the barred ones. A grammar with a symbol of
which nothing is known stops all this with some answers given, and those are right as well.
-/

namespace ParserGenerator.Grammar

open Build

variable {g : Grammar} {barred : Int → Prop} {answers : IdMap Bool} {found : List Int}
  {waiting : List Waiting} {id : Int} {s : Symbol}

/-- The symbol derives the empty word by productions of nonterminals that are not barred. -/
inductive VanishesPast (g : Grammar) (barred : Int → Prop) : Int → Prop
  | action {id : Int} : g.isAction id = true → VanishesPast g barred id
  | rule {n : Int} {p : Production} : g.byNumber.get? n = some p → g.isNonterminal p.left = true →
      ¬ barred p.left → (∀ id ∈ p.right, VanishesPast g barred id) → VanishesPast g barred p.left

/-- The grammar with the given answers. -/
def knowing (g : Grammar) (answers : IdMap Bool) : Grammar :=
  { g with facts := { g.facts with nullable := answers } }

theorem isNullable_iff {f : Facts} : f.isNullable id = true ↔ f.nullable.get? id = some true := by
  rw [Facts.isNullable, IdMap.getD]
  cases f.nullable.get? id with
  | none => exact ⟨nofun, nofun⟩
  | some b => exact ⟨congrArg some, Option.some.inj⟩

theorem isSettled_iff {f : Facts} : f.isSettled id = true ↔ ∃ b, f.nullable.get? id = some b :=
  Option.isSome_iff_exists

theorem get?_eq_none_of_isSettled {f : Facts} (unsettled : ¬ f.isSettled id = true) :
    f.nullable.get? id = none := by
  rw [Option.eq_none_iff_forall_ne_some]
  exact fun b given => unsettled (isSettled_iff.2 ⟨b, given⟩)

theorem get?_insert_of_unsettled {b b' : Bool} {x : Int} (unsettled : answers.get? id = none)
    (given : answers.get? x = some b) : (answers.insert id b').get? x = some b := by
  rw [IdMap.get?_insert]
  split
  · rename_i eq
    rw [← eq, unsettled] at given
    cases given
  · exact given

theorem VanishesPast.not_input (h : g.VanishesPast barred id) : ¬ g.isInput id = true := by
  intro input
  cases h with
  | action action =>
    rw [isAction_of_isInput input] at action
    cases action
  | rule _ nonterminal _ _ =>
    rw [isInput_of_isNonterminal nonterminal] at input
    cases input

theorem VanishesPast.not_barred (h : g.VanishesPast barred id) (plain : g.isAction id = false) : ¬ barred id := by
  cases h with
  | action action =>
    rw [plain] at action
    cases action
  | rule _ _ free _ => exact free

/-! ## Kinds -/

/-- The symbol may stand in productions. -/
def Derivable (s : Symbol) : Prop := s.kind ≠ .unknown ∧ s.kind ≠ .node

instance (s : Symbol) : Decidable (Derivable s) := inferInstanceAs (Decidable (_ ∧ _))

/-- All symbols may stand in productions, and productions are made of registered symbols. -/
structure Readable (g : Grammar) : Prop where
  kinds : ∀ {id s}, g.symbols.at? id = some s → Derivable s
  left : ∀ {n p}, g.byNumber.get? n = some p → ∃ s, g.symbols.at? p.left = some s
  right : ∀ {n p}, g.byNumber.get? n = some p → ∀ id ∈ p.right, ∃ s, g.symbols.at? id = some s

theorem derivationKind_eq (at_s : g.symbols.at? id = some s) (derivable : Derivable s) :
    g.derivationKind id = .ok s.kind := by
  have found : g.symbols.symbol id = .ok s := SymbolTable.symbol_eq_ok at_s
  rw [derivationKind, found]
  simp only [bind, Except.bind]
  cases kind : s.kind with
  | unknown => exact absurd kind derivable.1
  | node => exact absurd kind derivable.2
  | _ => rfl

/-- Of a symbol that is not registered or may not stand in productions there is no kind. -/
theorem derivationKind_cases (g : Grammar) (id : Int) :
    (∃ s, g.symbols.at? id = some s ∧ Derivable s ∧ g.derivationKind id = .ok s.kind) ∨
      (∃ e, g.derivationKind id = .error e) ∧ ∀ s, g.symbols.at? id = some s → ¬ Derivable s := by
  cases registered : g.symbols.at? id with
  | some s =>
    by_cases derivable : Derivable s
    · exact .inl ⟨s, rfl, derivable, derivationKind_eq registered derivable⟩
    · refine .inr ⟨?_, fun x same => Option.some.inj same ▸ derivable⟩
      have found : g.symbols.symbol id = .ok s := SymbolTable.symbol_eq_ok registered
      rw [derivationKind, found]
      simp only [bind, Except.bind]
      rw [Derivable, not_and_or, not_not, not_not] at derivable
      rcases derivable with kind | kind <;> exact kind ▸ ⟨_, rfl⟩
  | none =>
    refine .inr ⟨⟨.missing (.id id), ?_⟩, nofun⟩
    rw [derivationKind, SymbolTable.symbol, registered]
    rfl

theorem Derivable.cases_kind (derivable : Derivable s) (at_s : g.symbols.at? id = some s) :
    s.isInput = true ∨ s.isAction = true ∨ g.isNonterminal id = true := by
  rw [Symbol.isInput, Symbol.isAction, isNonterminal_iff]
  cases kind : s.kind with
  | unknown => exact absurd kind derivable.1
  | node => exact absurd kind derivable.2
  | nonterminal => exact .inr (.inr ⟨s, at_s, kind⟩)
  | terminal | endMarker => exact .inl rfl
  | innerAction | trailingAction => exact .inr (.inl rfl)

/-! ## Answers -/

/-- Barred symbols have a negative answer. The other negative answers are those of symbols that can be read,
and what has a positive one vanishes past the barred symbols. -/
structure Told (g : Grammar) (barred : Int → Prop) (answers : IdMap Bool) : Prop where
  granted : ∀ {id}, answers.get? id = some true → g.VanishesPast barred id
  denied : ∀ {id}, answers.get? id = some false → barred id ∨ g.isInput id = true
  refused : ∀ {id}, barred id → answers.get? id = some false ∧ g.isAction id = false

namespace Told

theorem truthful (told : g.Told barred answers) {b : Bool} (given : answers.get? id = some b) :
    b = true ↔ g.VanishesPast barred id := by
  cases b with
  | true => exact iff_of_true rfl (told.granted given)
  | false =>
    refine iff_of_false Bool.false_ne_true fun vanishes => ?_
    rcases told.denied given with refused | input
    · exact vanishes.not_barred (told.refused refused).2 refused
    · exact vanishes.not_input input

theorem insert_true (told : g.Told barred answers) (unsettled : answers.get? id = none)
    (vanishes : g.VanishesPast barred id) : g.Told barred (answers.insert id true) where
  granted := by
    intro x given
    rw [IdMap.get?_insert] at given
    split at given
    · rename_i same
      exact same ▸ vanishes
    · exact told.granted given
  denied := by
    intro x given
    rw [IdMap.get?_insert] at given
    split at given
    · cases given
    · exact told.denied given
  refused := fun refused => ⟨get?_insert_of_unsettled unsettled (told.refused refused).1, (told.refused refused).2⟩

theorem insert_false (told : g.Told barred answers) (unsettled : answers.get? id = none)
    (input : g.isInput id = true) : g.Told barred (answers.insert id false) where
  granted := by
    intro x given
    rw [IdMap.get?_insert] at given
    split at given
    · cases given
    · exact told.granted given
  denied := by
    intro x given
    rw [IdMap.get?_insert] at given
    split at given
    · rename_i same
      exact .inr (same ▸ input)
    · exact told.denied given
  refused := fun refused => ⟨get?_insert_of_unsettled unsettled (told.refused refused).1, (told.refused refused).2⟩

end Told

/-- What is left where some symbol or production cannot be read. -/
def Stopped (g : Grammar) (barred : Int → Prop) (g' : Grammar) : Prop :=
  ¬ g.Readable ∧ ∃ answers, g' = g.knowing answers ∧ g.Told barred answers

/-- What holds while the effect of found symbols spreads. The first property tells the symbols that are
not yet sorted by their kinds, the second the productions that are not yet taken up. -/
structure Spreading (g : Grammar) (barred : Int → Prop) (unsorted : Symbol → Prop)
    (untaken : Production → Prop) (answers : IdMap Bool) (found : List Int) (waiting : List Waiting) : Prop
    extends g.Told barred answers where
  known : ∀ id ∈ found, answers.get? id = some true
  sorted : ∀ {id s}, g.symbols.at? id = some s → unsorted s ∨
    Derivable s ∧ (s.isInput = true ∨ s.isAction = true → ∃ b, answers.get? id = some b)
  needed : ∀ w ∈ waiting, ∃ n p, g.byNumber.get? n = some p ∧ w.left = p.left ∧
    ∀ id ∈ p.right, id ∈ w.needs ∨ answers.get? id = some true
  pending : ∀ w ∈ waiting, ∀ id ∈ w.needs, answers.get? id = some true → id ∈ found
  unready : ∀ w ∈ waiting, w.needs ≠ []
  taken : ∀ {n p}, g.byNumber.get? n = some p → untaken p ∨ (∃ b, answers.get? p.left = some b) ∨
    ∃ w ∈ waiting, w.left = p.left ∧ ∀ id ∈ w.needs, id ∈ p.right

namespace Spreading

variable {unsorted unsorted' : Symbol → Prop} {untaken untaken' : Production → Prop}

theorem mono (h : g.Spreading barred unsorted untaken answers found waiting)
    (symbols : ∀ {id s}, g.symbols.at? id = some s → unsorted s → unsorted' s ∨
      Derivable s ∧ (s.isInput = true ∨ s.isAction = true → ∃ b, answers.get? id = some b))
    (productions : ∀ {n p}, g.byNumber.get? n = some p → untaken p →
      untaken' p ∨ ∃ b, answers.get? p.left = some b) :
    g.Spreading barred unsorted' untaken' answers found waiting where
  toTold := h.toTold
  known := h.known
  sorted := fun at_s => (h.sorted at_s).elim (symbols at_s) .inr
  needed := h.needed
  pending := h.pending
  unready := h.unready
  taken := by
    intro n p hp
    rcases h.taken hp with left | settled | waits
    · exact (productions hp left).elim .inl fun settled => .inr (.inl settled)
    · exact .inr (.inl settled)
    · exact .inr (.inr waits)

/-- What is found at the end is all that vanishes past the barred symbols. -/
theorem complete (h : g.Spreading barred (fun _ => False) (fun _ => False) answers [] waiting)
    (vanishes : g.VanishesPast barred id) : answers.get? id = some true := by
  -- A symbol that vanishes has a positive answer if it has any.
  have positive : ∀ {x}, g.VanishesPast barred x → (∃ b, answers.get? x = some b) → answers.get? x = some true := by
    rintro x vanishes ⟨b, given⟩
    rw [given, (h.truthful given).2 vanishes]
  induction vanishes with
  | action action =>
    obtain ⟨s, at_s, isAction⟩ := isAction_iff.1 action
    exact positive (.action action) (((h.sorted at_s).resolve_left not_false).2 (.inr isAction))
  | rule hp nonterminal free right ih =>
    rcases h.taken hp with left | settled | ⟨w, mem, -, among⟩
    · exact left.elim
    · exact positive (.rule hp nonterminal free right) settled
    · obtain ⟨id, needs⟩ := List.exists_mem_of_ne_nil _ (h.unready w mem)
      have marked := ih id (among id needs)
      exact absurd (h.pending w mem id needs marked) List.not_mem_nil

/-- What gets an answer besides the others leaves all that was reached. -/
theorem settle (h : g.Spreading barred unsorted untaken answers found waiting) {b : Bool} {found' : List Int}
    (unsettled : answers.get? id = none) (told : g.Told barred (answers.insert id b))
    (known : ∀ x ∈ found', x ∈ found ∨ x = id ∧ b = true) (pending : b = true → waiting ≠ [] → id ∈ found')
    (kept : ∀ x ∈ found, x ∈ found') :
    g.Spreading barred unsorted untaken (answers.insert id b) found' waiting where
  toTold := told
  known := by
    intro x mem
    rcases known x mem with old | ⟨rfl, rfl⟩
    · exact get?_insert_of_unsettled unsettled (h.known x old)
    · rw [IdMap.get?_insert, if_pos rfl]
  sorted := by
    intro x s at_s
    refine (h.sorted at_s).imp_right fun ⟨derivable, settled⟩ => ⟨derivable, fun kind => ?_⟩
    obtain ⟨b', given⟩ := settled kind
    exact ⟨b', get?_insert_of_unsettled unsettled given⟩
  needed := by
    intro w mem
    obtain ⟨n, p, hp, left, right⟩ := h.needed w mem
    exact ⟨n, p, hp, left, fun x hx => (right x hx).imp_right (get?_insert_of_unsettled unsettled)⟩
  pending := by
    intro w mem x needs marked
    rw [IdMap.get?_insert] at marked
    split at marked
    · rename_i same
      exact same ▸ pending (Option.some.inj marked) (List.ne_nil_of_mem mem)
    · exact kept x (h.pending w mem x needs marked)
  unready := h.unready
  taken := by
    intro n p hp
    refine (h.taken hp).imp_right fun o => o.imp_left ?_
    rintro ⟨b', given⟩
    exact ⟨b', get?_insert_of_unsettled unsettled given⟩

/-- A symbol that vanishes is marked. -/
theorem mark (h : g.Spreading barred unsorted untaken answers found waiting)
    (unsettled : answers.get? id = none) (vanishes : g.VanishesPast barred id) :
    g.Spreading barred unsorted untaken (answers.insert id true) (id :: found) waiting :=
  h.settle unsettled (h.insert_true unsettled vanishes)
    (fun _ mem => (List.mem_cons.1 mem).symm.imp_right fun same => ⟨same, rfl⟩)
    (fun _ _ => List.mem_cons_self) fun _ => List.mem_cons_of_mem _

/-- A symbol that can be read is settled as one that does not vanish. -/
theorem reject (h : g.Spreading barred unsorted untaken answers found waiting)
    (unsettled : answers.get? id = none) (input : g.isInput id = true) :
    g.Spreading barred unsorted untaken (answers.insert id false) found waiting :=
  h.settle unsettled (h.insert_false unsettled input) (fun _ => .inl) nofun fun _ mem => mem

/-- A symbol is sorted once its kind was looked at and settled if need be. -/
theorem sort (lawful : g.symbols.Lawful) {rest : List Symbol}
    (h : g.Spreading barred (· ∈ s :: rest) untaken answers found waiting) (derivable : Derivable s)
    (settled : s.isInput = true ∨ s.isAction = true → ∃ b, answers.get? s.id = some b) :
    g.Spreading barred (· ∈ rest) untaken answers found waiting := by
  apply h.mono _ fun _ left => .inl left
  intro id x at_x mem
  rcases List.mem_cons.1 mem with rfl | mem
  · rw [lawful.id_eq at_x] at settled
    exact .inr ⟨derivable, settled⟩
  · exact .inl mem

/-- A production waits for the symbols of its right-hand side that are not known to vanish. -/
theorem wait {n : Int} {p : Production} {rest : List Production} {needs : List Int}
    (hp : g.byNumber.get? n = some p)
    (h : g.Spreading barred unsorted (· ∈ p :: rest) answers found waiting)
    (mem_needs : ∀ id, id ∈ needs ↔ id ∈ p.right ∧ answers.get? id ≠ some true)
    (unready : needs ≠ []) :
    g.Spreading barred unsorted (· ∈ rest) answers found (waiting ++ [⟨needs, p.left⟩]) where
  toTold := h.toTold
  known := h.known
  sorted := h.sorted
  needed := by
    apply List.forall_mem_append.2 ⟨h.needed, List.forall_mem_singleton.2 ⟨n, p, hp, rfl, ?_⟩⟩
    intro id mem
    by_cases marked : answers.get? id = some true
    · exact .inr marked
    · exact .inl ((mem_needs id).2 ⟨mem, marked⟩)
  pending := by
    apply List.forall_mem_append.2 ⟨h.pending, List.forall_mem_singleton.2 ?_⟩
    intro id mem marked
    exact absurd marked ((mem_needs id).1 mem).2
  unready := List.forall_mem_append.2 ⟨h.unready, List.forall_mem_singleton.2 unready⟩
  taken := by
    intro m q hq
    rcases h.taken hq with mem | settled | ⟨w, mem, among⟩
    · rcases List.mem_cons.1 mem with rfl | mem
      · refine .inr (.inr ⟨_, List.mem_append_right _ List.mem_cons_self, rfl, ?_⟩)
        exact fun id mem => ((mem_needs id).1 mem).1
      · exact .inl mem
    · exact .inr (.inl settled)
    · exact .inr (.inr ⟨w, List.mem_append_left _ mem, among⟩)

/-- Once all symbols are sorted, an unsettled left-hand side is a nonterminal that is not barred. -/
theorem vanishes_left (h : g.Spreading barred (fun _ => False) untaken answers found waiting) {n : Int}
    {p : Production} (hp : g.byNumber.get? n = some p) (right : ∀ id ∈ p.right, g.VanishesPast barred id)
    (at_s : g.symbols.at? p.left = some s) (unsettled : answers.get? p.left = none) :
    g.VanishesPast barred p.left := by
  obtain ⟨derivable, settled⟩ := (h.sorted at_s).resolve_left not_false
  have open_kind : ¬ (s.isInput = true ∨ s.isAction = true) := by
    intro kind
    obtain ⟨b, given⟩ := settled kind
    rw [unsettled] at given
    cases given
  have nonterminal : g.isNonterminal p.left = true := by
    rcases derivable.cases_kind at_s with input | action | nonterminal
    · exact absurd (.inl input) open_kind
    · exact absurd (.inr action) open_kind
    · exact nonterminal
  refine .rule hp nonterminal (fun refused => ?_) right
  rw [(h.refused refused).1] at unsettled
  cases unsettled

end Spreading

theorem ends_markVanishing {unsorted : Symbol → Prop} {untaken : Production → Prop}
    (h : g.Spreading barred unsorted untaken answers found waiting)
    (unregistered : g.symbols.at? id = none → ¬ g.Readable)
    (vanishes : ∀ {s}, g.symbols.at? id = some s → answers.get? id = none → g.VanishesPast barred id) :
    Ends (markVanishing found id) (g.knowing answers)
      (fun found' g' => ∃ answers', g' = g.knowing answers' ∧
        g.Spreading barred unsorted untaken answers' found' waiting ∧ ∃ b, answers'.get? id = some b)
      (g.Stopped barred) := by
  rw [markVanishing]
  cases registered : g.symbols.at? id with
  | none =>
    have missing : (g.knowing answers).symbols.symbol id = .error (.missing (.id id)) := by
      show g.symbols.symbol id = _
      rw [SymbolTable.symbol, registered]
    rw [Ends, bind_of_error (query_of_error missing)]
    exact ⟨unregistered registered, answers, rfl, h.toTold⟩
  | some s =>
    have found_s : (g.knowing answers).symbols.symbol id = .ok s := SymbolTable.symbol_eq_ok registered
    rw [Ends, bind_of_ok (query_of_ok found_s)]
    apply ends_get_bind
    by_cases settled : (g.knowing answers).facts.isSettled id = true
    · rw [if_pos settled]
      exact ends_pure ⟨answers, rfl, h, isSettled_iff.1 settled⟩
    · rw [if_neg settled]
      have unsettled : answers.get? id = none := get?_eq_none_of_isSettled settled
      apply ends_modify_bind
      refine ends_pure ⟨answers.insert id true, rfl, h.mark unsettled (vanishes registered unsettled), true, ?_⟩
      rw [IdMap.get?_insert, if_pos rfl]

/-! ## Symbols by their kinds -/

theorem ends_settleByKind (lawful : g.symbols.Lawful) {rest : List Symbol} {untaken : Production → Prop}
    (at_s : g.symbols.at? s.id = some s)
    (h : g.Spreading barred (· ∈ s :: rest) untaken answers found []) :
    Ends (settleByKind found s) (g.knowing answers)
      (fun found' g' => ∃ answers', g' = g.knowing answers' ∧
        g.Spreading barred (· ∈ rest) untaken answers' found' [])
      (g.Stopped barred) := by
  rw [settleByKind]
  rcases derivationKind_cases (g.knowing answers) s.id with ⟨x, at_x, derivable, kind⟩ | ⟨⟨e, refused⟩, strange⟩
  case inr =>
    rw [Ends, bind_of_error (query_of_error refused)]
    exact ⟨fun readable => strange s at_s (readable.kinds at_s), answers, rfl, h.toTold⟩
  have at_x : g.symbols.at? s.id = some x := at_x
  cases at_s.symm.trans at_x
  rw [Ends, bind_of_ok (query_of_ok kind)]
  apply ends_get_bind
  by_cases known : (g.knowing answers).facts.isSettled s.id = true
  · rw [if_pos known]
    have settled : ∃ b, answers.get? s.id = some b := isSettled_iff.1 known
    by_cases nullable : (g.knowing answers).facts.isNullable s.id = true
    · rw [if_pos nullable]
      have given : answers.get? s.id = some true := isNullable_iff.1 nullable
      have pushed : g.Spreading barred (· ∈ s :: rest) untaken answers (s.id :: found) [] :=
        { h with
          known := List.forall_mem_cons.2 ⟨given, h.known⟩
          pending := List.forall_mem_nil _ }
      exact ends_pure ⟨answers, rfl, pushed.sort lawful derivable fun _ => settled⟩
    · rw [if_neg nullable]
      exact ends_pure ⟨answers, rfl, h.sort lawful derivable fun _ => settled⟩
  rw [if_neg known]
  have unsettled : answers.get? s.id = none := get?_eq_none_of_isSettled known
  by_cases input : s.kind.isInput = true
  · rw [if_pos input]
    apply ends_modify_bind
    have rejected := h.reject unsettled (isInput_iff.2 ⟨s, at_s, input⟩)
    refine ends_pure ⟨answers.insert s.id false, rfl, rejected.sort lawful derivable fun _ => ⟨false, ?_⟩⟩
    rw [IdMap.get?_insert, if_pos rfl]
  rw [if_neg input]
  by_cases action : s.kind.isAction = true
  · rw [if_pos action]
    refine (ends_markVanishing h (fun absent => ?_) fun _ _ =>
      .action (isAction_iff.2 ⟨s, at_s, action⟩)).mono ?_ fun _ stopped => stopped
    · cases at_s.symm.trans absent
    · rintro found' g' ⟨answers', rfl, h', settled⟩
      exact ⟨answers', rfl, h'.sort lawful derivable fun _ => settled⟩
  · rw [if_neg action]
    exact ends_pure ⟨answers, rfl, h.sort lawful derivable fun kind => absurd kind (not_or.2 ⟨input, action⟩)⟩

theorem ends_sortAll (lawful : g.symbols.Lawful) {rest : List Symbol} {untaken : Production → Prop}
    (registered : ∀ s ∈ rest, g.symbols.at? s.id = some s)
    (h : g.Spreading barred (· ∈ rest) untaken answers found []) :
    Ends (rest.foldlM settleByKind found) (g.knowing answers)
      (fun found' g' => ∃ answers', g' = g.knowing answers' ∧
        g.Spreading barred (fun _ => False) untaken answers' found' [])
      (g.Stopped barred) := by
  induction rest generalizing found answers with
  | nil => exact ends_pure ⟨answers, rfl, h.mono (fun _ mem => by cases mem) fun _ => .inl⟩
  | cons s rest ih =>
    rw [List.foldlM_cons]
    apply ends_bind (ends_settleByKind lawful (registered s List.mem_cons_self) h)
    rintro found' g' ⟨answers', rfl, h'⟩
    exact ih (fun x mem => registered x (List.mem_cons_of_mem _ mem)) h'

/-! ## Productions -/

theorem ends_await {n : Int} {p : Production} {rest : List Production} (hp : g.byNumber.get? n = some p)
    (h : g.Spreading barred (fun _ => False) (· ∈ p :: rest) answers found waiting) :
    Ends (await (found, waiting) p) (g.knowing answers)
      (fun state g' => ∃ answers', g' = g.knowing answers' ∧
        g.Spreading barred (fun _ => False) (· ∈ rest) answers' state.1 state.2)
      (g.Stopped barred) := by
  rw [await]
  have checked : Ends (p.right.forM fun id => do let _ ← query (·.derivationKind id))
      (g.knowing answers) (fun _ g' => g' = g.knowing answers) (g.Stopped barred) := by
    refine ends_forM ?_ rfl
    rintro id mem g' rfl
    rcases derivationKind_cases (g.knowing answers) id with ⟨x, -, -, kind⟩ | ⟨⟨e, refused⟩, strange⟩
    · rw [Ends, bind_of_ok (query_of_ok kind)]
      rfl
    · rw [Ends, bind_of_error (query_of_error refused)]
      refine ⟨fun readable => ?_, answers, rfl, h.toTold⟩
      obtain ⟨s, at_s⟩ := readable.right hp id mem
      exact strange s at_s (readable.kinds at_s)
  apply ends_bind checked
  rintro - g' rfl
  apply ends_get_bind
  have needs : ∀ id, id ∈ p.right.filter (fun id => !(g.knowing answers).facts.isNullable id) ↔
      id ∈ p.right ∧ answers.get? id ≠ some true := by
    intro id
    rw [List.mem_filter, Bool.not_eq_true', ← Bool.not_eq_true, isNullable_iff]
    rfl
  dsimp only
  split
  · rename_i ready
    have empty : p.right.filter (fun id => !(g.knowing answers).facts.isNullable id) = [] :=
      List.isEmpty_iff.1 ready
    have vanish : ∀ id ∈ p.right, g.VanishesPast barred id := by
      intro id mem
      by_contra stays
      have waits := (needs id).2 ⟨mem, fun marked => stays (h.granted marked)⟩
      rw [empty] at waits
      exact absurd waits List.not_mem_nil
    refine ends_bind (ends_markVanishing h (fun absent readable => ?_) (h.vanishes_left hp vanish)) ?_
    · obtain ⟨s, at_s⟩ := readable.left hp
      cases at_s.symm.trans absent
    · rintro found' g' ⟨answers', rfl, h', settled⟩
      refine ends_pure ⟨answers', rfl, h'.mono (fun _ => .inl) ?_⟩
      rintro m q - mem
      rcases List.mem_cons.1 mem with rfl | mem
      · exact .inr settled
      · exact .inl mem
  · rename_i waits
    exact ends_pure ⟨answers, rfl, h.wait hp needs fun empty => waits (List.isEmpty_iff.2 empty)⟩

theorem ends_takeAll {rest : List Production} (filed : ∀ p ∈ rest, ∃ n, g.byNumber.get? n = some p)
    (h : g.Spreading barred (fun _ => False) (· ∈ rest) answers found waiting) :
    Ends (rest.foldlM await (found, waiting)) (g.knowing answers)
      (fun state g' => ∃ answers', g' = g.knowing answers' ∧
        g.Spreading barred (fun _ => False) (fun _ => False) answers' state.1 state.2)
      (g.Stopped barred) := by
  induction rest generalizing found waiting answers with
  | nil => exact ends_pure ⟨answers, rfl, h.mono (fun _ => .inl) fun _ mem => by cases mem⟩
  | cons p rest ih =>
    obtain ⟨n, hp⟩ := filed p List.mem_cons_self
    rw [List.foldlM_cons]
    apply ends_bind (ends_await hp h)
    rintro ⟨found', waiting'⟩ g' ⟨answers', rfl, h'⟩
    exact ih (fun x mem => filed x (List.mem_cons_of_mem _ mem)) h'

/-! ## Spreading -/

/-- What waited is a production with a right-hand side that vanishes as a whole. -/
def Ready (g : Grammar) (barred : Int → Prop) (w : Waiting) : Prop :=
  ∃ n p, g.byNumber.get? n = some p ∧ w.left = p.left ∧ ∀ id ∈ p.right, g.VanishesPast barred id

section Without

variable {v : Int} {w w' : Waiting}

theorem Waiting.mem_without : v ∈ (w.without id).needs ↔ v ∈ w.needs ∧ v ≠ id := by
  rw [without, List.mem_filter, decide_eq_true_eq]

theorem Waiting.mem_remaining : w' ∈ remaining id waiting ↔
    ∃ w ∈ waiting, w.without id = w' ∧ w'.needs ≠ [] := by
  simp [remaining, isReady, ← and_assoc, exists_and_right]

theorem Waiting.mem_released : w' ∈ released id waiting ↔
    ∃ w ∈ waiting, w.without id = w' ∧ w'.needs = [] := by
  simp [released, isReady, ← and_assoc, exists_and_right]

end Without

theorem Spreading.take {untaken : Production → Prop}
    (h : g.Spreading barred (fun _ => False) untaken answers (id :: found) waiting) :
    g.Spreading barred (fun _ => False)
      (fun p => untaken p ∨ ∃ w ∈ Waiting.released id waiting, w.left = p.left) answers found
      (Waiting.remaining id waiting) ∧
    ∀ w ∈ Waiting.released id waiting, g.Ready barred w := by
  have marked := h.known id List.mem_cons_self
  have needed : ∀ w ∈ waiting, ∃ n p, g.byNumber.get? n = some p ∧ (w.without id).left = p.left ∧
      ∀ v ∈ p.right, v ∈ (w.without id).needs ∨ answers.get? v = some true := by
    intro w mem
    obtain ⟨n, p, hp, left, right⟩ := h.needed w mem
    refine ⟨n, p, hp, left, fun v hv => ?_⟩
    by_cases same : v = id
    · exact .inr (same ▸ marked)
    · exact (right v hv).imp_left fun needs => Waiting.mem_without.2 ⟨needs, same⟩
  constructor
  · exact {
      toTold := h.toTold
      known := fun x mem => h.known x (List.mem_cons_of_mem _ mem)
      sorted := h.sorted
      needed := by
        intro w' mem'
        obtain ⟨w, mem, rfl, -⟩ := Waiting.mem_remaining.1 mem'
        exact needed w mem
      pending := by
        intro w' mem' v needs marked_v
        obtain ⟨w, mem, rfl, -⟩ := Waiting.mem_remaining.1 mem'
        obtain ⟨needs, other⟩ := Waiting.mem_without.1 needs
        exact (List.mem_cons.1 (h.pending w mem v needs marked_v)).resolve_left other
      unready := by
        intro w' mem'
        obtain ⟨-, -, -, unready⟩ := Waiting.mem_remaining.1 mem'
        exact unready
      taken := by
        intro n p hp
        rcases h.taken hp with left | settled | ⟨w, mem, left, among⟩
        · exact .inl (.inl left)
        · exact .inr (.inl settled)
        · by_cases ready : (w.without id).needs = []
          · exact .inl (.inr ⟨_, Waiting.mem_released.2 ⟨w, mem, rfl, ready⟩, left⟩)
          · refine .inr (.inr ⟨_, Waiting.mem_remaining.2 ⟨w, mem, rfl, ready⟩, left, ?_⟩)
            exact fun v needs => among v (Waiting.mem_without.1 needs).1 }
  · intro w' mem'
    obtain ⟨w, mem, rfl, ready⟩ := Waiting.mem_released.1 mem'
    obtain ⟨n, p, hp, left, right⟩ := needed w mem
    refine ⟨n, p, hp, left, fun v hv => ?_⟩
    rcases right v hv with needs | marked_v
    · rw [ready] at needs
      exact absurd needs List.not_mem_nil
    · exact h.granted marked_v

theorem Spreading.firstRelease
    (h : g.Spreading barred (fun _ => False) (fun _ => False) answers found waiting) :
    g.Spreading barred (fun _ => False)
      (fun p => ∃ w ∈ (Waiting.firstRelease found waiting).1, w.left = p.left) answers
      (Waiting.firstRelease found waiting).2.1 (Waiting.firstRelease found waiting).2.2 ∧
    (∀ w ∈ (Waiting.firstRelease found waiting).1, g.Ready barred w) ∧
    ((Waiting.firstRelease found waiting).1 = [] → (Waiting.firstRelease found waiting).2.1 = []) := by
  induction found generalizing waiting with
  | nil =>
    refine ⟨h.mono (fun _ => .inl) fun _ left => left.elim, ?_, fun _ => rfl⟩
    exact fun w mem => absurd mem List.not_mem_nil
  | cons id found ih =>
    obtain ⟨later, ready⟩ := h.take
    rw [Waiting.firstRelease]
    split
    · rename_i quiet
      apply ih
      apply later.mono (fun _ => .inl)
      rintro n p - (left | ⟨w, mem, -⟩)
      · exact .inl left
      · rw [List.isEmpty_iff.1 quiet] at mem
        exact absurd mem List.not_mem_nil
    · rename_i loud
      refine ⟨later.mono (fun _ => .inl) ?_, ready, ?_⟩
      · rintro n p - (left | released)
        · exact left.elim
        · exact .inl released
      · exact fun quiet => absurd (List.isEmpty_iff.2 quiet) loud

/-- The left-hand sides of all that is released are settled. -/
theorem ends_markAll {released : List Waiting} (ready : ∀ w ∈ released, g.Ready barred w)
    (h : g.Spreading barred (fun _ => False) (fun p => ∃ w ∈ released, w.left = p.left) answers found
      waiting) :
    Ends (released.foldlM (fun found w => markVanishing found w.left) found) (g.knowing answers)
      (fun found' g' => ∃ answers', g' = g.knowing answers' ∧
        g.Spreading barred (fun _ => False) (fun _ => False) answers' found' waiting)
      (g.Stopped barred) := by
  induction released generalizing found answers with
  | nil =>
    refine ends_pure ⟨answers, rfl, h.mono (fun _ => .inl) ?_⟩
    rintro n p - ⟨w, mem, -⟩
    exact absurd mem List.not_mem_nil
  | cons w released ih =>
    obtain ⟨n, p, hp, left, right⟩ := ready w List.mem_cons_self
    rw [List.foldlM_cons, left]
    refine ends_bind (ends_markVanishing h (fun absent readable => ?_) (h.vanishes_left hp right)) ?_
    · obtain ⟨s, at_s⟩ := readable.left hp
      cases at_s.symm.trans absent
    · rintro found' g' ⟨answers', rfl, h', settled⟩
      apply ih fun x mem => ready x (List.mem_cons_of_mem _ mem)
      apply h'.mono (fun _ => .inl)
      rintro m q - ⟨x, mem, left'⟩
      rcases List.mem_cons.1 mem with rfl | mem
      · exact .inr (left' ▸ left ▸ settled)
      · exact .inl ⟨x, mem, left'⟩

/-- Whatever was found, its effect spreads until none is to come. -/
theorem ends_spread (h : g.Spreading barred (fun _ => False) (fun _ => False) answers found waiting) :
    Ends (spread found waiting) (g.knowing answers)
      (fun _ g' => ∃ answers' waiting', g' = g.knowing answers' ∧
        g.Spreading barred (fun _ => False) (fun _ => False) answers' [] waiting')
      (g.Stopped barred) := by
  induction len : waiting.length using Nat.strongRecOn generalizing found waiting answers with
  | _ n ih =>
    obtain ⟨next, ready, quiet⟩ := h.firstRelease
    rw [spread]
    by_cases settled : (Waiting.firstRelease found waiting).1 = []
    · rw [if_pos settled]
      rw [quiet settled] at next
      refine ends_pure ⟨answers, _, rfl, next.mono (fun _ => .inl) ?_⟩
      rintro n p - ⟨w, mem, -⟩
      rw [settled] at mem
      exact absurd mem List.not_mem_nil
    · rw [if_neg settled]
      have shorter := Waiting.length_firstRelease_lt settled
      apply ends_bind (ends_markAll ready next)
      rintro found' g' ⟨answers', rfl, h'⟩
      exact ih _ (len ▸ shorter) h' rfl

/-! ## All answers -/

/-- Every symbol has its answer: it vanishes past the barred ones or not. Nothing but registered symbols
were answered besides those that are barred, and all of them may stand in productions. -/
structure Resolved (g : Grammar) (barred : Int → Prop) (answers : IdMap Bool) : Prop where
  truthful : ∀ {id b}, answers.get? id = some b → (b = true ↔ g.VanishesPast barred id)
  asked : ∀ {id b}, answers.get? id = some b → barred id ∨ ∃ s, g.symbols.at? id = some s
  total : ∀ {id s}, g.symbols.at? id = some s → ∃ b, answers.get? id = some b
  kinds : ∀ {id s}, g.symbols.at? id = some s → Derivable s

theorem VanishesPast.registered (h : g.VanishesPast barred id) : ∃ s, g.symbols.at? id = some s := by
  cases h with
  | action action =>
    obtain ⟨s, at_s, -⟩ := isAction_iff.1 action
    exact ⟨s, at_s⟩
  | rule _ nonterminal _ _ =>
    obtain ⟨s, at_s, -⟩ := isNonterminal_iff.1 nonterminal
    exact ⟨s, at_s⟩

theorem Told.asked (told : g.Told barred answers) {b : Bool} (given : answers.get? id = some b) :
    barred id ∨ ∃ s, g.symbols.at? id = some s := by
  cases b with
  | true => exact .inr (told.granted given).registered
  | false =>
    refine (told.denied given).imp_right fun input => ?_
    obtain ⟨s, at_s, -⟩ := isInput_iff.1 input
    exact ⟨s, at_s⟩

/-- What holds while the symbols of the list still get the answer that they do not vanish, unless they have
one. -/
structure Resolving (g : Grammar) (barred : Int → Prop) (rest : List Symbol) (answers : IdMap Bool) : Prop where
  truthful : ∀ {id b}, answers.get? id = some b → (b = true ↔ g.VanishesPast barred id)
  asked : ∀ {id b}, answers.get? id = some b → barred id ∨ ∃ s, g.symbols.at? id = some s
  complete : ∀ {id}, g.VanishesPast barred id → answers.get? id = some true
  total : ∀ {id s}, g.symbols.at? id = some s → s ∈ rest ∨ ∃ b, answers.get? id = some b
  kinds : ∀ {id s}, g.symbols.at? id = some s → Derivable s

namespace Resolving

variable {rest : List Symbol}

theorem past (h : g.Resolving barred (s :: rest) answers) (lawful : g.symbols.Lawful)
    (settled : ∃ b, answers.get? s.id = some b) : g.Resolving barred rest answers where
  truthful := h.truthful
  asked := h.asked
  complete := h.complete
  total := by
    intro x y at_y
    rcases h.total at_y with mem | given
    · rcases List.mem_cons.1 mem with rfl | mem
      · rw [lawful.id_eq at_y] at settled
        exact .inr settled
      · exact .inl mem
    · exact .inr given
  kinds := h.kinds

theorem deny (h : g.Resolving barred rest answers) (at_s : g.symbols.at? s.id = some s)
    (unsettled : answers.get? s.id = none) : g.Resolving barred rest (answers.insert s.id false) where
  truthful := by
    intro x b given
    rw [IdMap.get?_insert] at given
    split at given
    · rename_i same
      cases given
      refine iff_of_false Bool.false_ne_true fun vanishes => ?_
      rw [← same] at vanishes
      rw [h.complete vanishes] at unsettled
      cases unsettled
    · exact h.truthful given
  asked := by
    intro x b given
    rw [IdMap.get?_insert] at given
    split at given
    · rename_i same
      exact .inr ⟨s, same ▸ at_s⟩
    · exact h.asked given
  complete vanishes := get?_insert_of_unsettled unsettled (h.complete vanishes)
  total at_y := (h.total at_y).imp_right fun ⟨b, given⟩ => ⟨b, get?_insert_of_unsettled unsettled given⟩
  kinds := h.kinds

end Resolving

theorem settleOpen_eq (s : Symbol) (answers : IdMap Bool) :
    (do if !(← get).facts.isSettled s.id then settle s.id false : Build Unit) (g.knowing answers) =
      .ok () (g.knowing (if (g.knowing answers).facts.isSettled s.id then answers
        else answers.insert s.id false)) := by
  show (if !(g.knowing answers).facts.isSettled s.id then settle s.id false else pure () : Build Unit) _ = _
  cases (g.knowing answers).facts.isSettled s.id with
  | true => rfl
  | false => rfl

theorem ends_settleRest (lawful : g.symbols.Lawful) {rest : List Symbol}
    (registered : ∀ s ∈ rest, g.symbols.at? s.id = some s) (h : g.Resolving barred rest answers) :
    Ends (rest.forM fun s => do
        if !(← get).facts.isSettled s.id then settle s.id false) (g.knowing answers)
      (fun _ g' => ∃ answers', g' = g.knowing answers' ∧ g.Resolved barred answers')
      (g.Stopped barred) := by
  induction rest generalizing answers with
  | nil =>
    exact ends_pure ⟨answers, rfl, h.truthful, h.asked, fun at_s => (h.total at_s).resolve_left nofun, h.kinds⟩
  | cons s rest ih =>
    obtain ⟨at_s, registered⟩ := List.forall_mem_cons.1 registered
    show Ends ((do if !(← get).facts.isSettled s.id then settle s.id false) >>= fun _ => _) _ _ _
    refine ends_bind_of_ok (settleOpen_eq s answers) (ih registered ?_)
    split
    · rename_i known
      exact h.past lawful (isSettled_iff.1 known)
    · rename_i unknown
      have own : (answers.insert s.id false).get? s.id = some false := by rw [IdMap.get?_insert, if_pos rfl]
      exact (h.deny at_s (get?_eq_none_of_isSettled unknown)).past lawful ⟨false, own⟩

/-- Settling resolves all symbols, or it stops where something cannot be read. -/
theorem ends_settleNullable (lawful : g.symbols.Lawful) (told : g.Told barred g.facts.nullable) :
    Ends settleNullable g (fun _ g' => ∃ answers, g' = g.knowing answers ∧ g.Resolved barred answers)
      (g.Stopped barred) := by
  have first : g.Spreading barred (· ∈ g.symbols.symbols) (· ∈ g.sortedProductions) g.facts.nullable
      [] [] := {
    toTold := told
    known := nofun
    sorted := fun at_s => .inl (SymbolTable.mem_symbols.2 ⟨_, at_s⟩)
    needed := nofun
    pending := nofun
    unready := nofun
    taken := fun hp => .inl (mem_sortedProductions.2 ⟨_, hp⟩) }
  have registered : ∀ s ∈ g.symbols.symbols, g.symbols.at? s.id = some s := by
    intro s mem
    obtain ⟨id, at_s⟩ := SymbolTable.mem_symbols.1 mem
    rw [lawful.id_eq at_s, at_s]
  rw [settleNullable]
  apply ends_get_bind
  apply ends_bind (ends_sortAll lawful registered first)
  rintro found g' ⟨answers, rfl, sorted⟩
  apply ends_get_bind
  apply ends_bind (ends_takeAll (fun p mem => mem_sortedProductions.1 mem) sorted)
  rintro ⟨found', waiting⟩ g' ⟨answers', rfl, taken⟩
  apply ends_bind (ends_spread taken)
  rintro - g' ⟨answers'', waiting', rfl, spread⟩
  exact ends_settleRest lawful registered {
    truthful := spread.truthful
    asked := spread.asked
    complete := spread.complete
    total := fun at_s => .inl (SymbolTable.mem_symbols.2 ⟨_, at_s⟩)
    kinds := fun at_s => ((spread.sorted at_s).resolve_left not_false).1 }

/-- A question about one symbol is answered as it was before. If it is open, all symbols are resolved, or it
stops with some answers given. -/
theorem ends_isNullable (lawful : g.symbols.Lawful) (told : g.Told barred g.facts.nullable) (id : Int) :
    Ends (isNullable id) g
      (fun b g' => g.facts.nullable.get? id = some b ∧ g' = g ∨
        g.facts.isSettled id = false ∧ ∃ answers, g' = g.knowing answers ∧ g.Resolved barred answers)
      (fun g' => ∃ answers, g' = g.knowing answers ∧ g.Told barred answers) := by
  rw [isNullable]
  cases registered : g.symbols.at? id with
  | none =>
    have missing : g.symbols.symbol id = .error (.missing (.id id)) := by rw [SymbolTable.symbol, registered]
    rw [Ends, bind_of_error (query_of_error missing)]
    exact ⟨g.facts.nullable, rfl, told⟩
  | some s =>
    rw [Ends, bind_of_ok (query_of_ok (SymbolTable.symbol_eq_ok registered))]
    apply ends_get_bind
    cases known : g.facts.isSettled id with
    | true =>
      obtain ⟨b, given⟩ := isSettled_iff.1 known
      have answer : g.facts.isNullable id = b := by rw [Facts.isNullable, IdMap.getD, given]; rfl
      exact ends_get_bind (ends_pure (.inl ⟨given.trans (congrArg some answer.symm), rfl⟩))
    | false =>
      rcases derivationKind_cases g id with ⟨x, -, -, kind⟩ | ⟨⟨e, refused⟩, -⟩
      · show Ends ((query fun g => g.derivationKind id) >>= fun _ => settleNullable >>= fun _ => _) g _ _
        apply ends_bind_of_ok (query_of_ok kind)
        refine ends_bind ((ends_settleNullable lawful told).mono (fun _ _ h => h) fun _ h => h.2) ?_
        rintro - g' ⟨answers, rfl, resolved⟩
        exact ends_get_bind (ends_pure (.inr ⟨rfl, answers, rfl, resolved⟩))
      · show Ends ((query fun g => g.derivationKind id) >>= fun _ => _) g _ _
        rw [Ends, bind_of_error (query_of_error refused)]
        exact ⟨g.facts.nullable, rfl, told⟩

end ParserGenerator.Grammar
