import ParserGenerator.Proofs.LR.Paths
import ParserGenerator.Proofs.LR.Survey
import ParserGenerator.Proofs.LR.Transitions

/-!
# Where productions end

The walk along a production, from the state of a transition on its left-hand side, finds the transitions
at whose end that transition is found, and the state where the production ends.
-/

namespace ParserGenerator.Grammar

variable {g : Grammar} {marker start : Int} {states : Array State} {q r o n m : Nat} {id a k : Int}
  {p : Production} {α β γ ids : List Int}

/-- On the way along a sequence there is a transition behind whose symbol all others vanish. -/
def EndsIn (g : Grammar) (states : Array State) (q : Nat) (ids : List Int) (o : Nat) (a : Int) : Prop :=
  ∃ β γ, ids = β ++ a :: γ ∧ g.isNonterminal a = true ∧ (∀ x ∈ γ, g.Vanishes x) ∧
    Trail states q (g.erased β) o

theorem endsIn_nil : ¬ g.EndsIn states q [] o a := by
  rintro ⟨β, γ, eq, -⟩
  simp at eq

theorem endsIn_action (action : g.isAction id = true) :
    g.EndsIn states q (id :: ids) o a ↔ g.EndsIn states q ids o a := by
  constructor
  · rintro ⟨β, γ, eq, nonterminal, vanish, trail⟩
    cases β with
    | nil =>
      cases eq
      rw [isAction_of_isNonterminal nonterminal] at action
      cases action
    | cons x β =>
      cases eq
      rw [erased_cons_of_action action] at trail
      exact ⟨β, γ, rfl, nonterminal, vanish, trail⟩
  · rintro ⟨β, γ, rfl, nonterminal, vanish, trail⟩
    refine ⟨id :: β, γ, rfl, nonterminal, vanish, ?_⟩
    rwa [erased_cons_of_action action]

theorem endsIn_symbol (plain : g.isAction id = false) (step : goto? states q id = some r) :
    g.EndsIn states q (id :: ids) o a ↔
      (o = q ∧ a = id ∧ g.isNonterminal id = true ∧ ∀ x ∈ ids, g.Vanishes x) ∨
        g.EndsIn states r ids o a := by
  constructor
  · rintro ⟨β, γ, eq, nonterminal, vanish, trail⟩
    cases β with
    | nil =>
      cases eq
      cases trail
      exact .inl ⟨rfl, rfl, nonterminal, vanish⟩
    | cons x β =>
      cases eq
      rw [erased_cons plain] at trail
      cases trail with
      | cons step' rest =>
        rw [step] at step'
        cases step'
        exact .inr ⟨β, γ, rfl, nonterminal, vanish, rest⟩
  · rintro (⟨rfl, rfl, nonterminal, vanish⟩ | ⟨β, γ, rfl, nonterminal, vanish, trail⟩)
    · exact ⟨[], ids, rfl, nonterminal, vanish, .nil _⟩
    · refine ⟨id :: β, γ, rfl, nonterminal, vanish, ?_⟩
      rw [erased_cons plain]
      exact .cons step trail

/-- What a walk along a sequence shows. -/
structure Walked (g : Grammar) (states : Array State) (q : Nat) (ids : List Int) (w : Walk) : Prop where
  trail : Trail states q (g.erased ids) w.last
  inside : w.last < states.size
  includes : ∀ o a, (o, a) ∈ w.includes ↔ g.EndsIn states q ids o a

theorem Walked.action {w : Walk} (h : g.Walked states q ids w) (action : g.isAction id = true) :
    g.Walked states q (id :: ids) w where
  trail := by simpa only [erased_cons_of_action action] using h.trail
  inside := h.inside
  includes := by simpa only [endsIn_action action] using h.includes

theorem Walked.symbol {w : Walk} (h : g.Walked states r ids w) (plain : g.isAction id = false)
    (step : goto? states q id = some r) {ends : Bool}
    (hends : ends = true ↔ g.isNonterminal id = true ∧ ∀ x ∈ ids, g.Vanishes x) :
    g.Walked states q (id :: ids) (if ends then ⟨(q, id) :: w.includes, w.last⟩ else w) := by
  have trail := h.trail
  cases ends with
  | true =>
    rw [if_pos rfl]
    obtain ⟨nonterminal, vanish⟩ := hends.1 rfl
    refine ⟨by simpa only [erased_cons plain] using .cons step trail, h.inside, fun o a => ?_⟩
    rw [List.mem_cons, h.includes, endsIn_symbol plain step, Prod.mk_inj]
    exact or_congr_left ⟨fun h => ⟨h.1, h.2, nonterminal, vanish⟩, fun h => ⟨h.1, h.2.1⟩⟩
  | false =>
    rw [if_neg Bool.false_ne_true]
    refine ⟨by simpa only [erased_cons plain] using .cons step trail, h.inside, fun o a => ?_⟩
    rw [h.includes, endsIn_symbol plain step, ← hends]
    simp

section Walk

variable (settled : g.Settled marker start) (auto : g.Automaton states)
  (truthful : g.Truthful g.facts.nullable)
include settled auto truthful

theorem shows_walk (hp : g.byNumber.get? k = some p) (right : p.right = α ++ ids)
    (holds : Holds states q ⟨k, α.length⟩) :
    g.Shows (g.walk states q ids) (g.Walked states q ids) := by
  induction ids generalizing q α with
  | nil =>
    refine shows_pure ⟨.nil q, holds.inside, fun o a => ?_⟩
    simp [endsIn_nil]
  | cons id ids ih =>
    have expects := expects_of_right hp right
    have split : p.right = (α ++ [id]) ++ ids := by simp [right]
    have among : ∀ x ∈ id :: ids, ∃ s, g.symbols.at? x = some s := by
      intro x mem
      refine (settled.right hp x ?_).2
      rw [right]
      exact List.mem_append_right _ mem
    obtain ⟨⟨s, at_s⟩, registered⟩ := List.forall_mem_cons.1 among
    have known : g.symbols.symbol id = .ok s := SymbolTable.symbol_eq_ok at_s
    have kind_eq : g.isNonterminal id = true ↔ s.kind = .nonterminal := by
      rw [isNonterminal_iff, at_s]
      simp
    rw [walk]
    refine shows_bind (shows_find (P := (s = ·)) known rfl) fun s' eq => ?_
    subst eq
    split
    · rename_i action
      rw [← isAction_eq at_s] at action
      have next := auto.skip holds expects action
      exact (ih split (advance_of_length id ▸ next)).mono fun w walked => walked.action action
    · rename_i plain
      have plain : g.isAction id = false := by simpa [isAction_eq at_s] using plain
      obtain ⟨r, step⟩ := auto.total holds expects plain
      have next := auto.shift holds expects step
      have rest : ∀ ends : Bool,
          (ends = true ↔ g.isNonterminal id = true ∧ ∀ x ∈ ids, g.Vanishes x) →
          g.Shows (do
            let rest ← g.walk states r ids
            return if ends then ⟨(q, id) :: rest.includes, rest.last⟩ else rest)
            (g.Walked states q (id :: ids)) := fun ends hends =>
        shows_bind (ih split (advance_of_length id ▸ next)) fun w walked =>
          shows_pure (walked.symbol plain step hends)
      rw [step]
      dsimp only
      split
      · rename_i kind
        refine shows_bind (shows_allVanish truthful registered) fun ends hends => rest ends ?_
        simp [hends, kind_eq.2 kind]
      · rename_i other
        refine shows_bind (shows_pure (P := (· = false)) rfl) fun ends eq => rest ends ?_
        simp [eq, kind_eq, other]

end Walk

/-! ## The relations -/

theorem getD_modify {α : Type} {as : Array α} {i j : Nat} {f : α → α} {d : α} (inside : i < as.size) :
    (as.modify i f).getD j d = if i = j then f (as.getD j d) else as.getD j d := by
  simp only [Array.getD_eq_getD_getElem?, Array.getElem?_modify]
  by_cases same : i = j
  · subst same
    simp [inside]
  · simp [same]

theorem mem_foldl_cons {ns : List Nat} {es : List (Nat × Nat)} {e : Nat × Nat} :
    e ∈ ns.foldl (fun es m => (m, n) :: es) es ↔ e ∈ es ∨ e.1 ∈ ns ∧ e.2 = n := by
  induction ns generalizing es with
  | nil => simp
  | cons m ns ih =>
    rw [List.foldl_cons, ih, List.mem_cons, List.mem_cons, Prod.ext_iff]
    grind

/-- The relations hold what productions show from the transitions of some numbers, and nothing else. -/
structure Entered (g : Grammar) (states : Array State) (shown : Nat × Int → Prop) (r : Relations) :
    Prop where
  size : r.lookback.size = states.size
  includes : ∀ m n, (m, n) ∈ r.includes ↔ ∃ k p t o a, shown (n, k) ∧ g.byNumber.get? k = some p ∧
    (g.nonterminalTransitions states).all[n]? = some t ∧
    (g.nonterminalTransitions states).all[m]? = some (o, a) ∧ g.EndsIn states t.1 p.right o a
  lookback : ∀ q k n, n ∈ (r.lookback.getD q ∅).getD k [] ↔ shown (n, k) ∧ ∃ p t,
    g.byNumber.get? k = some p ∧ (g.nonterminalTransitions states).all[n]? = some t ∧
    Trail states t.1 (g.erased p.right) q

theorem mem_lookback_modify {rows : Array (OrderedMap Int (List Nat))} {l n' : Nat} {k' : Int}
    (inside : l < rows.size) :
    n' ∈ ((rows.modify l fun row => row.insert k (n :: row.getD k [])).getD q ∅).getD k' [] ↔
      n' ∈ (rows.getD q ∅).getD k' [] ∨ q = l ∧ (n', k') = (n, k) := by
  rw [getD_modify inside]
  split
  · rename_i here
    rw [OrderedMap.getD, OrderedMap.get?_insert]
    split
    · rename_i same
      simp [here, same, or_comm]
    · rename_i other
      simp [OrderedMap.getD, Ne.symm other]
  · rename_i other
    simp [Ne.symm other]

/-- What a walk along a production shows is entered for the transition where it begins. -/
theorem Entered.enter {shown : Nat × Int → Prop} {rel : Relations} {t : Transition} {w : Walk}
    (h : g.Entered states shown rel) (at_n : (g.nonterminalTransitions states).all[n]? = some t)
    (hp : g.byNumber.get? k = some p) (walked : g.Walked states t.1 p.right w) :
    g.Entered states (fun d => shown d ∨ d = (n, k)) {
      includes := (w.includes.filterMap (g.nonterminalTransitions states).number?).foldl
        (fun edges m => (m, n) :: edges) rel.includes
      lookback := rel.lookback.modify w.last fun row => row.insert k (n :: row.getD k []) } := by
  have numbers : ∀ m, m ∈ w.includes.filterMap (g.nonterminalTransitions states).number? ↔
      ∃ o a, (g.nonterminalTransitions states).all[m]? = some (o, a) ∧
        g.EndsIn states t.1 p.right o a := by
    intro m
    rw [List.mem_filterMap]
    constructor
    · rintro ⟨⟨o, a⟩, mem, number⟩
      exact ⟨o, a, number?_eq_some.1 number, (walked.includes o a).1 mem⟩
    · rintro ⟨o, a, at_m, ends⟩
      exact ⟨(o, a), (walked.includes o a).2 ends, number?_eq_some.2 at_m⟩
  refine ⟨by simpa using h.size, fun m n' => ?_, fun q k' n' => ?_⟩
  · dsimp only
    rw [mem_foldl_cons, h.includes, numbers]
    constructor
    · rintro (⟨k', p', t', o, a, old, rest⟩ | ⟨⟨o, a, at_m, ends⟩, rfl⟩)
      · exact ⟨k', p', t', o, a, .inl old, rest⟩
      · exact ⟨k, p, t, o, a, .inr rfl, hp, at_n, at_m, ends⟩
    · rintro ⟨k', p', t', o, a, old | new, hp', at_n', at_m, ends⟩
      · exact .inl ⟨k', p', t', o, a, old, hp', at_n', at_m, ends⟩
      · cases new
        rw [hp] at hp'
        cases hp'
        rw [at_n] at at_n'
        cases at_n'
        exact .inr ⟨⟨o, a, at_m, ends⟩, rfl⟩
  · rw [mem_lookback_modify (h.size ▸ walked.inside), h.lookback]
    constructor
    · rintro (⟨old, rest⟩ | ⟨rfl, new⟩)
      · exact ⟨.inl old, rest⟩
      · cases new
        exact ⟨.inr rfl, p, t, hp, at_n, walked.trail⟩
    · rintro ⟨old | new, p', t', hp', at_n', trail'⟩
      · exact .inl ⟨old, p', t', hp', at_n', trail'⟩
      · cases new
        rw [hp] at hp'
        cases hp'
        rw [at_n] at at_n'
        cases at_n'
        exact .inr ⟨trail'.unique walked.trail, rfl⟩

section Relate

variable (settled : g.Settled marker start) (auto : g.Automaton states)
  (truthful : g.Truthful g.facts.nullable)
include settled auto truthful

theorem shows_relateProduction {shown : Nat × Int → Prop} {rel : Relations} {t : Transition}
    (h : g.Entered states shown rel) (at_n : (g.nonterminalTransitions states).all[n]? = some t)
    (hp : g.byNumber.get? k = some p) (left : p.left = t.2) :
    g.Shows (g.relateProduction states (g.nonterminalTransitions states) t.1 n rel k)
      (g.Entered states fun d => shown d ∨ d = (n, k)) := by
  have known : g.production k = .ok p := by rw [production, hp]
  have front : Holds states t.1 ⟨k, ([] : List Int).length⟩ := by
    obtain ⟨-, r, step⟩ := exists_number.1 ⟨n, at_n⟩
    obtain ⟨-, it, holds, expects⟩ := auto.moves step
    exact auto.expand holds (left ▸ expects) hp
  rw [relateProduction]
  refine shows_bind (shows_find (P := (p = ·)) known rfl) fun p' eq => ?_
  subst eq
  refine shows_bind (shows_walk settled auto truthful hp rfl front) fun w walked => ?_
  exact shows_pure (h.enter at_n hp walked)

/-- In the end every production has been entered for every transition on its left-hand side. -/
theorem shows_relate : g.Shows (g.relate states (g.nonterminalTransitions states))
    (g.Entered states fun d => ∃ t p, (g.nonterminalTransitions states).all[d.1]? = some t ∧
      g.byNumber.get? d.2 = some p ∧ p.left = t.2) := by
  have nothing : g.Entered states (fun _ => False) { lookback := Array.replicate states.size ∅ } := by
    refine ⟨by simp, by simp, fun q k n => ?_⟩
    have empty : ((Array.replicate states.size (∅ : OrderedMap Int (List Nat))).getD q ∅) = ∅ := by
      rw [Array.getD_eq_getD_getElem?, Array.getElem?_replicate]
      split <;> rfl
    rw [empty]
    simp [OrderedMap.getD]
  have all : ∀ d : Nat × Int, (False ∨ ∃ e ∈ (g.nonterminalTransitions states).all.toList.zipIdx,
      ∃ p, d.1 = e.2 ∧ g.byNumber.get? d.2 = some p ∧ p.left = e.1.2) ↔
        ∃ t p, (g.nonterminalTransitions states).all[d.1]? = some t ∧
          g.byNumber.get? d.2 = some p ∧ p.left = t.2 := by
    rintro ⟨n, k⟩
    simp only [false_or, Prod.exists, List.mk_mem_zipIdx_iff_getElem?, Array.getElem?_toList]
    constructor
    · rintro ⟨o, a, m, at_m, p, rfl, hp, left⟩
      exact ⟨o, a, p, at_m, hp, left⟩
    · rintro ⟨o, a, p, at_n, hp, left⟩
      exact ⟨o, a, n, at_n, p, rfl, hp, left⟩
  rw [relate, ← funext fun d => propext (all d)]
  refine shows_foldlM (g.Entered states) _ ?_ nothing
  rintro ⟨t, n⟩ mem shown rel h
  have at_n := List.mk_mem_zipIdx_iff_getElem?.1 mem
  rw [Array.getElem?_toList] at at_n
  obtain ⟨-, r, step⟩ := exists_number.1 ⟨n, at_n⟩
  obtain ⟨⟨s, at_s⟩, -⟩ := auto.kind_of_goto settled step
  have known : g.symbols.symbol t.2 = .ok s := SymbolTable.symbol_eq_ok at_s
  refine shows_bind (shows_find (P := (s = ·)) known rfl) fun s' eq => ?_
  subst eq
  have own : ∀ d : Nat × Int, (shown d ∨ ∃ k ∈ s.productions, d = (n, k)) ↔
      shown d ∨ ∃ p, d.1 = n ∧ g.byNumber.get? d.2 = some p ∧ p.left = t.2 := by
    rintro ⟨m, k⟩
    simp only [settled.mem_productions at_s, Prod.mk_inj]
    grind
  rw [← funext fun d => propext (own d)]
  refine shows_foldlM (g.Entered states) (fun k d => d = (n, k)) ?_ h
  intro k mem shown rel h
  obtain ⟨p, hp, left⟩ := (settled.mem_productions at_s).1 mem
  exact shows_relateProduction settled auto truthful h at_n hp left

end Relate

end ParserGenerator.Grammar
