import ParserGenerator.Proofs.LR.Soundness

/-!
# Runs are complete without conflicts

If the tables have no conflicts, the parser follows every rightmost derivation backwards: up to the end of
the handle it can only shift, there it can only reduce by the last production, and at the start symbol it
accepts. So every sentence is accepted and has one rightmost derivation.
-/

namespace ParserGenerator

open Grammar

namespace Grammar

variable {g : Grammar} {marker start : Int} {α β δ z w ns rs : List Int} {n x : Int}

theorem Rightmost.last (h : g.Rightmost ns α β) : ns = [] ∧ α = β ∨
    ∃ ms n ξ, ns = ms ++ [n] ∧ g.Rightmost ms α ξ ∧ g.RewritesLast n ξ β := by
  induction h with
  | refl α => exact .inl ⟨rfl, rfl⟩
  | step first _ ih =>
    rename_i n ns α β γ _
    rcases ih with ⟨rfl, rfl⟩ | ⟨ms, m, ξ, rfl, rest, last⟩
    · exact .inr ⟨[], n, α, rfl, .refl α, first⟩
    · exact .inr ⟨n :: ms, m, ξ, rfl, .step first rest, last⟩

/-- What is left to do from a stack: the reductions, in their order, with the input that is left. The
stack does not reach beyond the handle. -/
inductive Pending (g : Grammar) (start : Int) : List Int → List Int → List Int → Prop
  | done : Pending g start [] [start] []
  | handle {rs δ w α y : List Int} {n : Int} {p : Production} :
      g.Rightmost rs.reverse [start] (δ ++ p.left :: w) → g.byNumber.get? n = some p → g.Terminals w →
      α ++ y = δ ++ g.erased p.right → Pending g start (n :: rs) α (y ++ w)

theorem isInput_start (settled : g.Settled marker start) : g.isInput start = false :=
  isInput_of_isNonterminal (isNonterminal_iff.2 settled.start_kind)

/-- A stack that is empty or ends with a nonterminal does not reach beyond the handle. -/
theorem Settled.pending (settled : g.Settled marker start)
    (derivation : g.Rightmost rs.reverse [start] (α ++ z)) (terminal : g.Terminals z)
    (front : α = [] ∨ ∃ α' x, α = α' ++ [x] ∧ g.isNonterminal x = true) :
    g.Pending start rs α z := by
  rcases derivation.last with ⟨none, eq⟩ | ⟨ms, n, ξ, reversed, before, last⟩
  · rw [List.reverse_eq_nil_iff] at none
    subst none
    rcases front with rfl | ⟨α', x, rfl, -⟩
    · have whole : [start] = z := eq
      have input : g.isInput start = true := terminal start (whole ▸ List.mem_singleton_self start)
      rw [isInput_start settled] at input
      cases input
    · rw [List.append_assoc, eq_comm, List.append_eq_singleton_iff] at eq
      rcases eq with ⟨rfl, eq⟩ | ⟨-, eq⟩
      · cases eq
        exact .done
      · cases eq
  · obtain rfl : rs = n :: ms.reverse := by
      rw [← List.reverse_reverse rs, reversed, List.reverse_append]
      rfl
    generalize eq : α ++ z = β at last
    obtain ⟨δ, w, hp, terminal'⟩ := last
    rename_i p
    have earlier : g.Rightmost ms.reverse.reverse [start] (δ ++ p.left :: w) := by
      rwa [List.reverse_reverse]
    rw [← List.append_assoc] at eq
    rcases front with rfl | ⟨α', x, rfl, nonterminal⟩
    · have whole : z = (δ ++ g.erased p.right) ++ w := eq
      rw [whole]
      exact .handle earlier hp terminal' rfl
    · have eq : (δ ++ g.erased p.right) ++ w = α' ++ x :: z := by
        rw [← eq, List.append_assoc]
        rfl
      rcases of_append_eq_append_cons eq with ⟨y, split, rfl⟩ | ⟨w', -, rfl⟩
      · refine .handle earlier hp terminal' ?_
        rw [split, List.append_assoc]
        rfl
      · have input := terminal' x (by simp)
        rw [isInput_of_isNonterminal nonterminal] at input
        cases input

theorem Settled.marker_notMem (settled : g.Settled marker start) (h : g.Rightmost ns α β)
    (absent : marker ∉ α) : marker ∉ β := by
  induction h with
  | refl α => exact absent
  | step first _ ih =>
    apply ih
    obtain ⟨α, w, hp, -⟩ := first
    have right := settled.marker_right hp
    simp only [List.mem_append, List.mem_cons, not_or] at absent ⊢
    exact ⟨absent.1, fun mem => right (List.mem_filter.1 mem).1, absent.2.2⟩

/-- Production 0 is not used in derivations from the start symbol. -/
theorem Settled.ne_zero_of_rightmost (settled : g.Settled marker start) {p : Production}
    (derivation : g.Rightmost ns [start] (δ ++ p.left :: w)) (hp : g.byNumber.get? n = some p) :
    n ≠ 0 := by
  rintro rfl
  have other := settled.marker_right settled.zero
  refine settled.marker_notMem derivation other ?_
  rw [settled.zero] at hp
  cases hp
  simp

/-- The item of a handle that is complete is canonical with the first terminal behind the handle. -/
theorem Settled.canonical_handle (settled : g.Settled marker start) {p : Production}
    (derivation : g.Rightmost ns [start] (δ ++ p.left :: w)) (hp : g.byNumber.get? n = some p)
    (terminal : g.Terminals w) :
    ∃ u, (w ++ [endMarkerId]).head? = some u ∧
      g.Canonical (δ ++ g.erased p.right) ⟨n, p.right.length⟩ u := by
  obtain ⟨u, head⟩ : ∃ u, (w ++ [endMarkerId]).head? = some u := by
    cases w <;> exact ⟨_, rfl⟩
  exact ⟨u, head, settled.canonical_of_validFor
    ⟨p, δ, w, ns, hp, Nat.le_refl _, terminal, derivation, by rw [List.take_length], head⟩⟩

end Grammar

namespace Parser

variable {p : Parser} {g : Grammar} {marker start : Int} {states : Array State} {q : Nat} {x u : Int}
  {a : Action} {below α y w rs : List Int} {tokens ts : List Token} {limit : Nat}

theorem cell_eq {c : Config (List Token)} (read : p.terminalOf c.lookahead = .ok x)
    (found : p.tables.action.get? (c.top, x) = some a) : p.cell c = .ok a := by
  simp only [cell, read, found, bind, Except.bind]
  rfl

theorem get?_of_cell {c : Config (List Token)} (read : p.terminalOf c.lookahead = .ok x)
    (found : p.cell c = .ok a) : p.tables.action.get? (c.top, x) = some a := by
  simp only [cell, read, bind, Except.bind] at found
  cases cell : p.tables.action.get? (c.top, x) with
  | some b =>
    rw [cell] at found
    cases found
    rfl
  | none =>
    rw [cell] at found
    cases expects : p.expected c.top with
    | error e =>
      simp only [expects] at found
      cases found
    | ok names =>
      simp only [expects] at found
      cases look : c.lookahead with
      | none => rw [look] at found; cases found
      | some t => rw [look] at found; cases found

/-- The lookahead is the first terminal that is left, or the end marker. -/
theorem terminalOf_head (sound : g.Lawful) (uses : p.Uses g states) (spells : g.Spells tokens w)
    (head : (w ++ [endMarkerId]).head? = some u) : p.terminalOf tokens.head? = .ok u := by
  cases spells with
  | nil =>
    cases head
    rfl
  | cons terminal _ =>
    cases head
    exact terminalOf_of_isTerminal sound.table uses terminal

section Complete

variable (settled : g.Settled marker start) (auto : g.Automaton states) (uses : p.Uses g states)
  (covering : g.Covering states p.tables)
include settled uses covering

/-- Terminals that lead on are shifted one after the other. -/
theorem run_shifts (stacked : Stacked states q below α) {r : Nat} (trail : Trail states 0 (α ++ y) r)
    (spells : g.Spells tokens (y ++ w)) :
    ∃ (q' : Nat) (below' : List Int) (ts : List Token), Stacked states q' below' (α ++ y) ∧
      g.Spells ts w ∧ p.Leads y.length [] (config q below tokens) (config q' below' ts) := by
  induction y generalizing q below α tokens with
  | nil => exact ⟨q, below, tokens, by simpa using stacked, spells, fun _ => ⟨rfl, rfl⟩⟩
  | cons x y ih =>
    obtain ⟨o, before, rest⟩ := trail.split
    obtain rfl := before.unique stacked.trail
    have step : ∃ r', goto? states o x = some r' := by
      cases rest with
      | cons step _ => exact ⟨_, step⟩
    obtain ⟨r', step⟩ := step
    cases spells with
    | cons terminal spells =>
      rename_i t ts
      have read := terminalOf_of_isTerminal settled.table uses terminal
      obtain ⟨s, at_s, -, input⟩ := id terminal
      have found : p.cell (config o below (t :: ts)) = .ok ⟨.shift, r'⟩ :=
        cell_eq read (covering.shift (isInput_iff.2 ⟨s, at_s, input⟩) step)
      have both : α ++ x :: y = (α ++ [x]) ++ y := by simp
      rw [both] at trail ⊢
      obtain ⟨q', below', ts', stacked', spells', leads⟩ := ih (stacked.push step) trail spells
      exact ⟨q', below', ts', stacked', spells', (Leads.of_shift found perform_shift).trans leads⟩

include auto

/-- At the end of a handle its production is reduced. -/
theorem run_reduces {rule : Production} {n : Int} {δ : List Int}
    (stacked : Stacked states q below (δ ++ g.erased rule.right)) (spells : g.Spells tokens w)
    (derivation : g.Rightmost rs [start] (δ ++ rule.left :: w)) (hp : g.byNumber.get? n = some rule)
    (terminal : g.Terminals w) :
    ∃ (r : Nat) (below' : List Int), Stacked states r below' (δ ++ [rule.left]) ∧
      p.Leads 1 [n] (config q below tokens) (config r below' tokens) := by
  have ne := settled.ne_zero_of_rightmost derivation hp
  obtain ⟨u, head, canonical⟩ := settled.canonical_handle derivation hp terminal
  obtain ⟨r, trail, holds⟩ := canonical.holds auto
  obtain rfl := stacked.trail.unique trail
  obtain ⟨r, below', α', split, stacked', performed⟩ :=
    perform_reduce (auto.rooted settled.toLawful) uses stacked hp ne holds
  obtain rfl := List.append_cancel_right split
  have found : p.cell (config q below tokens) = .ok ⟨.reduce, n⟩ :=
    cell_eq (terminalOf_head settled.toLawful uses spells head)
      (covering.reduce trail hp ne canonical)
  exact ⟨r, _, stacked', .of_reduce found (performed tokens)⟩

omit uses in
/-- Behind the start symbol the end of the input is accepted. -/
theorem run_accepts (stacked : Stacked states q below [start]) (limit : Nat) :
    (p.run TokenSource.list (limit + 1) (config q below [])).verdict = .accepted ∧
      (p.run TokenSource.list (limit + 1) (config q below [])).reductions = [] := by
  obtain ⟨r, step, accepting⟩ := auto.exists_accepting settled
  obtain rfl := stacked.trail.unique (.cons step (.nil r))
  have found : p.cell (config q below []) = .ok ⟨.accept, 0⟩ := cell_eq rfl (covering.accept accepting)
  rw [run_accepted found rfl]
  exact ⟨rfl, rfl⟩

/-- From a stack the run does what is left to do. -/
theorem run_complete (stacked : Stacked states q below α) (spells : g.Spells tokens w)
    (pending : g.Pending start rs α w) (enough : w.length + rs.length < limit) :
    (p.run TokenSource.list limit (config q below tokens)).verdict = .accepted ∧
      (p.run TokenSource.list limit (config q below tokens)).reductions = rs := by
  induction rs generalizing q below α w tokens limit with
  | nil =>
    cases pending with
    | done =>
      cases spells with
      | nil =>
        obtain ⟨limit, rfl⟩ := Nat.exists_eq_add_of_lt enough
        exact run_accepts settled auto covering stacked _
  | cons n rs ih =>
    cases pending with
    | handle derivation hp terminal eq =>
      rename_i δ w y rule
      obtain ⟨_, -, canonical⟩ := settled.canonical_handle derivation hp terminal
      obtain ⟨r, trail, -⟩ := canonical.holds auto
      rw [← eq] at trail
      obtain ⟨q', below', ts, stacked', spells', shifted⟩ :=
        run_shifts settled uses covering stacked trail spells
      rw [eq] at stacked'
      obtain ⟨r, below'', stacked'', reduced⟩ :=
        run_reduces settled auto uses covering stacked' spells' derivation hp terminal
      obtain ⟨limit, rfl⟩ : ∃ k, limit = k + (1 + y.length) := by
        rw [List.length_append, List.length_cons] at enough
        exact ⟨limit - (1 + y.length), by omega⟩
      have rest : g.Pending start rs (δ ++ [rule.left]) w := by
        refine settled.pending ?_ terminal (.inr ⟨δ, _, rfl, settled.isNonterminal_left hp⟩)
        simpa using derivation
      have fewer : w.length + rs.length < limit := by
        rw [List.length_append, List.length_cons] at enough
        omega
      obtain ⟨accepted, reductions⟩ := ih stacked'' spells' rest fewer
      obtain ⟨verdict, steps⟩ := shifted.trans reduced limit
      rw [verdict, steps, reductions]
      exact ⟨accepted, rfl⟩

end Complete

end Parser

namespace Grammar

variable {g : Grammar} {start : Int} {w : List Int}

theorem Terminals.exists_spells (terminal : g.Terminals w) : ∃ tokens, g.Spells tokens w := by
  induction w with
  | nil => exact ⟨[], .nil⟩
  | cons x w ih =>
    obtain ⟨input, rest⟩ := List.forall_mem_cons.1 terminal
    obtain ⟨tokens, spells⟩ := ih rest
    obtain ⟨s, at_s, reads⟩ := isInput_iff.1 input
    exact ⟨⟨s.name, s.name, 1, 1, 0⟩ :: tokens, .cons ⟨s, at_s, rfl, reads⟩ spells⟩

/-- If the tables have no conflicts, every sentence is accepted by a reduction for each production of its
rightmost derivation, backwards, and there is no other such derivation. -/
theorem Declared.parse_complete (declared : Declared g) (closed : g.closed = true)
    (started : g.idOfStart = .ok start) (m : Method) :
    ∃ t g', buildTables m.name g = .ok t g' ∧ (t.conflicts = [] → ∀ {ns w},
      g.Rightmost ns [start] w → g.Terminals w →
        (∀ (text : List Char) (tokens : List Token) (limit : Nat), g.Spells tokens w →
          w.length + ns.length < limit →
            (Parser.parseTokens ⟨t, g'.symbols, text⟩ tokens limit).verdict = .accepted ∧
            (Parser.parseTokens ⟨t, g'.symbols, text⟩ tokens limit).reductions = ns.reverse) ∧
        ∀ {ms}, g.Rightmost ms [start] w → ms = ns) := by
  obtain ⟨⟨marker, settled⟩, untouched⟩ := declared.settled_at closed started
  obtain ⟨t, f, built, uses, clear⟩ := settled.exists_tables untouched m
  have settled' := settled.having f
  have runs : t.conflicts = [] → ∀ {ns w tokens limit}, g.Rightmost ns [start] w →
      g.Spells tokens w → w.length + ns.length < limit → ∀ text,
        (Parser.parseTokens ⟨t, (g.having f).symbols, text⟩ tokens limit).verdict = .accepted ∧
        (Parser.parseTokens ⟨t, (g.having f).symbols, text⟩ tokens limit).reductions = ns.reverse := by
    intro clean ns w tokens limit derivation spells enough text
    have pending : (g.having f).Pending start ns.reverse [] w := by
      refine settled'.pending ?_ spells.terminals (.inl rfl)
      rw [List.reverse_reverse]
      exact derivation.having f
    rw [Parser.parseTokens_eq (uses text)]
    refine Parser.run_complete settled' settled'.automaton (uses text) (clear clean).1 .bottom spells
      pending ?_
    rwa [List.length_reverse]
  refine ⟨t, g.having f, built, fun clean {ns w} derivation terminal => ⟨?_, fun {ms} other => ?_⟩⟩
  · exact fun text tokens limit spells enough => runs clean derivation spells enough text
  · obtain ⟨tokens, spells⟩ := terminal.exists_spells
    have limit : w.length + ns.length < w.length + ns.length + ms.length + 1 := by omega
    have limit' : w.length + ms.length < w.length + ns.length + ms.length + 1 := by omega
    have first := (runs clean derivation spells limit []).2
    have second := (runs clean other spells limit' []).2
    exact List.reverse_injective (second.symm.trans first)

theorem rightmost_pointers : pointers.Rightmost [1, 5, 4, 4] [7] [5, 4, 5] := by
  have first : pointers.RewritesLast 1 [7] [8, 4, 9] :=
    .replace (β := [8, 4, 9]) [] (by decide +kernel) (by decide)
  have second : pointers.RewritesLast 5 [8, 4, 9] [8, 4, 8] :=
    .replace (β := [8]) [8, 4] (by decide +kernel) (by decide)
  have third : pointers.RewritesLast 4 [8, 4, 8] [8, 4, 5] :=
    .replace (β := [5]) [8, 4] (by decide +kernel) (by decide)
  have fourth : pointers.RewritesLast 4 [8, 4, 5] [5, 4, 5] :=
    .replace (β := [5]) [] (by decide +kernel) (by decide +kernel)
  exact .step first (.step second (.step third (.step fourth (.refl _))))

theorem parse_complete_pointers :
    ∃ t g', buildTables Method.lalr.name pointers = .ok t g' ∧ t.conflicts = [] ∧
      (∀ limit > 7,
        (Parser.parseTokens ⟨t, g'.symbols, []⟩ assignment limit).verdict = .accepted ∧
        (Parser.parseTokens ⟨t, g'.symbols, []⟩ assignment limit).reductions = [4, 4, 5, 1]) ∧
      ∀ {ms}, pointers.Rightmost ms [7] [5, 4, 5] → ms = [1, 5, 4, 4] := by
  obtain ⟨t, g', built, complete⟩ :=
    declared_pointers.parse_complete closed_pointers idOfStart_pointers .lalr
  have tried : pointers.trial .lalr assignment 8 = some (0, .accepted, [4, 4, 5, 1]) := by
    decide +kernel
  simp only [trial_eq built, Option.some.injEq, Prod.mk.injEq, List.length_eq_zero_iff] at tried
  have spells : pointers.Spells assignment [5, 4, 5] := by decide +kernel
  obtain ⟨accepts, unique⟩ := complete tried.1 rightmost_pointers spells.terminals
  exact ⟨t, g', built, tried.1, fun limit enough => accepts [] assignment limit spells enough, unique⟩

end Grammar

end ParserGenerator
