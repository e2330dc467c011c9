import ParserGenerator.Proofs.Collection.Worklist
import ParserGenerator.Proofs.Regex.Accepts
import ParserGenerator.Regex.Dfa

/-!
# Matching on demand

The states that were found hold sets of nodes, and the moves that were kept lead from the set of a state to
the set behind a character. This stays so whatever texts are read, and so does the automaton below. While
a text is read, the state holds the nodes that are reached by what was read, and the best match so far is
the longest one among the texts read so far.
-/

namespace ParserGenerator

namespace Nfa

variable {n : Nfa} {i j k : Nat} {c : Char} {o : Option Char} {u v w text : List Char} {a b : Acceptance}
  {nodes seeds : List Nat}

/-! ## Sets of nodes -/

theorem mem_targets : j ∈ n.targets c i ↔ n.Edge i (some c) j := by
  rw [targets, Edge]
  cases n.nodes[i]? with
  | none => simp
  | some x =>
    simp only [List.mem_append, List.mem_map, List.mem_filter, decide_eq_true_eq, Option.some.injEq,
      exists_eq_left', Node.Leads, Prod.exists]
    refine or_congr ?_ ?_
    · constructor
      · rintro ⟨_, _, ⟨mem, rfl⟩, rfl⟩
        exact mem
      · exact fun mem => ⟨c, j, ⟨mem, rfl⟩, rfl⟩
    · constructor
      · rintro ⟨k, _, ⟨mem, passes⟩, rfl⟩
        exact ⟨k, mem, passes⟩
      · rintro ⟨k, mem, passes⟩
        exact ⟨k, j, ⟨mem, passes⟩, rfl⟩

/-- Where a text ends in a character, that character is read between two stretches of a path. -/
theorem path_concat : n.Path i (w ++ [c]) j ↔
    ∃ k l, n.Path i w k ∧ n.Edge k (some c) l ∧ n.Path l [] j := by
  constructor
  · intro path
    generalize whole : w ++ [c] = u at path
    induction path generalizing w with
    | nil => simp at whole
    | @cons i m j o u edge path ih =>
      cases o with
      | none =>
        obtain ⟨k, l, before, across, behind⟩ := ih whole
        exact ⟨k, l, .cons edge before, across, behind⟩
      | some x =>
        cases w with
        | nil =>
          obtain ⟨rfl, rfl⟩ : c = x ∧ [] = u := by simpa using whole
          exact ⟨i, m, .nil i, edge, path⟩
        | cons y w =>
          obtain ⟨rfl, rest⟩ : y = x ∧ w ++ [c] = u := by simpa using whole
          obtain ⟨k, l, before, across, behind⟩ := ih rest
          exact ⟨k, l, .cons edge before, across, behind⟩
  · rintro ⟨k, l, before, across, behind⟩
    exact before.append (.cons across behind)

theorem Path.split (h : n.Path i (u ++ v) j) : ∃ k, n.Path i u k ∧ n.Path k v j := by
  generalize whole : u ++ v = w at h
  induction h generalizing u with
  | nil i =>
    obtain ⟨rfl, rfl⟩ := List.append_eq_nil_iff.1 whole
    exact ⟨i, .nil i, .nil i⟩
  | @cons i m j o w edge path ih =>
    cases u with
    | nil =>
      refine ⟨i, .nil i, ?_⟩
      rw [List.nil_append] at whole
      rw [whole]
      exact .cons edge path
    | cons x u =>
      cases o with
      | none =>
        obtain ⟨k, before, behind⟩ := ih whole
        exact ⟨k, .cons edge before, behind⟩
      | some y =>
        obtain ⟨rfl, rest⟩ : x = y ∧ u ++ v = w := by simpa using whole
        obtain ⟨k, before, behind⟩ := ih rest
        exact ⟨k, .cons edge before, behind⟩

theorem mem_epsilons : j ∈ ((n.nodes[i]?).map Node.epsilons).getD [] ↔ n.Edge i none j := by
  rw [Edge]
  cases n.nodes[i]? with
  | none => simp
  | some x => simp [Node.Leads]

theorem mem_closure (inside : n.Inside) (within : ∀ s ∈ seeds, s < n.nodes.size) :
    j ∈ n.closure seeds ↔ ∃ s ∈ seeds, n.Path s [] j := by
  have pool : ∀ x, Reachable (fun i => ((n.nodes[i]?).map Node.epsilons).getD []) seeds x →
      x ∈ Finset.range n.nodes.size := by
    intro x reachable
    rw [Finset.mem_range]
    induction reachable with
    | seed mem => exact within _ mem
    | step _ edge _ => exact inside _ _ _ (mem_epsilons.1 edge)
  rw [closure, List.mem_mergeSort, mem_reach _ pool (Finset.card_range _).le]
  constructor
  · intro reachable
    induction reachable with
    | @seed x mem => exact ⟨x, mem, .nil x⟩
    | step _ edge ih =>
      obtain ⟨s, mem, path⟩ := ih
      exact ⟨s, mem, path.append (.of_edge (mem_epsilons.1 edge))⟩
  · rintro ⟨s, mem, path⟩
    have reached : Reachable (fun i => ((n.nodes[i]?).map Node.epsilons).getD []) seeds s := .seed mem
    clear mem
    generalize nothing : [] = u at path
    induction path with
    | nil => exact reached
    | @cons i m j o u edge path ih =>
      cases o with
      | none => exact ih (reached.step (mem_epsilons.2 edge)) nothing
      | some x => cases nothing

/-- The nodes are those that a text leads to. -/
def Reached (n : Nfa) (w : List Char) (nodes : List Nat) : Prop := ∀ j, j ∈ nodes ↔ n.Path n.start w j

theorem reached_start (inside : n.Inside) (first : n.start < n.nodes.size) :
    n.Reached [] (n.closure [n.start]) := by
  intro j
  rw [mem_closure inside (List.forall_mem_singleton.2 first)]
  simp

theorem Reached.step (h : n.Reached w nodes) (inside : n.Inside) :
    n.Reached (w ++ [c]) (n.closure (nodes.flatMap (n.targets c))) := by
  intro j
  have within : ∀ t ∈ nodes.flatMap (n.targets c), t < n.nodes.size := by
    intro t mem
    obtain ⟨i, -, mem⟩ := List.mem_flatMap.1 mem
    exact inside _ _ _ (mem_targets.1 mem)
  rw [mem_closure inside within, path_concat]
  constructor
  · rintro ⟨l, mem, behind⟩
    obtain ⟨k, mem, across⟩ := List.mem_flatMap.1 mem
    exact ⟨k, l, (h k).1 mem, mem_targets.1 across, behind⟩
  · rintro ⟨k, l, before, across, behind⟩
    exact ⟨l, List.mem_flatMap.2 ⟨k, (h k).2 before, mem_targets.2 across⟩, behind⟩

/-- Where no arc is on the character, no longer text leads anywhere. -/
theorem Reached.stuck (h : n.Reached w nodes) (nothing : nodes.flatMap (n.targets c) = [])
    (v : List Char) : ¬ n.Path n.start (w ++ c :: v) j := by
  intro path
  rw [List.append_cons] at path
  obtain ⟨m, front, -⟩ := path.split
  obtain ⟨k, l, before, across, -⟩ := path_concat.1 front
  have mem : l ∈ nodes.flatMap (n.targets c) :=
    List.mem_flatMap.2 ⟨k, (h k).2 before, mem_targets.2 across⟩
  rw [nothing] at mem
  cases mem

/-! ## Acceptance -/

/-- The text is accepted for the rule, and for no earlier one. -/
def Foremost (n : Nfa) (w : List Char) (a : Acceptance) : Prop :=
  n.Accepts w a ∧ ∀ b, n.Accepts w b → a.1 ≤ b.1

theorem earlier_cases (a b : Acceptance) :
    earlier a b = a ∧ a.1 ≤ b.1 ∨ earlier a b = b ∧ b.1 ≤ a.1 := by
  rw [earlier]
  split
  · rename_i first
    exact .inl ⟨rfl, first⟩
  · rename_i second
    exact .inr ⟨rfl, by omega⟩

theorem foldl_earlier (as : List Acceptance) (a : Acceptance) :
    ∃ b, as.foldl (fun best a => some (match best with | none => a | some b => earlier b a)) (some a) =
      some b ∧ b ∈ a :: as ∧ ∀ x ∈ a :: as, b.1 ≤ x.1 := by
  induction as generalizing a with
  | nil => exact ⟨a, rfl, List.mem_cons_self, by simp⟩
  | cons x as ih =>
    obtain ⟨b, eq, mem, least⟩ := ih (earlier a x)
    obtain ⟨head, tail⟩ := List.forall_mem_cons.1 least
    refine ⟨b, eq, ?_, ?_⟩
    · rcases List.mem_cons.1 mem with rfl | mem
      · rcases earlier_cases a x with ⟨eq, -⟩ | ⟨eq, -⟩
        · simp [eq]
        · simp [eq]
      · simp [mem]
    · refine List.forall_mem_cons.2 ⟨?_, List.forall_mem_cons.2 ⟨?_, tail⟩⟩
      · rcases earlier_cases a x with ⟨eq, le⟩ | ⟨eq, le⟩
        · exact eq ▸ head
        · exact (eq ▸ head).trans le
      · rcases earlier_cases a x with ⟨eq, le⟩ | ⟨eq, le⟩
        · exact (eq ▸ head).trans le
        · exact eq ▸ head

theorem Reached.mem_accepted (h : n.Reached w nodes) :
    a ∈ nodes.filterMap (fun i => (n.nodes[i]?).bind Node.accept) ↔ n.Accepts w a := by
  rw [List.mem_filterMap]
  exact exists_congr fun i => and_congr_left fun _ => h i

/-- The acceptance of the nodes that a text leads to is the foremost one. -/
theorem Reached.acceptance (h : n.Reached w nodes) :
    (n.acceptance nodes = none ∧ ∀ a, ¬ n.Accepts w a) ∨
      ∃ a, n.acceptance nodes = some a ∧ n.Foremost w a := by
  have accepted := fun a => h.mem_accepted (a := a)
  rw [Nfa.acceptance]
  cases found : nodes.filterMap fun i => (n.nodes[i]?).bind Node.accept with
  | nil =>
    rw [found] at accepted
    exact .inl ⟨rfl, fun a accepts => List.not_mem_nil ((accepted a).2 accepts)⟩
  | cons x xs =>
    rw [found] at accepted
    obtain ⟨b, eq, mem, least⟩ := foldl_earlier xs x
    exact .inr ⟨b, eq, (accepted b).1 mem, fun a accepts => least a ((accepted a).2 accepts)⟩

/-! ## Longest matches -/

/-- Of the texts at the front with up to a number of characters, the longest one that is accepted, and the
foremost rule that it is accepted for. -/
def Longest (n : Nfa) (text : List Char) (bound : Nat) : Option (Nat × Acceptance) → Prop
  | none => ∀ k ≤ bound, ∀ a, ¬ n.Accepts (text.take k) a
  | some (m, a) => m ≤ bound ∧ n.Foremost (text.take m) a ∧
      ∀ k ≤ bound, ∀ b, n.Accepts (text.take k) b → k ≤ m

variable {bound bound' : Nat} {hit : Option (Nat × Acceptance)}

/-- Longer texts that are not accepted make no difference. -/
theorem Longest.extend (h : n.Longest text bound hit) (le : bound ≤ bound')
    (others : ∀ k ≤ bound', bound < k → ∀ a, ¬ n.Accepts (text.take k) a) : n.Longest text bound' hit := by
  cases hit with
  | none =>
    intro k hk a
    by_cases short : k ≤ bound
    · exact h k short a
    · exact others k hk (Nat.lt_of_not_le short) a
  | some found =>
    obtain ⟨inside, foremost, longest⟩ := h
    refine ⟨inside.trans le, foremost, fun k hk b accepts => ?_⟩
    by_cases short : k ≤ bound
    · exact longest k short b accepts
    · exact absurd accepts (others k hk (Nat.lt_of_not_le short) b)

theorem longest_here (foremost : n.Foremost (text.take bound) a) :
    n.Longest text bound (some (bound, a)) :=
  ⟨Nat.le_refl _, foremost, fun _ hk _ _ => hk⟩

/-- One more character: if the nodes that it leads to accept, the match goes up to it. -/
theorem Longest.next (h : n.Longest text bound hit) (reached : n.Reached (text.take (bound + 1)) nodes) :
    n.Longest text (bound + 1) (match n.acceptance nodes with
      | some a => some (bound + 1, a)
      | none => hit) := by
  rcases reached.acceptance with ⟨eq, nothing⟩ | ⟨a, eq, foremost⟩
  · rw [eq]
    refine h.extend (Nat.le_succ bound) fun k hk across => ?_
    obtain rfl : k = bound + 1 := by omega
    exact nothing
  · rw [eq]
    exact longest_here foremost

end Nfa

namespace Dfa

variable {d d' : Dfa} {q r : Nat} {s s' : DfaState} {c : Char} {m : Option Nat} {nodes : List Nat}
  {w text : List Char}

/-- The state with a number holds the nodes. -/
def HasState (d : Dfa) (q : Nat) (nodes : List Nat) : Prop :=
  ∃ s, d.states[q]? = some s ∧ s.nodes = nodes

/-- Where a character leads from a set of nodes: nowhere, or to the state of the nodes behind it. -/
def Moves (d : Dfa) (nodes : List Nat) (c : Char) : Option Nat → Prop
  | none => nodes.flatMap (d.nfa.targets c) = []
  | some r => d.HasState r (d.nfa.closure (nodes.flatMap (d.nfa.targets c)))

/-- What is kept is right. -/
structure Sound (d : Dfa) : Prop where
  inside : d.nfa.Inside
  first : d.nfa.start < d.nfa.nodes.size
  initial : d.HasState 0 (d.nfa.closure [d.nfa.start])
  accept : ∀ {q : Nat} {s : DfaState}, d.states[q]? = some s → s.accept = d.nfa.acceptance s.nodes
  moves : ∀ {q : Nat} {s : DfaState}, d.states[q]? = some s → ∀ e ∈ s.moves, d.Moves s.nodes e.1 e.2

/-- The automaton below and the sets of the states stay as they are. -/
structure Keeps (d d' : Dfa) : Prop where
  nfa : d'.nfa = d.nfa
  states : ∀ {q : Nat} {nodes : List Nat}, d.HasState q nodes → d'.HasState q nodes

theorem Keeps.refl : d.Keeps d := ⟨rfl, fun state => state⟩

theorem Keeps.trans {d'' : Dfa} (h : d.Keeps d') (h' : d'.Keeps d'') : d.Keeps d'' :=
  ⟨h'.nfa.trans h.nfa, fun state => h'.states (h.states state)⟩

theorem Keeps.moves (h : d.Keeps d') (moves : d.Moves nodes c m) : d'.Moves nodes c m := by
  cases m with
  | none =>
    rw [Moves, h.nfa]
    exact moves
  | some r =>
    rw [Moves, h.nfa]
    exact h.states moves

theorem sound_ofNfa {n : Nfa} (inside : n.Inside) (first : n.start < n.nodes.size) : (ofNfa n).Sound where
  inside := inside
  first := first
  initial := ⟨_, rfl, rfl⟩
  accept := by
    intro q s at_q
    cases q with
    | zero =>
      cases at_q
      rfl
    | succ q => cases at_q
  moves := by
    intro q s at_q e mem
    cases q with
    | zero =>
      cases at_q
      cases mem
    | succ q => cases at_q

/-- A state for the nodes is found or added. -/
theorem Sound.intern (h : d.Sound) (nodes : List Nat) : (d.intern nodes).2.Sound ∧
    d.Keeps (d.intern nodes).2 ∧ (d.intern nodes).2.HasState (d.intern nodes).1 nodes := by
  rw [Dfa.intern]
  cases found : d.states.findIdx? (·.nodes = nodes) with
  | some i =>
    obtain ⟨hi, same, -⟩ := Array.findIdx?_eq_some_iff_getElem.1 found
    exact ⟨h, .refl, _, Array.getElem?_eq_getElem hi, of_decide_eq_true same⟩
  | none =>
    have keeps : d.Keeps { d with states := d.states.push (stateOf d.nfa nodes) } := by
      refine ⟨rfl, fun {q nodes'} state => ?_⟩
      obtain ⟨s, at_q, eq⟩ := state
      have := (Array.getElem?_eq_some_iff.1 at_q).1
      refine ⟨s, ?_, eq⟩
      rw [Array.getElem?_push, if_neg (by omega), at_q]
    have cases_state : ∀ {q : Nat} {s : DfaState}, (d.states.push (stateOf d.nfa nodes))[q]? = some s →
        s = stateOf d.nfa nodes ∨ d.states[q]? = some s := by
      intro q s at_q
      rw [Array.getElem?_push] at at_q
      split at at_q
      · cases at_q
        exact .inl rfl
      · exact .inr at_q
    refine ⟨⟨h.inside, h.first, keeps.states h.initial, ?_, ?_⟩, keeps, stateOf d.nfa nodes, ?_, rfl⟩
    · intro q s at_q
      rcases cases_state at_q with rfl | old
      · rfl
      · exact h.accept old
    · intro q s at_q e mem
      rcases cases_state at_q with rfl | old
      · cases mem
      · exact keeps.moves (h.moves old e mem)
    · rw [Array.getElem?_push, if_pos rfl]

/-- A move that leads where it should may be kept. -/
theorem Sound.keepMove (h : d.Sound) (at_q : d.HasState q nodes) (moves : d.Moves nodes c m) :
    Sound { d with states := d.states.modify q fun s => { s with moves := (c, m) :: s.moves } } ∧
      d.Keeps { d with states := d.states.modify q fun s => { s with moves := (c, m) :: s.moves } } := by
  obtain ⟨s₀, at_q, rfl⟩ := at_q
  have keeps : d.Keeps { d with
      states := d.states.modify q fun s => { s with moves := (c, m) :: s.moves } } := by
    refine ⟨rfl, fun {r nodes'} state => ?_⟩
    obtain ⟨s, at_r, eq⟩ := state
    rw [HasState, Array.getElem?_modify, at_r]
    split
    · exact ⟨_, rfl, eq⟩
    · exact ⟨s, rfl, eq⟩
  have cases_state : ∀ {r : Nat} {s : DfaState},
      (d.states.modify q fun s => { s with moves := (c, m) :: s.moves })[r]? = some s →
        s = { s₀ with moves := (c, m) :: s₀.moves } ∨ d.states[r]? = some s := by
    intro r s at_r
    rw [Array.getElem?_modify] at at_r
    split at at_r
    · rename_i same
      rw [← same, at_q] at at_r
      cases at_r
      exact .inl rfl
    · exact .inr at_r
  refine ⟨⟨h.inside, h.first, keeps.states h.initial, ?_, ?_⟩, keeps⟩
  · intro r s at_r
    rcases cases_state at_r with rfl | old
    · have accept : s₀.accept = d.nfa.acceptance s₀.nodes := h.accept at_q
      exact accept
    · exact h.accept old
  · intro r s at_r e mem
    rcases cases_state at_r with rfl | old
    · rcases List.mem_cons.1 mem with rfl | mem
      · exact keeps.moves moves
      · exact keeps.moves (h.moves at_q e mem)
    · exact keeps.moves (h.moves old e mem)

/-- A step leads to the nodes behind the character, whether it was worked out before or not. -/
theorem Sound.step (h : d.Sound) (at_q : d.HasState q nodes) (c : Char) :
    (d.step q c).2.Sound ∧ d.Keeps (d.step q c).2 ∧ (d.step q c).2.Moves nodes c (d.step q c).1 := by
  obtain ⟨s, found, rfl⟩ := id at_q
  rw [Dfa.step, found]
  dsimp only
  cases known : s.moves.find? (·.1 = c) with
  | some e =>
    have mem := List.mem_of_find?_eq_some known
    have same : e.1 = c := by simpa using List.find?_some known
    exact ⟨h, .refl, same ▸ h.moves found e mem⟩
  | none =>
    dsimp only
    by_cases stuck : (s.nodes.flatMap (d.nfa.targets c)).isEmpty = true
    · rw [if_pos stuck]
      have moves : d.Moves s.nodes c none := List.isEmpty_iff.1 stuck
      obtain ⟨sound, keeps⟩ := h.keepMove at_q moves
      exact ⟨sound, keeps, keeps.moves moves⟩
    · rw [if_neg stuck]
      obtain ⟨sound, keeps, state⟩ := h.intern (d.nfa.closure (s.nodes.flatMap (d.nfa.targets c)))
      have moves : (d.intern (d.nfa.closure (s.nodes.flatMap (d.nfa.targets c)))).2.Moves s.nodes c
          (some (d.intern (d.nfa.closure (s.nodes.flatMap (d.nfa.targets c)))).1) := by
        rw [Moves, keeps.nfa]
        exact state
      obtain ⟨sound', keeps'⟩ := sound.keepMove (keeps.states at_q) moves
      exact ⟨sound', keeps.trans keeps', keeps'.moves moves⟩

theorem Sound.acceptOf (h : d.Sound) (state : d.HasState q nodes) :
    d.acceptOf q = d.nfa.acceptance nodes := by
  obtain ⟨s, at_q, rfl⟩ := state
  rw [Dfa.acceptOf, at_q, Option.bind_some, h.accept at_q]

/-- A run goes on with the longest match of what was read, and ends with that of the whole text. -/
theorem Sound.run {n : Nfa} {count : Nat} {best : Option (Nat × Acceptance)} {cs : List Char} (h : d.Sound)
    (below : d.nfa = n) (state : d.HasState q nodes) (reached : n.Reached (text.take count) nodes)
    (read : text.drop count = cs) (inside : count ≤ text.length) (longest : n.Longest text count best) :
    (d.run q count best cs).2.Sound ∧ (d.run q count best cs).2.nfa = n ∧
      n.Longest text text.length (d.run q count best cs).1 := by
  induction cs generalizing d q nodes count best with
  | nil =>
    obtain rfl : count = text.length := le_antisymm inside (List.drop_eq_nil_iff.1 read)
    exact ⟨h, below, longest⟩
  | cons c cs ih =>
    have split : ∀ k, text.take (count + k) = text.take count ++ (c :: cs).take k := by
      intro k
      rw [← read, List.take_add]
    have inside : count < text.length := by
      have := congrArg List.length read
      simp at this
      omega
    obtain ⟨sound, keeps, moves⟩ := h.step state c
    rw [Dfa.run]
    generalize d.step q c = result at sound keeps moves
    obtain ⟨next, d'⟩ := result
    dsimp only at sound keeps moves ⊢
    have below' : d'.nfa = n := keeps.nfa.trans below
    cases next with
    | none =>
      rw [Moves, below'] at moves
      refine ⟨sound, below', longest.extend inside.le fun k _ across a accepts => ?_⟩
      obtain ⟨j, path, -⟩ := accepts
      obtain ⟨e, rfl⟩ : ∃ e, k = count + (e + 1) := ⟨k - count - 1, by omega⟩
      rw [split, List.take_succ_cons] at path
      exact reached.stuck moves _ path
    | some r =>
      rw [Moves, below'] at moves
      have reached' : n.Reached (text.take (count + 1)) (n.closure (nodes.flatMap (n.targets c))) := by
        rw [split]
        exact reached.step (below ▸ h.inside)
      have rest : text.drop (count + 1) = cs := by rw [← List.drop_drop, read]; rfl
      dsimp only
      rw [sound.acceptOf moves, below']
      exact ih sound below' moves reached' rest inside (longest.next reached')

/-- The longest match at the front of a text, whatever was kept before. -/
theorem Sound.longest (h : d.Sound) (text : List Char) : (d.longest text).2.Sound ∧
    (d.longest text).2.nfa = d.nfa ∧ d.nfa.Longest text text.length (d.longest text).1 := by
  have start := Nfa.reached_start h.inside h.first
  rw [Dfa.longest, h.acceptOf h.initial]
  refine h.run rfl h.initial start rfl (Nat.zero_le _) ?_
  rcases start.acceptance with ⟨eq, nothing⟩ | ⟨a, eq, foremost⟩
  · rw [eq]
    intro k hk a
    obtain rfl := Nat.le_zero.1 hk
    exact nothing a
  · rw [eq]
    exact Nfa.longest_here foremost

end Dfa

end ParserGenerator
