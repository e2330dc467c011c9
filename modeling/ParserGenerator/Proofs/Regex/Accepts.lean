import ParserGenerator.Proofs.Regex.Nfa

/-!
# What automata accept

The automaton of an expression accepts the texts of its language, and the automaton of rules accepts for
each rule the texts of that rule's language.
-/

namespace ParserGenerator.Nfa

open Computability

variable {n : Nfa} {i j : Nat} {o : Option Char} {w : List Char} {property : PropertyTest}
  {a : Acceptance} {r : Regex} {rules : List (String × Regex)}

theorem edge_setAccept {b : Nat} (hi : i < n.nodes.size) :
    (n.setAccept i a).Edge b o j ↔ n.Edge b o j := by
  have leads : ∀ (x : Node) o j, Node.Leads n.property { x with accept := some a } j o ↔
      x.Leads n.property j o ∨ False ∧ j = 0 := by
    intro x o j
    rw [false_and, or_false]
    cases o <;> rfl
  have edge := edge_change (O := fun _ => False) (t := 0) (a := b) (b := j) (o := o) hi leads
  rwa [false_and, and_false, or_false] at edge

theorem acceptAt_setAccept (hi : i < n.nodes.size) :
    (n.setAccept i a).acceptAt j = if i = j then some a else n.acceptAt j := by
  rw [acceptAt, setAccept, change, Array.getElem?_modify]
  split
  · rename_i same
    rw [← same, Array.getElem?_eq_getElem hi]
    rfl
  · rfl

theorem path_setAccept {b : Nat} (hi : i < n.nodes.size) :
    (n.setAccept i a).Path b w j ↔ n.Path b w j :=
  ⟨Path.mono (edge_setAccept hi).1, Path.mono (edge_setAccept hi).2⟩

/-- The automaton reads the text up to a node that accepts for the rule. -/
def Accepts (n : Nfa) (w : List Char) (a : Acceptance) : Prop :=
  ∃ j, n.Path n.start w j ∧ n.acceptAt j = some a

/-- An automaton of some nodes without arcs. -/
theorem not_edge_fresh : ¬ (addNode { property }).Edge i o j := by
  rw [edge_addNode]
  rintro ⟨x, at_i, -⟩
  cases at_i

theorem acceptAt_fresh : (addNode { property }).acceptAt i = none := by
  rw [extends_addNode.accept]
  rfl

theorem acceptAt_inside (accept : n.acceptAt i = some a) : i < n.nodes.size := by
  obtain ⟨x, at_i, -⟩ := Option.bind_eq_some_iff.1 accept
  exact (Array.getElem?_eq_some_iff.1 at_i).1

theorem size_setAccept : (n.setAccept i a).nodes.size = n.nodes.size := Array.size_modify

theorem inside_setAccept (hi : i < n.nodes.size) (inside : n.Inside) : (n.setAccept i a).Inside := by
  intro b o j edge
  rw [size_setAccept]
  exact inside b o j ((edge_setAccept hi).1 edge)

theorem respects_setAccept {Λ : Nat → Language Char} (hi : i < n.nodes.size) (h : n.Respects Λ) :
    (n.setAccept i a).Respects Λ :=
  fun b o j edge => h b o j ((edge_setAccept hi).1 edge)

/-! ## One expression -/

/-- The automaton of an expression before its second node is made the accepting one. -/
theorem realises_ofRegexBy : Realises (r.language property) 0 1 (addNode (addNode { property }))
    (addRegex r 0 1 (addNode (addNode { property }))) :=
  (builds_addRegex property r).realises (Nat.zero_lt_two) (Nat.one_lt_two) rfl

/-- The automaton of an expression accepts the texts of its language. -/
theorem accepts_ofRegexBy : (ofRegexBy property r).Accepts w a ↔
    a = (0, "") ∧ w ∈ r.language property := by
  have realised := @realises_ofRegexBy property r
  have last : 1 < (addRegex r 0 1 (addNode (addNode { property }))).nodes.size := realised.size
  have start : (ofRegexBy property r).start = 0 := realised.start
  have bare : ∀ {i o j}, ¬ (addNode (addNode { property })).Edge i o j :=
    fun edge => not_edge_fresh (edge_addNode.1 edge)
  rw [Accepts, start]
  constructor
  · rintro ⟨j, path, accept⟩
    rw [ofRegexBy, acceptAt_setAccept last, realised.accept, extends_addNode.accept, acceptAt_fresh] at accept
    split at accept
    · rename_i only
      subst only
      cases accept
      obtain ⟨Λ, same, respects⟩ := realised.sound (fun _ _ _ edge => absurd edge bare)
        (Λ := fun i => if i = 0 then r.language property else 1) (fun _ _ _ edge => absurd edge bare)
        (mul_one _).le
      have final : [] ∈ Λ 1 := by
        rw [same 1 Nat.one_lt_two]
        exact Language.nil_mem_one
      have mem := respects.of_path ((path_setAccept last).1 path) final
      rw [List.append_nil, same 0 Nat.zero_lt_two] at mem
      exact ⟨rfl, mem⟩
    · cases accept
  · rintro ⟨rfl, mem⟩
    refine ⟨1, (path_setAccept last).2 (realised.complete w mem), ?_⟩
    rw [ofRegexBy, acceptAt_setAccept last, if_pos rfl]

theorem start_ofRegexBy : (ofRegexBy property r).start < (ofRegexBy property r).nodes.size := by
  have realised := @realises_ofRegexBy property r
  have start : (ofRegexBy property r).start = 0 := realised.start
  rw [start, ofRegexBy, size_setAccept]
  exact Nat.zero_lt_two.trans_le realised.size

theorem inside_ofRegexBy : (ofRegexBy property r).Inside := by
  have realised := @realises_ofRegexBy property r
  exact inside_setAccept realised.size
    (realised.inside fun _ _ _ edge => absurd (edge_addNode.1 edge) not_edge_fresh)

/-! ## Rules -/

/-- An automaton of rules accepts for each of them the texts of its language, and for no others. -/
structure Serves (property : PropertyTest) (rules : List (String × Regex)) (n : Nfa) : Prop where
  first : n.start < n.nodes.size
  tested : n.property = property
  inside : n.Inside
  complete : ∀ {k name r}, rules[k]? = some (name, r) → ∀ w ∈ r.language property,
    n.Accepts w (k, name)
  accepted : ∀ {j k name}, n.acceptAt j = some (k, name) → ∃ r, rules[k]? = some (name, r)
  sound : ∀ {k : Nat} {K : Language Char}, (∀ name r, rules[k]? = some (name, r) → r.language property ≤ K) →
    ∃ Λ : Nat → Language Char, n.Respects Λ ∧ Λ n.start = K ∧
      ∀ j name, n.acceptAt j = some (k, name) → [] ∈ Λ j

theorem serves_nil : Serves property [] (addNode { property }) where
  first := Nat.zero_lt_one
  tested := rfl
  inside := fun _ _ _ edge => absurd edge not_edge_fresh
  complete := by
    intro k name r listed
    cases listed
  accepted := by
    intro j k name accept
    rw [acceptAt_fresh] at accept
    cases accept
  sound := by
    intro k K _
    refine ⟨fun _ => K, fun _ _ _ edge => absurd edge not_edge_fresh, rfl, fun j name accept => ?_⟩
    rw [acceptAt_fresh] at accept
    cases accept

theorem getElem?_concat {α : Type} {as : List α} {a b : α} {k : Nat} :
    (as ++ [a])[k]? = some b ↔ as[k]? = some b ∨ k = as.length ∧ b = a := by
  rw [List.getElem?_append]
  split
  · have : k ≠ as.length := by omega
    simp [this]
  · have outside : as[k]? = none := List.getElem?_eq_none (by omega)
    rw [List.getElem?_singleton, outside]
    split
    · have : k = as.length := by omega
      simp [this, eq_comm]
    · have : k ≠ as.length := by omega
      simp [this]

/-- The last node of a rule that is added accepts for it, and the other nodes accept as before. -/
theorem acceptAt_addRule (h : Serves property rules n) (name : String) (r : Regex) :
    (n.addRule rules.length name r).acceptAt j =
      if n.nodes.size + 1 = j then some (rules.length, name) else n.acceptAt j := by
  have opened := (builds_addRegex property r).opens h.first h.tested
  rw [addRule, acceptAt_setAccept (Nat.lt_of_succ_le opened.room), opened.accept]

theorem of_acceptAt_addRule (h : Serves property rules n) {name : String}
    (found : (n.addRule rules.length name r).acceptAt j = some a) :
    j = n.nodes.size + 1 ∧ a = (rules.length, name) ∨ n.acceptAt j = some a := by
  rw [acceptAt_addRule h] at found
  split at found
  · rename_i last
    cases found
    exact .inl ⟨last.symm, rfl⟩
  · exact .inr found

theorem Serves.addRule (h : Serves property rules n) (name : String) (r : Regex) :
    Serves property (rules ++ [(name, r)]) (n.addRule rules.length name r) := by
  have opened := (builds_addRegex property r).opens h.first h.tested
  have last := Nat.lt_of_succ_le opened.room
  have start : (n.addRule rules.length name r).start = n.start := opened.start
  constructor
  · rw [start, Nfa.addRule, size_setAccept]
    exact h.first.trans_le opened.size
  · exact opened.property.trans h.tested
  · exact inside_setAccept last (opened.inside h.inside)
  · intro k name' r' listed w mem
    rw [Accepts, start]
    rcases getElem?_concat.1 listed with old | ⟨rfl, new⟩
    · obtain ⟨j, path, found⟩ := h.complete old w mem
      refine ⟨j, (path_setAccept last).2 (path.mono opened.edges), ?_⟩
      have := acceptAt_inside found
      rw [acceptAt_addRule h, if_neg (by omega), found]
    · cases new
      refine ⟨n.nodes.size + 1, (path_setAccept last).2 ?_, by rw [acceptAt_addRule h, if_pos rfl]⟩
      exact .cons opened.enter (opened.within w mem)
  · intro j k name' found
    rcases of_acceptAt_addRule h found with ⟨-, new⟩ | old
    · cases new
      exact ⟨r, getElem?_concat.2 (.inr ⟨rfl, rfl⟩)⟩
    · obtain ⟨r', listed⟩ := h.accepted old
      exact ⟨r', getElem?_concat.2 (.inl listed)⟩
  · intro k K whole
    obtain ⟨Λ, respects, front, final⟩ :=
      h.sound fun name' r' listed => whole name' r' (getElem?_concat.2 (.inl listed))
    -- If it is the new rule that is asked for, its texts are read from its first node on, and nothing more
    -- from its last; otherwise nothing has to be read from either of them.
    obtain ⟨F, P, through, part, ends⟩ : ∃ F P : Language Char, r.language property * F ≤ P ∧ P ≤ Λ n.start ∧
        (k = rules.length → F = 1) := by
      by_cases new : k = rules.length
      · have part : r.language property ≤ Λ n.start :=
          front ▸ whole name r (getElem?_concat.2 (.inr ⟨new, rfl⟩))
        exact ⟨1, _, (mul_one _).le, part, fun _ => rfl⟩
      · exact ⟨0, 0, (mul_zero _).le, bot_le, fun same => absurd same new⟩
    obtain ⟨Λ', same, -, behind, respects'⟩ := opened.sound h.inside respects through part
    refine ⟨Λ', respects_setAccept last respects', ?_, fun j name' found => ?_⟩
    · rw [start, same _ h.first, front]
    · rcases of_acceptAt_addRule h found with ⟨rfl, new⟩ | old
      · rw [behind, ends (congrArg Prod.fst new)]
        exact Language.nil_mem_one
      · rw [same j (acceptAt_inside old)]
        exact final j name' old

theorem serves_ofRulesBy : Serves property rules (ofRulesBy property rules) := by
  induction rules using List.reverseRecOn with
  | nil => exact serves_nil
  | append_singleton rules rule ih =>
    rw [ofRulesBy, List.zipIdx_append, List.foldl_append]
    rw [ofRulesBy] at ih
    have added := ih.addRule rule.1 rule.2
    rwa [Nat.zero_add]

/-- The automaton of rules accepts for the rule with a number and a name the texts of its language. -/
theorem accepts_ofRulesBy : (ofRulesBy property rules).Accepts w a ↔
    ∃ r, rules[a.1]? = some (a.2, r) ∧ w ∈ r.language property := by
  have serves : Serves property rules (ofRulesBy property rules) := serves_ofRulesBy
  obtain ⟨k, name⟩ := a
  constructor
  · rintro ⟨j, path, accept⟩
    obtain ⟨r, listed⟩ := serves.accepted accept
    have whole : ∀ name r', rules[k]? = some (name, r') → r'.language property ≤ r.language property := by
      intro name' r' listed'
      rw [listed] at listed'
      cases listed'
      exact le_rfl
    obtain ⟨Λ, respects, start, final⟩ := serves.sound whole
    refine ⟨r, listed, ?_⟩
    have mem := respects.of_path path (final j name accept)
    rwa [List.append_nil, start] at mem
  · rintro ⟨r, listed, mem⟩
    exact serves.complete listed w mem

end ParserGenerator.Nfa
