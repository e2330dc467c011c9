import ParserGenerator.Proofs.Description.Steps

/-!
# Blocks of action code

What stands in a block of action code is told by a grammar of its own: single characters, a backslash with
the character behind it, texts in quotes, and blocks in braces. The scanner goes through the block once and
keeps only the number of open braces, the open quote and whether a backslash stands in front. It comes to the
closing brace of the block exactly behind a text that the grammar describes.
-/

namespace ParserGenerator.Description

variable {c quote : Char} {cs body w w' : List Char} {s s' s₁ : BlockState} {o : Option BlockState} {d : Nat}

/-- The marks between which braces do not count. -/
def IsQuote (c : Char) : Prop := c = '\x27' ∨ c = '"'

/-- What may stand in quotes: characters other than the quote and the backslash, and backslashes that take
the next character along. -/
inductive QuotedText (quote : Char) : List Char → Prop
  | nil : QuotedText quote []
  | single {c : Char} {cs : List Char} (other : c ≠ quote) (plain : c ≠ '\\')
      (behind : QuotedText quote cs) : QuotedText quote (c :: cs)
  | pair (c : Char) {cs : List Char} (behind : QuotedText quote cs) : QuotedText quote ('\\' :: c :: cs)

/-- The characters that do not stand for themselves in a block. -/
def delimiters : List Char := ['\x7b', '\x7d', '\x27', '"', '\\']

/-- What may stand in a block of action code. -/
inductive Balanced : List Char → Prop
  | nil : Balanced []
  | single {c : Char} {cs : List Char} (plain : c ∉ delimiters) (behind : Balanced cs) : Balanced (c :: cs)
  | pair (c : Char) {cs : List Char} (behind : Balanced cs) : Balanced ('\\' :: c :: cs)
  | quoted {quote : Char} {text cs : List Char} (mark : IsQuote quote) (inside : QuotedText quote text)
      (behind : Balanced cs) : Balanced (quote :: (text ++ quote :: cs))
  | nested {body cs : List Char} (inside : Balanced body) (behind : Balanced cs) :
      Balanced ('\x7b' :: (body ++ '\x7d' :: cs))

/-- At the offset stands a block with the given body. -/
def BlockAt (text : List Char) (offset : Nat) (body : List Char) : Prop :=
  Balanced body ∧ '\x7b' :: (body ++ ['\x7d']) <+: text.drop offset

namespace BlockState

/-! ## One character -/

/-- What a character makes of a state; nothing is left where it closes the block. -/
inductive Step : BlockState → Char → Option BlockState → Prop
  | escaped (d : Nat) (q : Option Char) (c : Char) : Step ⟨d, q, true⟩ c (some ⟨d, q, false⟩)
  | escape (d : Nat) (q : Option Char) : Step ⟨d, q, false⟩ '\\' (some ⟨d, q, true⟩)
  | inside {c quote : Char} (d : Nat) (other : c ≠ quote) (plain : c ≠ '\\') :
      Step ⟨d, some quote, false⟩ c (some ⟨d, some quote, false⟩)
  | unquote {quote : Char} (d : Nat) (mark : IsQuote quote) :
      Step ⟨d, some quote, false⟩ quote (some ⟨d, none, false⟩)
  | single {c : Char} (d : Nat) (plain : c ∉ delimiters) : Step ⟨d, none, false⟩ c (some ⟨d, none, false⟩)
  | quote {quote : Char} (d : Nat) (mark : IsQuote quote) :
      Step ⟨d, none, false⟩ quote (some ⟨d, some quote, false⟩)
  | nest (d : Nat) : Step ⟨d, none, false⟩ '\x7b' (some ⟨d + 1, none, false⟩)
  | unnest {d : Nat} (inner : 1 ≤ d) : Step ⟨d + 1, none, false⟩ '\x7d' (some ⟨d, none, false⟩)
  | finish : Step ⟨1, none, false⟩ '\x7d' none

theorem Step.next?_eq (h : Step s c o) : s.next? c = o := by
  cases h with
  | escaped d q c => by_cases feed : c = '\n' <;> simp [next?, feed]
  | escape | nest | finish => rfl
  | inside d other plain => by_cases feed : c = '\n' <;> simp [next?, feed, plain, other]
  | unquote d mark | quote d mark => obtain rfl | rfl := mark <;> rfl
  | single d plain =>
    simp only [delimiters, List.mem_cons, List.not_mem_nil, or_false, not_or] at plain
    simp [next?, plain]
  | @unnest d inner =>
    have deep : ¬ d + 1 ≤ 1 := by omega
    simp [next?, deep]

/-- A brace is open, and only a quote can be open as one. -/
structure Proper (s : BlockState) : Prop where
  deep : 1 ≤ s.depth
  mark : ∀ q, s.quote = some q → IsQuote q

theorem proper_default : Proper {} := ⟨Nat.le_refl 1, nofun⟩

theorem Step.proper (h : Step s c (some s')) (proper : s.Proper) : s'.Proper := by
  obtain ⟨deep, mark⟩ := proper
  cases h with
  | escaped | escape | inside | single => exact ⟨deep, mark⟩
  | unquote => exact ⟨deep, nofun⟩
  | quote d mark => exact ⟨deep, fun q same => Option.some.inj same ▸ mark⟩
  | nest => exact ⟨Nat.le_succ_of_le deep, nofun⟩
  | unnest inner => exact ⟨inner, nofun⟩

/-- A state in which a brace is open takes every character. -/
theorem Proper.exists_step (proper : s.Proper) (c : Char) : ∃ o, Step s c o := by
  obtain ⟨d, q, escape⟩ := s
  obtain ⟨deep, mark⟩ := proper
  cases escape with
  | true => exact ⟨_, .escaped d q c⟩
  | false =>
    by_cases backslash : c = '\\'
    · subst backslash
      exact ⟨_, .escape d q⟩
    · cases q with
      | some quote =>
        by_cases same : c = quote
        · subst same
          exact ⟨_, .unquote d (mark c rfl)⟩
        · exact ⟨_, .inside d same backslash⟩
      | none =>
        by_cases plain : c ∉ delimiters
        · exact ⟨_, .single d plain⟩
        · simp only [delimiters, List.mem_cons, List.not_mem_nil, or_false, Decidable.not_not] at plain
          obtain rfl | rfl | quote | quote | same := plain
          · exact ⟨_, .nest d⟩
          · obtain rfl | ⟨d, rfl⟩ : d = 1 ∨ ∃ d', d = d' + 1 + 1 := by
              rcases Nat.lt_or_ge 1 d with more | less
              · exact .inr ⟨d - 2, by omega⟩
              · exact .inl (Nat.le_antisymm less deep)
            · exact ⟨_, .finish⟩
            · exact ⟨_, .unnest (Nat.le_add_left 1 d)⟩
          · exact ⟨_, .quote d (.inl quote)⟩
          · exact ⟨_, .quote d (.inr quote)⟩
          · exact absurd same backslash

theorem Proper.step (proper : s.Proper) (next : s.next? c = o) : Step s c o := by
  obtain ⟨o', step⟩ := proper.exists_step c
  rwa [← next, step.next?_eq]

/-! ## From the grammar to the scanner -/

/-- The text leads from one state to the other and does not close the block. -/
def Passes (s s' : BlockState) (w : List Char) : Prop :=
  ∀ rest, blockBody? s (w ++ rest) = (blockBody? s' rest).map (w ++ ·)

theorem Passes.nil (s : BlockState) : Passes s s [] := by
  intro rest
  cases h : blockBody? s rest <;> simp [h]

theorem Step.passes (step : Step s c (some s₁)) (h : Passes s₁ s' w) : Passes s s' (c :: w) := by
  intro rest
  rw [List.cons_append, blockBody?, step.next?_eq]
  dsimp only
  rw [h rest, Option.map_map]
  rfl

theorem Passes.append (h : Passes s s₁ w) (h' : Passes s₁ s' w') : Passes s s' (w ++ w') := by
  intro rest
  rw [List.append_assoc, h, h', Option.map_map]
  congr 1
  funext body
  exact (List.append_assoc _ _ _).symm

end BlockState

open BlockState

theorem QuotedText.passes (h : QuotedText quote w) :
    Passes ⟨d, some quote, false⟩ ⟨d, some quote, false⟩ w := by
  induction h with
  | nil => exact .nil _
  | single other plain _ ih => exact (Step.inside d other plain).passes ih
  | pair c _ ih => exact (Step.escape d _).passes ((Step.escaped d _ c).passes ih)

/-- A balanced text leaves the state as it was. -/
theorem Balanced.passes (h : Balanced body) (deep : 1 ≤ d) :
    Passes ⟨d, none, false⟩ ⟨d, none, false⟩ body := by
  induction h generalizing d with
  | nil => exact .nil _
  | single plain _ ih => exact (Step.single d plain).passes (ih deep)
  | pair c _ ih => exact (Step.escape d _).passes ((Step.escaped d _ c).passes (ih deep))
  | quoted mark inside _ ih =>
    exact (Step.quote d mark).passes (inside.passes.append ((Step.unquote d mark).passes (ih deep)))
  | nested _ _ inside behind =>
    exact (Step.nest d).passes
      ((inside (Nat.le_succ_of_le deep)).append ((Step.unnest deep).passes (behind deep)))

theorem Balanced.blockBody?_eq (h : Balanced body) (rest : List Char) :
    blockBody? {} (body ++ '\x7d' :: rest) = some body := by
  have closed : blockBody? ⟨1, none, false⟩ ('\x7d' :: rest) = some [] := rfl
  rw [show ({} : BlockState) = ⟨1, none, false⟩ from rfl, h.passes (Nat.le_refl 1), closed, Option.map_some,
    List.append_nil]

/-! ## From the scanner to the grammar -/

/-- What closes so many open braces: balanced texts with closing braces between them. -/
inductive Closing : Nat → List Char → Prop
  | last {body : List Char} (inside : Balanced body) : Closing 1 body
  | closed {d : Nat} {body cs : List Char} (inside : Balanced body) (behind : Closing d cs) :
      Closing (d + 1) (body ++ '\x7d' :: cs)

/-- What may be read in a state up to the brace that closes the block. -/
inductive Remainder : BlockState → List Char → Prop
  | outside {d : Nat} {body : List Char} (closing : Closing d body) : Remainder ⟨d, none, false⟩ body
  | quoted {d : Nat} {quote : Char} {text body : List Char} (inside : QuotedText quote text)
      (closing : Closing d body) : Remainder ⟨d, some quote, false⟩ (text ++ quote :: body)
  | escaped {d : Nat} {q : Option Char} {body : List Char} (c : Char) (behind : Remainder ⟨d, q, false⟩ body) :
      Remainder ⟨d, q, true⟩ (c :: body)

theorem Closing.pos (h : Closing d body) : 1 ≤ d := by
  cases h with
  | last => exact Nat.le_refl 1
  | closed => exact Nat.le_add_left 1 _

/-- What keeps every balanced text balanced may stand in front. -/
theorem Closing.prepend (h : Closing d body) (keeps : ∀ {cs}, Balanced cs → Balanced (w ++ cs)) :
    Closing d (w ++ body) := by
  cases h with
  | last inside => exact .last (keeps inside)
  | closed inside behind =>
    rw [← List.append_assoc]
    exact .closed (keeps inside) behind

/-- The first balanced text and its closing brace make up a nested block. -/
theorem Closing.nest (h : Closing (d + 1) body) (deep : 1 ≤ d) : Closing d ('\x7b' :: body) := by
  generalize outer : d + 1 = e at h
  cases h with
  | last => omega
  | @closed e inner cs inside behind =>
    obtain rfl := Nat.succ.inj outer
    rw [List.append_cons]
    refine behind.prepend (w := '\x7b' :: (inner ++ ['\x7d'])) fun {cs} balanced => ?_
    rw [List.cons_append, ← List.append_cons]
    exact .nested inside balanced

theorem BlockState.Step.remainder (step : Step s c (some s')) (proper : s.Proper) (h : Remainder s' body) :
    Remainder s (c :: body) := by
  cases step with
  | escaped d q c => exact .escaped c h
  | escape d q =>
    cases h with
    | escaped c behind =>
      cases behind with
      | outside closing => exact .outside (closing.prepend (w := ['\\', c]) (.pair c))
      | quoted inside closing => exact .quoted (.pair c inside) closing
  | inside d other plain =>
    cases h with
    | quoted inside closing => exact .quoted (.single other plain inside) closing
  | unquote d mark =>
    cases h with
    | outside closing => exact .quoted .nil closing
  | single d plain =>
    cases h with
    | outside closing => exact .outside (closing.prepend (w := [c]) (.single plain))
  | quote d mark =>
    cases h with
    | @quoted _ _ text _ inside closing =>
      rw [List.append_cons, ← List.cons_append]
      refine .outside (closing.prepend fun {cs} balanced => ?_)
      rw [List.cons_append, ← List.append_cons]
      exact .quoted mark inside balanced
  | nest d =>
    cases h with
    | outside closing => exact .outside (closing.nest proper.deep)
  | unnest =>
    cases h with
    | outside closing => exact .outside (.closed .nil closing)

/-- A body that is found closes what is open. -/
theorem remainder_of_blockBody? (proper : s.Proper) (h : blockBody? s cs = some body) : Remainder s body := by
  induction cs generalizing s body with
  | nil => cases h
  | cons c cs ih =>
    rw [blockBody?] at h
    cases next : s.next? c with
    | none =>
      rw [next] at h
      cases h
      generalize left : none = o at next
      cases proper.step next with
      | finish => exact .outside (.last .nil)
      | _ => cases left
    | some s' =>
      rw [next] at h
      obtain ⟨body', inside, rfl⟩ := Option.map_eq_some_iff.1 h
      have step := proper.step next
      exact step.remainder proper (ih (step.proper proper) inside)

/-- Behind a body that is found stands the brace that closes the block. -/
theorem prefix_of_blockBody? (proper : s.Proper) (h : blockBody? s cs = some body) :
    body ++ ['\x7d'] <+: cs := by
  induction cs generalizing s body with
  | nil => cases h
  | cons c cs ih =>
    rw [blockBody?] at h
    cases next : s.next? c with
    | none =>
      rw [next] at h
      cases h
      generalize left : none = o at next
      cases proper.step next with
      | finish => exact List.prefix_append ['\x7d'] cs
      | _ => cases left
    | some s' =>
      rw [next] at h
      obtain ⟨body', inside, rfl⟩ := Option.map_eq_some_iff.1 h
      exact (List.cons_prefix_cons).2 ⟨rfl, ih ((proper.step next).proper proper) inside⟩

/-- The scanner finds the body that is balanced up to a closing brace. -/
theorem blockBody?_eq_some : blockBody? {} cs = some body ↔ Balanced body ∧ body ++ ['\x7d'] <+: cs := by
  constructor
  · intro found
    refine ⟨?_, prefix_of_blockBody? proper_default found⟩
    cases remainder_of_blockBody? proper_default found with
    | outside closing =>
      cases closing with
      | last inside => exact inside
      | closed inside behind => exact absurd behind.pos (Nat.not_succ_le_zero 0)
  · rintro ⟨balanced, rest, rfl⟩
    rw [List.append_assoc]
    exact balanced.blockBody?_eq rest

/-! ## Blocks in a text -/

/-- At a brace the scanner finds the body of the block that stands there by the grammar of blocks. There is at
most one such body. If there is one, it becomes a token, and the text is read on right behind the block;
otherwise the block is said to be unterminated, at the place of its opening brace. -/
theorem blocks_delimited (text : List Char) (offset : Nat) (position : Position)
    (brace : text[offset]? = some '\x7b') :
    (∀ body, blockBody? {} (text.drop (offset + 1)) = some body ↔ BlockAt text offset body) ∧
    (∀ body body', BlockAt text offset body → BlockAt text offset body' → body = body') ∧
    (∀ body, BlockAt text offset body →
      scanFrom text offset position (text.drop offset) =
        (scanFrom text (offset + body.length + 2) (position.afterAll ('\x7b' :: (body ++ ['\x7d'])))
          (text.drop (offset + body.length + 2))).map
            (⟨.action, body, offset, offset + body.length + 2, position⟩ :: ·)) ∧
    ((∀ body, ¬ BlockAt text offset body) →
      scanFrom text offset position (text.drop offset) =
        .error (.source (.unterminatedAction (Place.within text position offset)))) := by
  have front : text.drop offset = '\x7b' :: text.drop (offset + 1) := by
    obtain ⟨inside, here⟩ := List.getElem?_eq_some_iff.1 brace
    rw [List.drop_eq_getElem_cons inside, here]
  have found : ∀ body, blockBody? {} (text.drop (offset + 1)) = some body ↔ BlockAt text offset body := by
    intro body
    rw [blockBody?_eq_some, BlockAt, front, List.cons_prefix_cons]
    exact and_congr_right fun _ => (and_iff_right rfl).symm
  refine ⟨found, fun body body' block block' => ?_, fun body block => ?_, fun absent => ?_⟩
  · exact Option.some.inj (((found body).2 block).symm.trans ((found body').2 block'))
  · have inside := (found body).2 block
    obtain ⟨-, rest, same⟩ := blockBody?_eq_some.1 inside
    rw [List.append_assoc, List.singleton_append] at same
    have behind : text.drop (offset + body.length + 2) = rest := by
      rw [show offset + body.length + 2 = offset + 1 + (body.length + 1) by omega, ← List.drop_drop, ← same,
        List.append_cons, List.drop_left' (by simp)]
    rw [← same] at inside
    rw [front, ← same, scanFrom_block inside, behind]
  · rw [front]
    refine scanFrom_unterminated (Option.eq_none_iff_forall_ne_some.2 fun body inside => ?_)
    exact absent body ((found body).1 inside)

/-- A rule with a block that holds another block, and in that one a brace in quotes behind an escaped quote. -/
def guardedRule : List Char := "S : \x7b if (a) \x7b b(\"\\\"\x7d\"); \x7d \x7d ;".toList

theorem blocks_delimited_guardedRule : guardedRule[4]? = some '\x7b' ∧
    BlockAt guardedRule 4 " if (a) \x7b b(\"\\\"\x7d\"); \x7d ".toList ∧
    (scanFrom guardedRule 4 ⟨1, 5⟩ (guardedRule.drop 4)).map (·.map fun t => (t.kind, t.stop)) =
      .ok [(.action, 28), (.semicolon, 30), (.finish, 30)] := by
  have brace : guardedRule[4]? = some '\x7b' := by decide +kernel
  obtain ⟨found, -, block, -⟩ := blocks_delimited guardedRule 4 ⟨1, 5⟩ brace
  have here := (found " if (a) \x7b b(\"\\\"\x7d\"); \x7d ".toList).1 (by decide +kernel)
  refine ⟨brace, here, ?_⟩
  rw [block _ here]
  with_unfolding_all rfl

end ParserGenerator.Description
