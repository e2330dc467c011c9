import ParserGenerator.Proofs.Lexer.Process

/-!
# Tokens of a text

A lexer keeps to the process whatever it was used for before: it stands at a position with what is left of
the text, and with the line and the column that belong there.
-/

namespace ParserGenerator

/-- Cuts a token from what is left. -/
def Lexer.cutToken (l : Lexer) : EStateM.Result Error Lexer (Option Token) :=
  match l.rest with
  | [] => .ok none l
  | c :: _ =>
    let l' := { l with rules := (l.rules.longest l.rest).2 }
    match (l.rules.longest l.rest).1 with
    | some (n + 1, a) =>
      .ok (some ⟨a.2, String.ofList (l.rest.take (n + 1)), l.position.line, l.position.column, l.offset⟩)
        (l'.consume (n + 1))
    | _ => .error (.source (.unmatchedInput c (Place.within l.text l.position l.offset))) l'

/-- A token is cut behind what is ignored. -/
theorem Lexer.scanToken_eq {l : Lexer} : scanToken l = l.skipIgnored.cutToken := by
  unfold scanToken
  show (match l.skipIgnored.rest with | [] => _ | c :: _ => _ : Lexing (Option Token)) l.skipIgnored = _
  unfold cutToken
  generalize l.skipIgnored = m
  obtain ⟨rules, ignored, used, text, rest, offset, position, pending⟩ := m
  cases rest with
  | nil => rfl
  | cons c cs =>
    dsimp only
    generalize rules.longest (c :: cs) = result
    obtain ⟨hit, d⟩ := result
    rcases hit with _ | ⟨_ | n, a⟩ <;> rfl

namespace Lexicon

variable {x : Lexicon} {text : List Char} {p q n m e : Nat} {name : String} {t : Token} {ts : List Token}
  {r : Regex} {l l' : Lexer} {d : Dfa} {ds : List Dfa} {rs : List Regex}

/-! ## Automata at a position -/

/-- The automaton is one of the expression, with what was found so far. -/
def Serves (x : Lexicon) (d : Dfa) (r : Regex) : Prop := d.Sound ∧ d.nfa = Nfa.ofRegexBy x.property r

theorem scan_front (inside : p ≤ text.length) : d.scan text p none = d.longest (text.drop p) := by
  have window : Dfa.window? text p none = some (text.drop p) := by
    rw [window?_eq, if_neg]
    · rw [Dfa.limit, Int.toNat_natCast, List.take_of_length_le]
      rw [List.length_drop]
      omega
    · rw [Dfa.limit]
      omega
  rw [Dfa.scan, window]

theorem Serves.longest (h : x.Serves d r) (inside : p ≤ text.length) :
    x.Serves (d.longest (text.drop p)).2 r ∧
      IsLargest (x.Matches text r p) ((d.longest (text.drop p)).1.map Prod.fst) := by
  obtain ⟨sound, below⟩ := h
  obtain ⟨sound', below', -⟩ := sound.longest (text.drop p)
  have largest : IsLargest (x.Matches text r p) (d.matchLength text p none).1 :=
    Nfa.isLargest_matchLength sound below
  rw [Dfa.matchLength, scan_front inside] at largest
  exact ⟨⟨sound', below'.trans below⟩, largest⟩

/-- The first of the expressions that matches something at the position, if there is one. -/
def FirstMatch (x : Lexicon) (text : List Char) (rs : List Regex) (p n : Nat) : Prop :=
  n = 0 ∧ (∀ r ∈ rs, ∀ m, x.Matches text r p m → m = 0) ∨
    0 < n ∧ ∃ (i : Nat) (r : Regex), rs[i]? = some r ∧ IsLargest (x.Matches text r p) (some n) ∧
      ∀ j < i, ∀ r', rs[j]? = some r' → ∀ m, x.Matches text r' p m → m = 0

theorem FirstMatch.cons (h : x.FirstMatch text rs p n) (nothing : ∀ m, x.Matches text r p m → m = 0) :
    x.FirstMatch text (r :: rs) p n := by
  rcases h with ⟨zero, rest⟩ | ⟨positive, i, r', listed, largest, before⟩
  · exact .inl ⟨zero, List.forall_mem_cons.2 ⟨nothing, rest⟩⟩
  · refine .inr ⟨positive, i + 1, r', listed, largest, fun j less r'' listed' => ?_⟩
    cases j with
    | zero =>
      cases listed'
      exact nothing
    | succ j => exact before j (Nat.lt_of_succ_lt_succ less) r'' listed'

theorem ignoredLength_spec (h : List.Forall₂ x.Serves ds rs) (inside : p ≤ text.length) :
    List.Forall₂ x.Serves (Lexer.ignoredLength (text.drop p) ds).2 rs ∧
      x.FirstMatch text rs p (Lexer.ignoredLength (text.drop p) ds).1 := by
  induction h with
  | nil => exact ⟨.nil, .inl ⟨rfl, nofun⟩⟩
  | @cons d r ds rs head _ ih =>
    obtain ⟨served, largest⟩ := head.longest inside
    rw [Lexer.ignoredLength]
    generalize d.longest (text.drop p) = result at served largest
    obtain ⟨hit, d'⟩ := result
    have further : (∀ m, x.Matches text r p m → m = 0) →
        List.Forall₂ x.Serves (d' :: (Lexer.ignoredLength (text.drop p) ds).2) (r :: rs) ∧
          x.FirstMatch text (r :: rs) p (Lexer.ignoredLength (text.drop p) ds).1 :=
      fun nothing => ⟨.cons served ih.1, ih.2.cons nothing⟩
    cases hit with
    | none => exact further fun m fits => absurd fits (largest m)
    | some found =>
      obtain ⟨n, a⟩ := found
      cases n with
      | zero => exact further fun m fits => Nat.le_zero.1 (largest.2 m fits)
      | succ n =>
        refine ⟨.cons served ‹_›, .inr ⟨Nat.succ_pos n, 0, r, rfl, largest, ?_⟩⟩
        intro j less
        cases less

/-! ## Where a lexer stands -/

/-- The lexer stands at the position of the text. -/
structure Stands (x : Lexicon) (l : Lexer) (text : List Char) (p : Nat) : Prop where
  sound : l.rules.Sound
  below : l.rules.nfa = Nfa.ofRulesBy x.property x.rules
  ignored : List.Forall₂ x.Serves l.ignored x.ignored
  whole : l.text = text
  inside : p ≤ text.length
  rest : l.rest = text.drop p
  offset : l.offset = p
  position : l.position = place text p

theorem Stands.rest_eq_nil_iff (h : x.Stands l text p) : l.rest = [] ↔ p = text.length := by
  have := h.inside
  rw [h.rest, List.drop_eq_nil_iff]
  omega

theorem Stands.consume (h : x.Stands l text p) (inside : p + n ≤ text.length) :
    x.Stands (l.consume n) text (p + n) where
  sound := h.sound
  below := h.below
  ignored := h.ignored
  whole := h.whole
  inside := inside
  rest := by
    rw [Lexer.consume, h.rest, List.drop_drop]
  offset := by
    rw [Lexer.consume, h.offset]
  position := by
    rw [Lexer.consume, Position.past_eq_afterAll, h.position, h.rest, ← place_add]

/-- What is ignored is skipped, up to a position where nothing is. -/
theorem Stands.skipIgnored (h : x.Stands l text p) : ∃ q, x.Skips text p q ∧ x.Rests text q ∧
    x.Stands l.skipIgnored text q ∧ l.skipIgnored.pending = l.pending := by
  generalize left : text.length - p = k
  induction k using Nat.strongRecOn generalizing l p with
  | ind k ih =>
    rw [Lexer.skipIgnored]
    by_cases ended : l.rest = []
    · rw [if_pos ended]
      rw [h.rest_eq_nil_iff] at ended
      exact ⟨p, .nil p, ended ▸ rests_length, h, rfl⟩
    · rw [if_neg ended]
      obtain ⟨served, first⟩ := ignoredLength_spec h.ignored h.inside
      rw [← h.rest] at served first
      generalize Lexer.ignoredLength l.rest l.ignored = result at served first
      obtain ⟨n, ignored⟩ := result
      dsimp only at served first ⊢
      have stands : x.Stands { l with ignored := ignored } text p :=
        ⟨h.sound, h.below, served, h.whole, h.inside, h.rest, h.offset, h.position⟩
      rcases first with ⟨rfl, nothing⟩ | ⟨positive, first⟩
      · exact ⟨p, .nil p, nothing, stands, rfl⟩
      · have ignores : x.Ignores text p n := ⟨positive, first⟩
        have inside := ignores.le
        rw [if_pos positive]
        obtain ⟨q, skips, rests, stands', pending⟩ :=
          ih (text.length - (p + n)) (by omega) (stands.consume inside) rfl
        exact ⟨q, .cons ignores skips, rests, stands', pending⟩

/-- The error that a lexer gives up with at a position, unless the text ends there. -/
def failureAt (text : List Char) (p : Nat) : Option Error :=
  text[p]?.map fun c => .source (.unmatchedInput c (Place.within text (place text p) p))

/-- How a scan from a position can end: at the end of the text, with a token, or where the lexer cannot go
on. -/
inductive Scanned (x : Lexicon) (text : List Char) (p : Nat) (pending : Option Token) :
    EStateM.Result Error Lexer (Option Token) → Prop
  | ended {l : Lexer} : x.Skips text p text.length → x.Stands l text text.length → l.pending = pending →
      Scanned x text p pending (.ok none l)
  | token {q r : Nat} {t : Token} {l : Lexer} : x.Skips text p q → x.Cut text q t r → x.Stands l text r →
      l.pending = pending → Scanned x text p pending (.ok (some t) l)
  | failed {q : Nat} {e : Error} {l : Lexer} : x.Skips text p q → x.Fails text q → x.Stands l text q →
      failureAt text q = some e → l.pending = pending → Scanned x text p pending (.error e l)

/-- The longest match of the rules at a position. -/
theorem Stands.longest (h : x.Stands l text p) :
    x.Stands { l with rules := (l.rules.longest l.rest).2 } text p ∧
      Nfa.IsFirstLongest x.property x.rules text p none (l.rules.longest l.rest).1 := by
  obtain ⟨sound, below, -⟩ := h.sound.longest l.rest
  have first : Nfa.IsFirstLongest x.property x.rules text p none (l.rules.scan text p none).1 :=
    Nfa.isFirstLongest_scan h.sound h.below
  rw [scan_front h.inside, ← h.rest] at first
  exact ⟨⟨sound, below.trans h.below, h.ignored, h.whole, h.inside, h.rest, h.offset, h.position⟩, first⟩

theorem Stands.failure (h : x.Stands l text p) {c : Char} {cs : List Char} (rest : l.rest = c :: cs) :
    p < text.length ∧ failureAt text p =
      some (.source (.unmatchedInput c (Place.within l.text l.position l.offset))) := by
  have at_p : text[p]? = some c := by
    have drop := h.rest.symm.trans rest
    rw [← List.head?_drop, drop]
    rfl
  refine ⟨(List.getElem?_eq_some_iff.1 at_p).1, ?_⟩
  rw [failureAt, at_p, h.whole, h.position, h.offset]
  rfl

/-- A scan ends as the process does. -/
theorem Stands.scanToken (h : x.Stands l text p) : x.Scanned text p l.pending (Lexer.scanToken l) := by
  obtain ⟨q, skips, rests, stands, pending⟩ := h.skipIgnored
  rw [Lexer.scanToken_eq, ← pending]
  unfold Lexer.cutToken
  split
  · rename_i rest
    obtain rfl := stands.rest_eq_nil_iff.1 rest
    exact .ended skips stands rfl
  · rename_i c cs rest
    obtain ⟨inside, failure⟩ := stands.failure rest
    obtain ⟨stands', first⟩ := stands.longest
    dsimp only
    cases hit : (l.skipIgnored.rules.longest l.skipIgnored.rest).1 with
    | none =>
      rw [hit] at first
      exact .failed skips ⟨inside, rests, fun rule mem m fits => absurd fits (first rule mem m)⟩ stands'
        failure rfl
    | some found =>
      obtain ⟨n, k, name⟩ := found
      rw [hit] at first
      cases n with
      | zero =>
        refine .failed skips ⟨inside, rests, fun rule mem m fits => ?_⟩ stands' failure rfl
        obtain ⟨j, listed⟩ := List.mem_iff_getElem?.1 mem
        exact Nat.le_zero.1 (first.2 j rule m listed fits).1
      | succ n =>
        have takes : x.Takes text q (n + 1) name := ⟨Nat.succ_pos n, k, first⟩
        have cut : x.Cut text q ⟨name, String.ofList (l.skipIgnored.rest.take (n + 1)),
            l.skipIgnored.position.line, l.skipIgnored.position.column, l.skipIgnored.offset⟩
            (q + (n + 1)) := by
          refine ⟨rests, congrArg Int.ofNat stands.offset, ?_, ?_, n + 1, takes, ?_, rfl⟩
          · rw [stands.position]
          · rw [stands.position]
          · rw [stands.rest]
        exact .token skips cut (stands'.consume takes.le) rfl

/-! ## Tokens one after the other -/

/-- From a position there is a run. -/
theorem Stands.exists_run (h : x.Stands l text p) : ∃ ts e, x.Run text p ts e := by
  generalize left : text.length - p = k
  induction k using Nat.strongRecOn generalizing l p with
  | ind k ih =>
    have scanned := h.scanToken
    generalize Lexer.scanToken l = result at scanned
    cases scanned with
    | ended skips _ _ => exact ⟨[], _, .nil skips (.inl rfl)⟩
    | failed skips fails _ _ _ => exact ⟨[], _, .nil skips (.inr fails)⟩
    | @token q r t l' skips cut stands _ =>
      obtain ⟨n, takes, -, rfl⟩ := id cut.taken
      have := takes.le
      have := takes.1
      have := skips.le
      obtain ⟨ts, e, run⟩ := ih (text.length - (q + n)) (by omega) stands rfl
      exact ⟨t :: ts, e, .cons skips cut run⟩

/-- The tokens that a lexer still has to give, the one that was looked at before those of a run. -/
def Yields (x : Lexicon) (l : Lexer) (text : List Char) (ts : List Token) (e : Nat) : Prop :=
  ∃ p ts', x.Stands l text p ∧ x.Run text p ts' e ∧ ts = l.pending.toList ++ ts'

theorem Stands.yields (h : x.Stands l text p) (run : x.Run text p ts e) {pending : Option Token}
    (same : l.pending = pending) : x.Yields l text (pending.toList ++ ts) e :=
  ⟨p, ts, h, run, same ▸ rfl⟩

theorem Stands.withPending (h : x.Stands l text p) (t : Option Token) :
    x.Stands { l with pending := t } text p :=
  ⟨h.sound, h.below, h.ignored, h.whole, h.inside, h.rest, h.offset, h.position⟩

theorem failureAt_length : failureAt text text.length = none := by
  rw [failureAt, List.getElem?_eq_none (Nat.le_refl _)]
  rfl

/-- What a look at the next token comes to. All tokens are left behind it; they are without the first one
once that is taken. -/
inductive Peeked (x : Lexicon) (text : List Char) (e : Nat) :
    List Token → EStateM.Result Error Lexer (Option Token) → Prop
  | token {t : Token} {ts : List Token} {l : Lexer} : x.Yields l text (t :: ts) e →
      x.Yields { l with pending := none } text ts e → Peeked x text e (t :: ts) (.ok (some t) l)
  | ended {l : Lexer} : failureAt text e = none → x.Yields l text [] e →
      x.Yields { l with pending := none } text [] e → Peeked x text e [] (.ok none l)
  | failed {l : Lexer} {error : Error} : failureAt text e = some error → x.Yields l text [] e →
      Peeked x text e [] (.error error l)

theorem Peeked.stands {result : EStateM.Result Error Lexer (Option Token)}
    (h : x.Peeked text e ts result) : ∃ p, match result with
      | .ok _ l => x.Stands l text p
      | .error _ l => x.Stands l text p := by
  cases h with
  | token yields _ | ended _ yields _ | failed _ yields =>
    obtain ⟨p, -, stands, -⟩ := yields
    exact ⟨p, stands⟩

theorem peek_of_pending (pending : l.pending = some t) : Lexer.peek l = .ok (some t) l := by
  cases l
  cases pending
  rfl

theorem peek_of_none (pending : l.pending = none) : Lexer.peek l =
    match Lexer.scanToken l with
    | .ok t l' => .ok t { l' with pending := t }
    | .error e l' => .error e l' := by
  cases l
  cases pending
  unfold Lexer.peek
  show EStateM.bind Lexer.scanToken _ _ = _
  unfold EStateM.bind
  cases Lexer.scanToken _ <;> rfl

theorem Yields.peek (h : x.Yields l text ts e) : x.Peeked text e ts (Lexer.peek l) := by
  obtain ⟨p, ts', stands, run, rfl⟩ := h
  cases pending : l.pending with
  | some t =>
    rw [peek_of_pending pending]
    exact .token (stands.yields run pending) ((stands.withPending none).yields run rfl)
  | none =>
    rw [peek_of_none pending]
    have scanned := stands.scanToken
    generalize Lexer.scanToken l = result at scanned
    cases scanned with
    | ended skips stands' _ =>
      obtain ⟨rfl, rfl⟩ := (run.skips skips).of_halt (.inl rfl)
      have yields := (stands'.withPending none).yields (run_of_halt (.inl rfl)) rfl
      exact .ended failureAt_length yields yields
    | @token q r t l' skips cut stands' _ =>
      obtain ⟨ts'', rfl, rest⟩ := (run.skips skips).of_cut cut
      exact .token ((stands'.withPending (some t)).yields rest rfl)
        ((stands'.withPending none).yields rest rfl)
    | failed skips fails stands' failure pending' =>
      obtain ⟨rfl, rfl⟩ := (run.skips skips).of_halt (.inr fails)
      exact .failed failure (stands'.yields (run_of_halt (.inr fails)) (pending'.trans pending))

theorem next_eq : Lexer.next l =
    match Lexer.peek l with
    | .ok t l' => .ok t { l' with pending := none }
    | .error e l' => .error e l' := by
  unfold Lexer.next
  show EStateM.bind Lexer.peek _ l = _
  unfold EStateM.bind
  cases Lexer.peek l <;> rfl

end Lexicon

/-! ## Operations -/

namespace Lexer

/-- What a text that was set can be asked for. -/
inductive Op where
  | peek | next

namespace Op

def run : Op → Lexing (Option Token)
  | peek => Lexer.peek
  | next => Lexer.next

end Op

/-- The answers to some operations one after the other, also behind one that failed. -/
def answers : Lexer → List Op → List (Except Error (Option Token))
  | _, [] => []
  | l, op :: ops =>
    match op.run l with
    | .ok t l' => .ok t :: answers l' ops
    | .error e l' => .error e :: answers l' ops

/-- The first token that is left; behind the last one there is none, or the failure. -/
def front (failure : Option Error) : List Token → Except Error (Option Token)
  | t :: _ => .ok (some t)
  | [] => failure.elim (.ok none) .error

/-- The answers if the tokens are handed out in order: a look leaves the token where it is. -/
def handed (failure : Option Error) : List Token → List Op → List (Except Error (Option Token))
  | _, [] => []
  | ts, .peek :: ops => front failure ts :: handed failure ts ops
  | ts, .next :: ops => front failure ts :: handed failure ts.tail ops

end Lexer

namespace Lexicon

variable {x : Lexicon} {text : List Char} {p e bound : Nat} {ts before : List Token} {l : Lexer}

/-- Looks and takes in any order hand out the tokens in order. -/
theorem Yields.answers (h : x.Yields l text ts e) (ops : List Lexer.Op) :
    l.answers ops = Lexer.handed (failureAt text e) ts ops := by
  induction ops generalizing l ts with
  | nil => rfl
  | cons op ops ih =>
    have peeked := h.peek
    cases op with
    | peek =>
      rw [Lexer.answers, Lexer.handed, Lexer.Op.run]
      generalize Lexer.peek l = result at peeked
      cases peeked with
      | token yields _ => exact congrArg _ (ih yields)
      | ended ends yields _ =>
        rw [ends] at ih ⊢
        exact congrArg _ (ih yields)
      | failed failure yields =>
        rw [failure] at ih ⊢
        exact congrArg _ (ih yields)
    | next =>
      rw [Lexer.answers, Lexer.handed, Lexer.Op.run, next_eq]
      generalize Lexer.peek l = result at peeked
      cases peeked with
      | token _ yields => exact congrArg _ (ih yields)
      | ended ends _ yields =>
        rw [ends] at ih ⊢
        exact congrArg _ (ih yields)
      | failed failure yields =>
        rw [failure] at ih ⊢
        exact congrArg _ (ih yields)

theorem take_succ : Lexer.take (bound + 1) before l =
    match Lexer.peek l with
    | .ok none l' => .ok before.reverse { l' with pending := none }
    | .ok (some t) l' => Lexer.take bound (t :: before) { l' with pending := none }
    | .error e l' => .error e l' := by
  rw [Lexer.take]
  show EStateM.bind Lexer.next _ l = _
  unfold EStateM.bind
  rw [next_eq]
  cases Lexer.peek l with
  | ok t l' => cases t <;> rfl
  | error e l' => rfl

/-- Taking all tokens ends as the run does. -/
theorem Yields.take (h : x.Yields l text ts e) (enough : ts.length < bound) :
    ∃ l' p, x.Stands l' text p ∧ Lexer.take bound before l =
      match failureAt text e with
      | none => .ok (before.reverse ++ ts) l'
      | some error => .error error l' := by
  induction bound generalizing l ts before with
  | zero => cases enough
  | succ bound ih =>
    have peeked := h.peek
    rw [take_succ]
    generalize Lexer.peek l = result at peeked
    cases peeked with
    | @token t ts l _ yields =>
      obtain ⟨l', p, stands, same⟩ := @ih _ (t :: before) _ yields (Nat.lt_of_succ_lt_succ enough)
      rw [List.reverse_cons, List.append_assoc] at same
      exact ⟨l', p, stands, same⟩
    | ended ends _ yields =>
      obtain ⟨p, ts', stands, -⟩ := yields
      rw [ends]
      exact ⟨_, p, stands, by rw [List.append_nil]⟩
    | failed failure yields =>
      obtain ⟨p, ts', stands, -⟩ := yields
      rw [failure]
      exact ⟨_, p, stands, rfl⟩

end Lexicon

end ParserGenerator
