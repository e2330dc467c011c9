import ParserGenerator.Lexer.Basic
import ParserGenerator.Proofs.Regex.Matching

/-!
# How a text is cut

A lexer goes through a text from its start. At each position it either skips the longest match of the
first ignored expression that matches something, or, where none does, cuts the longest match of the rules,
or it cannot go on. Where it is next depends on the position alone.
-/

namespace ParserGenerator

/-- What a lexer is made of. -/
structure Lexicon where
  property : PropertyTest
  rules : List (String × Regex)
  ignored : List Regex

namespace Lexicon

/-- So many characters at a position match an expression. -/
def Matches (x : Lexicon) (text : List Char) (r : Regex) (p n : Nat) : Prop :=
  Fits (r.language x.property) text p none n

/-- No ignored expression matches anything at the position. -/
def Rests (x : Lexicon) (text : List Char) (p : Nat) : Prop :=
  ∀ r ∈ x.ignored, ∀ n, x.Matches text r p n → n = 0

/-- Something at the position is the longest match of the first ignored expression that matches
something. -/
def Ignores (x : Lexicon) (text : List Char) (p n : Nat) : Prop :=
  0 < n ∧ ∃ (i : Nat) (r : Regex), x.ignored[i]? = some r ∧ IsLargest (x.Matches text r p) (some n) ∧
    ∀ j < i, ∀ r', x.ignored[j]? = some r' → ∀ m, x.Matches text r' p m → m = 0

/-- Something at the position is the longest match of the rules, and of those that match that far the
named one comes first. -/
def Takes (x : Lexicon) (text : List Char) (p n : Nat) (name : String) : Prop :=
  0 < n ∧ ∃ k, Nfa.IsFirstLongest x.property x.rules text p none (some (n, k, name))

/-- The text goes on at the position, but nothing there matches anything. -/
def Fails (x : Lexicon) (text : List Char) (p : Nat) : Prop :=
  p < text.length ∧ x.Rests text p ∧ ∀ rule ∈ x.rules, ∀ n, x.Matches text rule.2 p n → n = 0

/-- From one position to the other everything is ignored, piece by piece. -/
inductive Skips (x : Lexicon) (text : List Char) : Nat → Nat → Prop
  | nil (p : Nat) : Skips x text p p
  | cons {p n q : Nat} : x.Ignores text p n → Skips x text (p + n) q → Skips x text p q

/-- The positions that a lexer comes to. -/
inductive Reaches (x : Lexicon) (text : List Char) : Nat → Prop
  | start : Reaches x text 0
  | skip {p n : Nat} : Reaches x text p → x.Ignores text p n → Reaches x text (p + n)
  | cut {p n : Nat} {name : String} : Reaches x text p → x.Rests text p → x.Takes text p n name →
      Reaches x text (p + n)

/-- The line and the column of a position, told from the line feeds before it. -/
def place (text : List Char) (p : Nat) : Position := Position.start.afterAll (text.take p)

/-- The token is cut at the position and ends at the other one. -/
structure Cut (x : Lexicon) (text : List Char) (p : Nat) (t : Token) (q : Nat) : Prop where
  rests : x.Rests text p
  offset : t.offset = p
  line : t.line = (place text p).line
  column : t.column = (place text p).column
  taken : ∃ n, x.Takes text p n t.kind ∧ t.text = String.ofList ((text.drop p).take n) ∧ q = p + n

/-- From a position on the tokens are cut; then the text is at its end, or the lexer cannot go on. -/
inductive Run (x : Lexicon) (text : List Char) : Nat → List Token → Nat → Prop
  | nil {p q : Nat} : x.Skips text p q → q = text.length ∨ x.Fails text q → Run x text p [] q
  | cons {p q r e : Nat} {t : Token} {ts : List Token} : x.Skips text p q → x.Cut text q t r →
      Run x text r ts e → Run x text p (t :: ts) e

variable {x : Lexicon} {text : List Char} {p q n m e : Nat} {name : String} {t : Token} {ts : List Token}
  {r : Regex}

theorem place_add : place text (p + n) = (place text p).afterAll ((text.drop p).take n) := by
  rw [place, place, List.take_add, Position.afterAll_append]

theorem Matches.le (h : x.Matches text r p n) : p + n ≤ text.length := by
  obtain ⟨-, behind, -⟩ := h
  exact Int.ofNat_le.1 behind

theorem Ignores.le (h : x.Ignores text p n) : p + n ≤ text.length := by
  obtain ⟨-, i, r, -, ⟨fits, -⟩, -⟩ := h
  exact Matches.le fits

theorem Takes.le (h : x.Takes text p n name) : p + n ≤ text.length := by
  obtain ⟨-, k, ⟨r, -, fits⟩, -⟩ := h
  exact Matches.le fits

theorem Ignores.not_rests (h : x.Ignores text p n) : ¬ x.Rests text p := by
  obtain ⟨positive, i, r, listed, ⟨fits, -⟩, -⟩ := h
  intro rests
  exact positive.ne' (rests r (List.mem_of_getElem? listed) n fits)

theorem Takes.not_fails (h : x.Takes text p n name) : ¬ x.Fails text p := by
  obtain ⟨positive, k, ⟨r, listed, fits⟩, -⟩ := h
  rintro ⟨-, -, nothing⟩
  exact positive.ne' (nothing (name, r) (List.mem_of_getElem? listed) n fits)

/-- The kind of a token is the name of a rule. -/
theorem Cut.kind_mem (cut : x.Cut text p t q) : t.kind ∈ x.rules.map Prod.fst := by
  obtain ⟨n, ⟨-, k, ⟨r, listed, -⟩, -⟩, -⟩ := cut.taken
  exact List.mem_map_of_mem (List.mem_of_getElem? listed)

/-! ## What comes next is determined -/

theorem Ignores.unique (h : x.Ignores text p n) (h' : x.Ignores text p m) : n = m := by
  obtain ⟨positive, i, r, listed, ⟨fits, greatest⟩, before⟩ := h
  obtain ⟨positive', i', r', listed', ⟨fits', greatest'⟩, before'⟩ := h'
  rcases Nat.lt_trichotomy i i' with less | rfl | less
  · exact absurd (before' i less r listed n fits) positive.ne'
  · cases listed.symm.trans listed'
    exact Nat.le_antisymm (greatest' n fits) (greatest m fits')
  · exact absurd (before i' less r' listed' m fits') positive'.ne'

theorem Takes.unique {name' : String} (h : x.Takes text p n name) (h' : x.Takes text p m name') :
    n = m ∧ name = name' := by
  obtain ⟨-, k, ⟨r, listed, fits⟩, greatest⟩ := h
  obtain ⟨-, k', ⟨r', listed', fits'⟩, greatest'⟩ := h'
  obtain ⟨le, first⟩ := greatest' k _ n listed fits
  obtain ⟨le', first'⟩ := greatest k' _ m listed' fits'
  obtain rfl := Nat.le_antisymm le le'
  obtain rfl := Nat.le_antisymm (first' rfl) (first rfl)
  cases listed.symm.trans listed'
  exact ⟨rfl, rfl⟩

/-- One token is cut at a position. -/
theorem Cut.unique {t' : Token} {q' : Nat} (h : x.Cut text p t q) (h' : x.Cut text p t' q') :
    t = t' ∧ q = q' := by
  obtain ⟨n, takes, same, rfl⟩ := h.taken
  obtain ⟨n', takes', same', rfl⟩ := h'.taken
  obtain ⟨rfl, kind⟩ := takes.unique takes'
  refine ⟨?_, rfl⟩
  cases t
  cases t'
  rw [Token.mk.injEq]
  exact ⟨kind, same.trans same'.symm, h.line.trans h'.line.symm, h.column.trans h'.column.symm,
    h.offset.trans h'.offset.symm⟩

theorem Skips.le (h : x.Skips text p q) : p ≤ q := by
  induction h with
  | nil => exact Nat.le_refl _
  | cons _ _ ih => omega

/-- Where nothing is ignored nothing is skipped. -/
theorem Skips.eq_of_rests (h : x.Skips text p q) (rests : x.Rests text p) : p = q := by
  cases h with
  | nil => rfl
  | cons ignores _ => exact absurd rests ignores.not_rests

/-- Where something is ignored it is skipped first. -/
theorem Skips.behind (h : x.Skips text p q) (ignores : x.Ignores text p n) (rests : x.Rests text q) :
    x.Skips text (p + n) q := by
  cases h with
  | nil => exact absurd rests ignores.not_rests
  | cons ignores' rest => exact ignores.unique ignores' ▸ rest

theorem rests_length : x.Rests text text.length := by
  intro r _ n fits
  have := Matches.le fits
  omega

theorem rests_of_halt (h : q = text.length ∨ x.Fails text q) : x.Rests text q := by
  rcases h with rfl | fails
  · exact rests_length
  · exact fails.2.1

theorem Run.skip (h : x.Run text p ts e) (ignores : x.Ignores text p n) : x.Run text (p + n) ts e := by
  cases h with
  | nil skips halt => exact .nil (skips.behind ignores (rests_of_halt halt)) halt
  | cons skips cut rest => exact .cons (skips.behind ignores cut.rests) cut rest

theorem Run.skips (h : x.Run text p ts e) (skips : x.Skips text p q) : x.Run text q ts e := by
  induction skips with
  | nil => exact h
  | cons ignores _ ih => exact ih (h.skip ignores)

theorem Cut.not_halt (h : x.Cut text p t q) : ¬ (p = text.length ∨ x.Fails text p) := by
  obtain ⟨n, takes, -⟩ := h.taken
  rintro (rfl | fails)
  · have := takes.le
    have := takes.1
    omega
  · exact takes.not_fails fails

/-- Where the text ends or the lexer cannot go on, the run is over. -/
theorem Run.of_halt (h : x.Run text p ts e) (halt : p = text.length ∨ x.Fails text p) :
    ts = [] ∧ p = e := by
  cases h with
  | nil skips _ => exact ⟨rfl, skips.eq_of_rests (rests_of_halt halt)⟩
  | cons skips cut _ =>
    obtain rfl := skips.eq_of_rests (rests_of_halt halt)
    exact absurd halt cut.not_halt

/-- Where a token is cut, it is the first one of the run. -/
theorem Run.of_cut {q : Nat} (h : x.Run text p ts e) (cut : x.Cut text p t q) :
    ∃ ts', ts = t :: ts' ∧ x.Run text q ts' e := by
  cases h with
  | nil skips halt =>
    obtain rfl := skips.eq_of_rests cut.rests
    exact absurd halt cut.not_halt
  | cons skips cut' rest =>
    obtain rfl := skips.eq_of_rests cut.rests
    obtain ⟨rfl, rfl⟩ := cut.unique cut'
    exact ⟨_, rfl, rest⟩

theorem Run.halt (h : x.Run text p ts e) : e = text.length ∨ x.Fails text e := by
  induction h with
  | nil _ halt => exact halt
  | cons _ _ _ ih => exact ih

theorem Run.kinds (run : x.Run text p ts e) : ∀ t ∈ ts, t.kind ∈ x.rules.map Prod.fst := by
  induction run with
  | nil => exact nofun
  | cons _ cut _ ih => exact List.forall_mem_cons.2 ⟨cut.kind_mem, ih⟩

theorem run_of_halt (halt : p = text.length ∨ x.Fails text p) : x.Run text p [] p := .nil (.nil p) halt

theorem Takes.exists_cut (h : x.Takes text p n name) (rests : x.Rests text p) :
    ∃ t, x.Cut text p t (p + n) :=
  ⟨⟨name, String.ofList ((text.drop p).take n), (place text p).line, (place text p).column, p⟩,
    rests, rfl, rfl, rfl, n, h, rfl, rfl⟩

/-- A run goes through all positions that are reached. -/
theorem Reaches.run (h : x.Reaches text p) (run : x.Run text 0 ts e) : ∃ ts', x.Run text p ts' e := by
  induction h with
  | start => exact ⟨ts, run⟩
  | skip _ ignores ih =>
    obtain ⟨ts', run⟩ := ih
    exact ⟨ts', run.skip ignores⟩
  | cut _ rests takes ih =>
    obtain ⟨ts', run⟩ := ih
    obtain ⟨t, cut⟩ := takes.exists_cut rests
    obtain ⟨ts'', -, rest⟩ := run.of_cut cut
    exact ⟨ts'', rest⟩

/-- Where a lexer that comes there cannot go on, every run ends. -/
theorem Reaches.eq_of_fails (h : x.Reaches text p) (fails : x.Fails text p) (run : x.Run text 0 ts e) :
    p = e := by
  obtain ⟨ts', run⟩ := h.run run
  exact (run.of_halt (.inr fails)).2

theorem Reaches.skips (h : x.Reaches text p) (skips : x.Skips text p q) : x.Reaches text q := by
  induction skips with
  | nil => exact h
  | cons ignores _ ih => exact ih (h.skip ignores)

/-- A run ends at a position that is reached. -/
theorem Run.reaches (h : x.Run text p ts e) (reached : x.Reaches text p) : x.Reaches text e := by
  induction h with
  | nil skips _ => exact reached.skips skips
  | cons skips cut _ ih =>
    obtain ⟨n, takes, -, rfl⟩ := cut.taken
    exact ih ((reached.skips skips).cut cut.rests takes)

/-- Each token takes a character. -/
theorem Run.length_le (h : x.Run text p ts e) : p + ts.length ≤ e := by
  induction h with
  | nil skips _ => exact skips.le
  | cons skips cut _ ih =>
    obtain ⟨n, ⟨positive, -⟩, -, rfl⟩ := cut.taken
    have := skips.le
    rw [List.length_cons]
    omega

end Lexicon

end ParserGenerator
