import ParserGenerator.Proofs.Regex.Dfa

/-!
# Longest matches

Whatever was asked before, an automaton answers with the longest match at a position, and the automaton of
rules with the first rule that matches that far.
-/

namespace ParserGenerator

open Computability

/-- Where texts that are matched have to end. -/
def Dfa.limit (text : List Char) : Option Int → Int
  | none => text.length
  | some m => min m text.length

/-- So many characters at a position, none of them behind the limit, make a text of the language. -/
def Fits (L : Language Char) (text : List Char) (position : Int) (stop : Option Int) (count : Nat) :
    Prop :=
  0 ≤ position ∧ position + count ≤ Dfa.limit text stop ∧ (text.drop position.toNat).take count ∈ L

/-- The largest number that fits, or none if no number does. -/
def IsLargest (fits : Nat → Prop) : Option Nat → Prop
  | none => ∀ m, ¬ fits m
  | some n => fits n ∧ ∀ m, fits m → m ≤ n

section Window

variable {text cs : List Char} {position : Int} {stop : Option Int} {L : Language Char} {n : Nat}

theorem window?_eq : Dfa.window? text position stop =
    if position < 0 ∨ Dfa.limit text stop < position then none
    else some ((text.drop position.toNat).take (Dfa.limit text stop - position).toNat) := by
  cases stop <;> rfl

theorem not_fits_of_window (outside : Dfa.window? text position stop = none) :
    ¬ Fits L text position stop n := by
  rintro ⟨front, behind, -⟩
  rw [window?_eq] at outside
  split at outside
  · omega
  · cases outside

theorem limit_le : Dfa.limit text stop ≤ text.length := by
  cases stop with
  | none => exact le_rfl
  | some m => exact min_le_right m _

/-- What fits is what is at the front of the window. -/
theorem fits_iff_of_window (window : Dfa.window? text position stop = some cs) :
    Fits L text position stop n ↔ n ≤ cs.length ∧ cs.take n ∈ L := by
  have within : Dfa.limit text stop ≤ text.length := limit_le
  rw [window?_eq] at window
  split at window
  · cases window
  · rename_i inside
    cases window
    have length : ((text.drop position.toNat).take (Dfa.limit text stop - position).toNat).length =
        (Dfa.limit text stop - position).toNat := by
      rw [List.length_take, List.length_drop]
      omega
    rw [Fits, length, List.take_take]
    constructor
    · rintro ⟨front, behind, mem⟩
      refine ⟨by omega, ?_⟩
      rwa [min_eq_left (by omega)]
    · rintro ⟨short, mem⟩
      rw [min_eq_left short] at mem
      exact ⟨by omega, by omega, mem⟩

end Window

namespace Dfa

/-- What can be asked of an automaton. -/
inductive Query where
  | matchLength (text : List Char) (position : Int) (stop : Option Int)
  | scan (text : List Char) (position : Int) (stop : Option Int)

/-- The automaton behind a question. -/
def asked (d : Dfa) : Query → Dfa
  | .matchLength text position stop => (d.matchLength text position stop).2
  | .scan text position stop => (d.scan text position stop).2

variable {d : Dfa} {text : List Char} {position : Int} {stop : Option Int}

theorem Sound.scan (h : d.Sound) :
    (d.scan text position stop).2.Sound ∧ (d.scan text position stop).2.nfa = d.nfa := by
  rw [Dfa.scan]
  cases window? text position stop with
  | none => exact ⟨h, rfl⟩
  | some cs => exact ⟨(h.longest cs).1, (h.longest cs).2.1⟩

theorem Sound.asked (h : d.Sound) (query : Query) :
    (d.asked query).Sound ∧ (d.asked query).nfa = d.nfa := by
  cases query <;> exact h.scan

/-- Questions leave an automaton sound, and the one below as it was. -/
theorem Sound.foldl_asked (h : d.Sound) (queries : List Query) :
    (queries.foldl Dfa.asked d).Sound ∧ (queries.foldl Dfa.asked d).nfa = d.nfa := by
  induction queries generalizing d with
  | nil => exact ⟨h, rfl⟩
  | cons query queries ih =>
    obtain ⟨sound, below⟩ := h.asked query
    obtain ⟨sound', below'⟩ := ih sound
    exact ⟨sound', below'.trans below⟩

end Dfa

namespace Nfa

variable {property : PropertyTest} {r : Regex} {rules : List (String × Regex)} {d : Dfa} {text : List Char}
  {position : Int} {stop : Option Int}

theorem sound_ofRegexBy : (Dfa.ofNfa (ofRegexBy property r)).Sound :=
  Dfa.sound_ofNfa inside_ofRegexBy start_ofRegexBy

theorem sound_ofRulesBy : (Dfa.ofNfa (ofRulesBy property rules)).Sound :=
  Dfa.sound_ofNfa serves_ofRulesBy.inside serves_ofRulesBy.first

/-- The answer of an automaton of an expression. -/
theorem isLargest_matchLength (h : d.Sound) (below : d.nfa = ofRegexBy property r) :
    IsLargest (Fits (r.language property) text position stop) (d.matchLength text position stop).1 := by
  have longest := fun cs => (h.longest cs).2.2
  rw [below] at longest
  rw [Dfa.matchLength, Dfa.scan]
  cases window : Dfa.window? text position stop with
  | none => exact fun m => not_fits_of_window window
  | some cs =>
    have longest := longest cs
    dsimp only
    cases hit : (d.longest cs).1 with
    | none =>
      rw [hit] at longest
      intro m fits
      obtain ⟨short, mem⟩ := (fits_iff_of_window window).1 fits
      exact longest m short (0, "") (accepts_ofRegexBy.2 ⟨rfl, mem⟩)
    | some found =>
      rw [hit] at longest
      obtain ⟨short, ⟨accepts, -⟩, greatest⟩ := longest
      refine ⟨(fits_iff_of_window window).2 ⟨short, (accepts_ofRegexBy.1 accepts).2⟩, fun m fits => ?_⟩
      obtain ⟨short, mem⟩ := (fits_iff_of_window window).1 fits
      exact greatest m short (0, "") (accepts_ofRegexBy.2 ⟨rfl, mem⟩)

/-- A literal is compared with the front of the window. -/
theorem isLargest_literal {l : String} :
    IsLargest (Fits ((Regex.literal l).language property) text position stop)
      ((Regex.literal l).matchLengthBy property text position stop) := by
  rw [Regex.matchLengthBy]
  cases window : Dfa.window? text position stop with
  | none => exact fun m => not_fits_of_window window
  | some cs =>
    have fits_iff : ∀ m, Fits ((Regex.literal l).language property) text position stop m ↔
        m = l.length ∧ l.toList <+: cs := by
      intro m
      have mem : cs.take m ∈ (Regex.literal l).language property ↔ cs.take m = l.toList := by
        rw [Regex.language]
        rfl
      rw [fits_iff_of_window window, mem, List.prefix_iff_eq_take]
      constructor
      · rintro ⟨short, eq⟩
        have length : m = l.toList.length := by rw [← eq, List.length_take_of_le short]
        exact ⟨length.trans l.length_toList, by rw [← length, eq]⟩
      · rintro ⟨rfl, eq⟩
        have length := congrArg List.length eq
        rw [List.length_take, String.length_toList] at length
        rw [String.length_toList] at eq
        exact ⟨by omega, eq.symm⟩
    rw [Option.bind_some]
    split
    · rename_i front
      have front := List.isPrefixOf_iff_prefix.1 front
      exact ⟨(fits_iff _).2 ⟨rfl, front⟩, fun m fits => ((fits_iff m).1 fits).1.le⟩
    · rename_i other
      exact fun m fits => other (List.isPrefixOf_iff_prefix.2 ((fits_iff m).1 fits).2)

/-- The answer of an expression itself. -/
theorem isLargest_matchLengthBy : IsLargest (Fits (r.language property) text position stop)
    (r.matchLengthBy property text position stop) := by
  cases r with
  | literal l => exact isLargest_literal
  | _ => exact isLargest_matchLength sound_ofRegexBy rfl

/-- The longest match of some rules, and the first rule that matches that far. -/
def IsFirstLongest (property : PropertyTest) (rules : List (String × Regex)) (text : List Char)
    (position : Int) (stop : Option Int) : Option (Nat × Acceptance) → Prop
  | none => ∀ rule ∈ rules, ∀ m, ¬ Fits (rule.2.language property) text position stop m
  | some (n, k, name) =>
    (∃ r, rules[k]? = some (name, r) ∧ Fits (r.language property) text position stop n) ∧
      ∀ (j : Nat) rule m, rules[j]? = some rule → Fits (rule.2.language property) text position stop m →
        m ≤ n ∧ (m = n → k ≤ j)

theorem isFirstLongest_scan (h : d.Sound) (below : d.nfa = ofRulesBy property rules) :
    IsFirstLongest property rules text position stop (d.scan text position stop).1 := by
  have longest := fun cs => (h.longest cs).2.2
  rw [below] at longest
  rw [Dfa.scan]
  cases window : Dfa.window? text position stop with
  | none => exact fun rule _ m => not_fits_of_window window
  | some cs =>
    have longest := longest cs
    have accepts : ∀ {j : Nat} {rule : String × Regex} {m : Nat}, rules[j]? = some rule →
        cs.take m ∈ rule.2.language property →
          (ofRulesBy property rules).Accepts (cs.take m) (j, rule.1) :=
      fun listed mem => accepts_ofRulesBy.2 ⟨_, listed, mem⟩
    dsimp only
    cases hit : (d.longest cs).1 with
    | none =>
      rw [hit] at longest
      intro rule mem m fits
      obtain ⟨j, listed⟩ := List.mem_iff_getElem?.1 mem
      obtain ⟨short, mem⟩ := (fits_iff_of_window window).1 fits
      exact longest m short _ (accepts listed mem)
    | some found =>
      obtain ⟨n, k, name⟩ := found
      rw [hit] at longest
      obtain ⟨short, ⟨accepted, foremost⟩, greatest⟩ := longest
      obtain ⟨r, listed, mem⟩ := accepts_ofRulesBy.1 accepted
      refine ⟨⟨r, listed, (fits_iff_of_window window).2 ⟨short, mem⟩⟩, fun j rule m listed fits => ?_⟩
      obtain ⟨short', mem'⟩ := (fits_iff_of_window window).1 fits
      refine ⟨greatest m short' _ (accepts listed mem'), ?_⟩
      rintro rfl
      exact foremost _ (accepts listed mem')

/-- An automaton that was made on demand gives the longest match of the expression, and that of rules the
longest match of them all with the first rule that has it, whatever was asked of them before. The
expression itself gives the same length. -/
theorem longest_match (property : PropertyTest) (r : Regex) (rules : List (String × Regex))
    (queries : List Dfa.Query) (text : List Char) (position : Int) (stop : Option Int) :
    IsLargest (Fits (r.language property) text position stop)
        ((queries.foldl Dfa.asked (Dfa.ofNfa (ofRegexBy property r))).matchLength text position stop).1 ∧
      IsLargest (Fits (r.language property) text position stop)
        (r.matchLengthBy property text position stop) ∧
      IsFirstLongest property rules text position stop
        ((queries.foldl Dfa.asked (Dfa.ofNfa (ofRulesBy property rules))).scan text position stop).1 := by
  obtain ⟨sound, below⟩ := (@sound_ofRegexBy property r).foldl_asked queries
  obtain ⟨sound', below'⟩ := (@sound_ofRulesBy property rules).foldl_asked queries
  exact ⟨isLargest_matchLength sound below, isLargest_matchLengthBy, isFirstLongest_scan sound' below'⟩

end Nfa

end ParserGenerator
