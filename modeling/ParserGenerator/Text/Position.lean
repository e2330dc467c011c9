/-!
# Positions in a text

Lines and columns count from one, offsets from zero. A message about a place in a text shows its line
with a caret under the place.
-/

namespace ParserGenerator

structure Position where
  line : Nat
  column : Nat
  deriving DecidableEq

namespace Position

def start : Position := ⟨1, 1⟩

/-- The position after a character: a line feed opens the next line. -/
def after (p : Position) (c : Char) : Position :=
  if c = '\n' then ⟨p.line + 1, 1⟩ else ⟨p.line, p.column + 1⟩

def afterAll (p : Position) (cs : List Char) : Position := cs.foldl after p

@[simp] theorem afterAll_nil (p : Position) : p.afterAll [] = p := rfl

@[simp] theorem afterAll_append (p : Position) (a b : List Char) :
    p.afterAll (a ++ b) = (p.afterAll a).afterAll b := List.foldl_append

/-- The position behind a piece of text that is taken as a whole: its line feeds are counted, and the columns
go on from the last one. -/
def past (p : Position) (piece : List Char) : Position :=
  let feeds := piece.count '\n'
  if feeds = 0 then ⟨p.line, p.column + piece.length⟩
  else ⟨p.line + feeds, (piece.reverse.takeWhile (· ≠ '\n')).length + 1⟩

theorem line_past (p : Position) (cs : List Char) : (p.past cs).line = p.line + cs.count '\n' := by
  by_cases none : cs.count '\n' = 0 <;> simp [past, none]

theorem past_append_singleton (p : Position) (cs : List Char) (c : Char) :
    p.past (cs ++ [c]) = (p.past cs).after c := by
  by_cases feed : c = '\n'
  · subst feed
    rw [after, if_pos rfl, line_past, past]
    simp [Nat.add_assoc]
  · have same : (cs ++ [c]).count '\n' = cs.count '\n' := by simp [feed]
    simp only [past, after, if_neg feed, same]
    by_cases none : cs.count '\n' = 0 <;> simp [none, feed, Nat.add_assoc]

/-- It does not matter whether a piece is taken as a whole or character by character. -/
theorem past_eq_afterAll (p : Position) (cs : List Char) : p.past cs = p.afterAll cs := by
  rw [← List.reverse_reverse cs]
  induction cs.reverse with
  | nil => rfl
  | cons c cs ih =>
    rw [List.reverse_cons, past_append_singleton, ih, afterAll_append]
    rfl

/-- Line and column as messages give them. -/
def text (p : Position) : String := s!"{p.line}:{p.column}"

end Position

namespace Caret

/-- The characters of the line before an offset, from the line's first one on. -/
def before (text : List Char) (offset : Nat) : List Char :=
  ((text.take offset).reverse.takeWhile (· ≠ '\n')).reverse

/-- The characters of the line from an offset on. -/
def after (text : List Char) (offset : Nat) : List Char :=
  (text.drop offset).takeWhile (· ≠ '\n')

/-- The line that holds an offset, and under it a caret at that place. A negative offset counts from
the end of the text; one past the end moves the caret that far past the end of the last line. -/
def snippet (text : List Char) (offset : Int) : String :=
  let place := if offset < 0 then (offset + text.length).toNat else min offset.toNat text.length
  let lead := before text place
  let column := (offset - (place - lead.length : Nat)).toNat
  String.ofList (lead ++ after text place ++ '\n' :: List.replicate column ' ' ++ ['^'])

end Caret

end ParserGenerator
