import ParserGenerator.Description.Token

/-!
# Steps of the scanner

At each place the scanner cuts off a block of action code, another token, or something to skip, and goes on
behind it; or it refuses what stands there.
-/

namespace ParserGenerator.Description

variable {text cs body rest : List Char} {offset n : Nat} {position : Position} {c : Char} {k : TokenKind}

theorem scanFrom_nil : scanFrom text offset position [] = .ok [⟨.finish, [], offset, offset, position⟩] := by
  rw [scanFrom]

/-- A block is cut off as one token, and the text is read on behind its closing brace. -/
theorem scanFrom_block (found : blockBody? {} (body ++ '\x7d' :: rest) = some body) :
    scanFrom text offset position ('\x7b' :: (body ++ '\x7d' :: rest)) =
      (scanFrom text (offset + body.length + 2) (position.afterAll ('\x7b' :: (body ++ ['\x7d']))) rest).map
        (⟨.action, body, offset, offset + body.length + 2, position⟩ :: ·) := by
  have behind : (body ++ '\x7d' :: rest).drop (body.length + 1) = rest := by
    rw [List.append_cons, List.drop_left' (by simp)]
  have before : (body ++ '\x7d' :: rest).take (body.length + 1) = body ++ ['\x7d'] := by
    rw [List.append_cons, List.take_left' (by simp)]
  have stop : offset + 1 + (body.length + 1) = offset + body.length + 2 := by omega
  rw [scanFrom, if_pos rfl, found]
  dsimp only
  rw [behind, before, stop]
  generalize scanFrom text _ _ rest = tail
  cases tail <;> rfl

theorem scanFrom_unterminated (none : blockBody? {} cs = none) :
    scanFrom text offset position ('\x7b' :: cs) =
      .error (.source (.unterminatedAction (Place.within text position offset))) := by
  rw [scanFrom, if_pos rfl, none]

theorem scanFrom_skipped (open_ : c ≠ '\x7b') (cut : lexeme? c cs = some (none, n + 1)) :
    scanFrom text offset position (c :: cs) =
      scanFrom text (offset + (n + 1)) (position.afterAll (c :: cs.take n)) (cs.drop n) := by
  rw [scanFrom, if_neg open_, cut, ← Position.past_eq_afterAll]
  exact bind_pure _

theorem scanFrom_token (open_ : c ≠ '\x7b') (cut : lexeme? c cs = some (some k, n + 1)) :
    scanFrom text offset position (c :: cs) =
      (scanFrom text (offset + (n + 1)) (position.afterAll (c :: cs.take n)) (cs.drop n)).map
        (⟨k, c :: cs.take n, offset, offset + (n + 1), position⟩ :: ·) := by
  rw [scanFrom, if_neg open_, cut, ← Position.past_eq_afterAll]
  dsimp only
  rw [Nat.add_sub_cancel]
  generalize scanFrom text _ _ _ = tail
  cases tail <;> rfl

theorem scanFrom_stuck (open_ : c ≠ '\x7b') (none : lexeme? c cs = none) :
    scanFrom text offset position (c :: cs) =
      .error (.source (.unexpectedCharacter c (Place.within text position offset))) := by
  rw [scanFrom, if_neg open_, none]

end ParserGenerator.Description
