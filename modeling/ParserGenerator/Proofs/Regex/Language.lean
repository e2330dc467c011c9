import Mathlib
import ParserGenerator.Regex.Basic

/-!
# Regular languages

An expression stands for a language: the empty text, a text, single characters, products, sums and the
repetitions of these. The characters of a property are those that pass its test, whatever that is.
-/

namespace ParserGenerator.Regex

open Computability

mutual

/-- The texts that an expression stands for. -/
def language (property : PropertyTest) : Regex → Language Char
  | empty => 1
  | literal text => {text.toList}
  | oneOf c => {w | ∃ x, c.test property x = true ∧ w = [x]}
  | concat parts => (languages property parts).prod
  | alt options => (languages property options).sum
  | star r => (r.language property)∗
  | plus r => r.language property * (r.language property)∗
  | opt r => 1 + r.language property

def languages (property : PropertyTest) : List Regex → List (Language Char)
  | [] => []
  | r :: rs => r.language property :: languages property rs

end

end ParserGenerator.Regex
