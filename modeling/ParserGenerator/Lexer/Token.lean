/-!
# Tokens

A token has a kind, which is the name of a terminal, its text, and the place where it begins. Tokens
that come from elsewhere than a lexer may carry any numbers as their place.
-/

namespace ParserGenerator

structure Token where
  kind : String
  text : String
  line : Int
  column : Int
  offset : Int
  deriving DecidableEq

end ParserGenerator
