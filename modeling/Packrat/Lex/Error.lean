import Packrat.Position
import Packrat.Text.Quoted

/-! # Lexical errors

    A text can fail to become tokens in two ways: no rule takes the next character,
    or a rule claims a match that leaves the cursor where it was.  Lexical errors
    are never recovered from. -/

namespace Packrat

/-- Why a text could not be cut into tokens. -/
inductive LexError where
  /-- No rule takes the character at `position`. -/
  | invalidCharacter (ch : Char) (position : Position)
  /-- The round of rules at `position` moved nothing. -/
  | noProgress (position : Position)
deriving DecidableEq, Repr

namespace LexError

/-- The place that the error is about. -/
def position : LexError → Position
  | invalidCharacter _ p => p
  | noProgress p => p

/-- The error as readers are told it. -/
def message : LexError → String
  | invalidCharacter ch p => "invalid character " ++ Text.quoteChar ch ++ " at " ++ p.render
  | noProgress p => "lexing rule made no progress at " ++ p.render

end LexError

end Packrat
