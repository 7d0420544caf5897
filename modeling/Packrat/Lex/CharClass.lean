import Packrat.Text.Blank

/-! # Character classes

    The classes that data-described rules are written with. -/

namespace Packrat

/-- A class of characters. -/
inductive CharClass where
  /-- The 52 letters of ASCII. -/
  | letter
  /-- The 26 small letters of ASCII. -/
  | smallLetter
  /-- The ten digits of ASCII. -/
  | digit
  /-- White space. -/
  | blank
  /-- Every character. -/
  | any
  /-- One of these. -/
  | oneOf (chars : List Char)
  /-- None of these. -/
  | noneOf (chars : List Char)
deriving DecidableEq, Repr

namespace CharClass

/-- The character belongs to the class. -/
def accepts : CharClass → Char → Bool
  | letter, c => c.isAlpha
  | smallLetter, c => c.isLower
  | digit, c => c.isDigit
  | blank, c => Text.isBlank c
  | any, _ => true
  | oneOf cs, c => cs.contains c
  | noneOf cs, c => !cs.contains c

end CharClass

end Packrat
