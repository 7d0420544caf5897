import Packrat.Text.Extender
import Packrat.Text.Ignorable
import Packrat.Text.Printable

/-! # Quoted characters and texts

    How messages quote what they found: a character between single quotes, a text
    between double quotes.  Inside, the usual controls have short escapes, the quote
    in use and the backslash are escaped, and whatever would not show as a character
    of its own is spelled as its code point in lower-case hexadecimal digits.
    Everything else stands for itself. -/

namespace Packrat.Text

/-- The quote around a single character. -/
def charQuote : Char := Char.ofNat 0x27

/-- The quote around a text. -/
def textQuote : Char := Char.ofNat 0x22

/-- The character spelled as its code point. -/
def spellCodePoint (c : Char) : List Char :=
  ['\\', 'u', '\x7b'] ++ Nat.toDigits 16 c.toNat ++ ['\x7d']

/-- The character would not show as a character of its own: it has no shape, is drawn as part of the
    character before it or is not shown by default. -/
def isHidden (c : Char) : Bool := !isPrintable c || isExtender c || isIgnorable c

/-- The character as it stands between two `quote`s. -/
def escape (quote c : Char) : List Char :=
  if c = '\x00' then ['\\', '0']
  else if c = '\t' then ['\\', 't']
  else if c = '\r' then ['\\', 'r']
  else if c = '\n' then ['\\', 'n']
  else if c = '\\' then ['\\', '\\']
  -- of the two quotes only the one in use
  else if c = quote then ['\\', quote]
  else if isHidden c then spellCodePoint c
  else [c]

/-- A single character between its quotes. -/
def quoteChar (c : Char) : String :=
  String.ofList (charQuote :: escape charQuote c ++ [charQuote])

/-- A text between its quotes. -/
def quoteText (s : String) : String :=
  String.ofList (textQuote :: s.toList.flatMap (escape textQuote) ++ [textQuote])

end Packrat.Text
