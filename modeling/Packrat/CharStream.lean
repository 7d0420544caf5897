import Packrat.Lex.Cursor
import Packrat.Text.Blank
import Packrat.TokenStream

/-! # One token per character

    The simplest token stream over a text: each character that is not blank is a
    token, and its kind is the character itself.  The dollar sign is the kind that
    marks the end of the input.  A question mark is no token but a lexical error; it
    is used up by the call that reports it, so the next call goes on after it. -/

namespace Packrat

instance : TokenKind Char := ⟨'$', Char.toString, Char.toString⟩

/-- A text that is read character by character. -/
structure CharStream where
  /-- The place that is reached. -/
  cursor : Cursor
deriving DecidableEq, Repr

namespace CharStream

/-- The stream that reads `text` from its beginning. -/
def ofText (text : String) : CharStream := ⟨.ofText text⟩

/-- Moves over blanks and draws the next token. -/
def next (s : CharStream) : Except LexError (Token Char) × CharStream :=
  let c := (s.cursor.consumeWhile Text.isBlank).2
  match c.advance with
  | (none, c') => (.ok (.endOfInput c.position (c.sliceFrom c.offset)), ⟨c'⟩)
  | (some ch, c') =>
      if ch = '?' then (.error (.invalidCharacter ch c.position), ⟨c'⟩)
      else (.ok ⟨ch, c'.sliceFrom c.offset, c.position⟩, ⟨c'⟩)

instance : TokenStream CharStream Char := ⟨next⟩

end CharStream

end Packrat
