import Packrat.Position
import Packrat.Text.Slice

/-! # Tokens

    A token is a kind, the slice of the source it was cut from and the position of
    its first character.  One kind of every language marks the end of the input; a
    token of that kind is an end-of-input token wherever it came from. -/

namespace Packrat

/-- What the library asks of the kinds of a token language. -/
class TokenKind (κ : Type) where
  /-- The kind that marks the end of the input. -/
  eof : κ
  /-- The kind's name among programs. -/
  name : κ → String
  /-- How messages call the kind. -/
  label : κ → String

/-- A token of a language with the kinds `κ`. -/
structure Token (κ : Type) where
  /-- Its kind. -/
  kind : κ
  /-- The slice of the source that it covers. -/
  text : Slice
  /-- The position of its first character. -/
  position : Position
deriving DecidableEq, Repr

namespace Token

variable {κ κ' : Type}

/-- The token marks the end of the input. -/
def isEof [DecidableEq κ] [TokenKind κ] (t : Token κ) : Bool := t.kind == TokenKind.eof

/-- The token that marks the end of the input at `position`. -/
def endOfInput [TokenKind κ] (position : Position) (text : Slice) : Token κ :=
  ⟨TokenKind.eof, text, position⟩

/-- The same token with its kind renamed. -/
def mapKind (f : κ → κ') (t : Token κ) : Token κ' := ⟨f t.kind, t.text, t.position⟩

@[simp] theorem isEof_endOfInput [DecidableEq κ] [TokenKind κ] (p : Position) (s : Slice) :
    (endOfInput p s : Token κ).isEof = true := by
  simp [isEof, endOfInput]

end Token

end Packrat
