import Packrat.Lex.Error
import Packrat.Token

/-! # Token streams

    A token stream answers every call with the next token or a lexical error.  It
    never runs dry: a stream whose input is used up answers with its end-of-input
    token on every call.  A stream may go on after an error.

    `Metered` counts the calls made into a stream, the failed ones included. -/

namespace Packrat

/-- A state `σ` from which tokens of the kinds `κ` can be drawn one after the other. -/
class TokenStream (σ : Type) (κ : outParam Type) where
  /-- Draws the next token. -/
  next : σ → Except LexError (Token κ) × σ

/-- A stream with a count of the calls made into it. -/
structure Metered (σ : Type) where
  /-- The stream. -/
  stream : σ
  /-- The number of calls so far. -/
  calls : Nat
deriving DecidableEq, Repr

namespace Metered

variable {σ κ : Type} [TokenStream σ κ]

/-- A stream that has not been called yet. -/
def new (stream : σ) : Metered σ := ⟨stream, 0⟩

instance : TokenStream (Metered σ) κ where
  next m :=
    let (answer, stream) := TokenStream.next m.stream
    (answer, ⟨stream, m.calls + 1⟩)

@[simp] theorem calls_next (m : Metered σ) : (TokenStream.next m).2.calls = m.calls + 1 := rfl

@[simp] theorem stream_next (m : Metered σ) :
    (TokenStream.next m).2.stream = (TokenStream.next m.stream).2 := rfl

@[simp] theorem answer_next (m : Metered σ) :
    (TokenStream.next m).1 = (TokenStream.next m.stream).1 := rfl

end Metered

end Packrat
