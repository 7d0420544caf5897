import Packrat.Run
import Packrat.TokenStream

/-! # The lookahead window

    A window holds a run of consecutive tokens of a stream and a cursor among them.
    Tokens enter at the far end, pulled from the stream when someone looks at them
    or moves past them, and leave at the near end only when the owner truncates the
    window.  In between the cursor can be moved to any token held, so lookahead and
    rewinding are as deep as the owner needs.

    Positions in the stream count the tokens that have left, too: the current token
    stands at `absolute = retired + cursor`, whatever the window holds.  Behind the
    end of the input the window repeats the end-of-input token and leaves the stream
    alone.

    A fill that fails in the middle keeps the tokens it got; only a fill that
    succeeds is counted in `peak`. -/

namespace Packrat

/-- A run of tokens of a stream, with a cursor. -/
structure Window (σ κ : Type) where
  /-- Where the next tokens come from. -/
  stream : σ
  /-- The tokens held. -/
  tokens : Array (Token κ)
  /-- Index of the current token among those held. -/
  cursor : Nat
  /-- The number of tokens that have left. -/
  retired : Nat
  /-- The end-of-input token, once the stream has answered with it. -/
  eof : Option (Token κ)
  /-- The number of tokens that the stream has answered with. -/
  pulled : Nat
  /-- The largest number of tokens held after a fill. -/
  peak : Nat

namespace Window

variable {σ κ : Type}

/-- A window on `stream` that holds nothing yet. -/
def new (stream : σ) : Window σ κ := ⟨stream, #[], 0, 0, none, 0, 0⟩

/-- Room for `capacity` tokens of `tokenBytes` bytes each can be asked for at once. -/
def Fits (tokenBytes capacity : Nat) : Prop := capacity * tokenBytes < blockLimit

instance (tokenBytes capacity : Nat) : Decidable (Fits tokenBytes capacity) :=
  inferInstanceAs (Decidable (_ < _))

/-- A window on `stream` with room for `capacity` tokens.  Room is all that the capacity is for: a
    window that holds more tokens grows. -/
def withCapacity (tokenBytes capacity : Nat) (stream : σ) : Except Fault (Window σ κ) :=
  if Fits tokenBytes capacity then .ok (new stream) else .error .capacityOverflow

/-- Position of the current token in the stream. -/
def absolute (w : Window σ κ) : Nat := w.retired + w.cursor

/-- The number of tokens held. -/
def size (w : Window σ κ) : Nat := w.tokens.size

/-- The cursor stands behind the last token held. -/
def isDrained (w : Window σ κ) : Bool := w.cursor == w.size

/-- Lets every token before the cursor go. -/
def truncate (w : Window σ κ) : Window σ κ :=
  { w with
    tokens := w.tokens.extract w.cursor w.tokens.size
    retired := w.retired + w.cursor
    cursor := 0 }

/-- Moves the cursor to the token with the index `index`, or behind the last one. -/
def seek (index : Nat) : Run (Window σ κ) LexError Unit := fun w =>
  if index ≤ w.size then (.ok (), { w with cursor := index })
  else (.error (.fault .seekPastEnd), w)

/-- The index of the token at `depth` leaves the 64-bit range.  Depths in the lower half of the
    range never do that: no window holds so many tokens. -/
def overflowsAt (w : Window σ κ) (depth : Nat) : Bool :=
  decide (wordLimit ≤ 2 * depth ∧ wordLimit ≤ w.cursor + depth + 1)

@[simp] theorem cursor_truncate (w : Window σ κ) : w.truncate.cursor = 0 := rfl

@[simp] theorem retired_truncate (w : Window σ κ) : w.truncate.retired = w.absolute := rfl

/-- Letting tokens go does not move the current token in the stream. -/
@[simp] theorem absolute_truncate (w : Window σ κ) : w.truncate.absolute = w.absolute :=
  Nat.add_zero _

@[simp] theorem size_truncate (w : Window σ κ) : w.truncate.size = w.size - w.cursor := by
  simp [truncate, size]

theorem seek_of_le {w : Window σ κ} {index : Nat} (h : index ≤ w.size) :
    seek index w = (.ok (), { w with cursor := index }) := if_pos h

theorem seek_of_lt {w : Window σ κ} {index : Nat} (h : w.size < index) :
    seek index w = (.error (.fault .seekPastEnd), w) := if_neg (Nat.not_le.2 h)

variable [TokenStream σ κ] [DecidableEq κ] [TokenKind κ]

/-- Lets one more token in. -/
def pull : Run (Window σ κ) LexError Unit := fun w =>
  match w.eof with
  -- behind the end of the input the stream is left alone
  | some t => (.ok (), { w with tokens := w.tokens.push t })
  | none =>
      match TokenStream.next w.stream with
      | (.error e, stream) => (.error (.failed e), { w with stream })
      | (.ok t, stream) =>
          (.ok (), { w with
            stream
            tokens := w.tokens.push t
            pulled := w.pulled + 1
            eof := if t.isEof then some t else none })

/-- Lets `count` more tokens in. -/
def pullMany : Nat → Run (Window σ κ) LexError Unit
  | 0 => pure ()
  | count + 1 => do
      pull
      pullMany count

/-- Makes sure that the window holds `count` tokens from the cursor on. -/
def fill (count : Nat) : Run (Window σ κ) LexError Unit := do
  pullMany (← Run.read fun w => w.cursor + count - w.size)
  -- a fill that fails does not come to this
  Run.update fun w => { w with peak := max w.peak w.size }

/-- The token `depth` places behind the current one, which is at depth zero. -/
def peek (depth : Nat) : Run (Window σ κ) LexError (Token κ) := do
  if ← Run.read (·.overflowsAt depth) then
    Run.fault .lookaheadOverflow
  else
    fill (depth + 1)
    match ← Run.read fun w => w.tokens[w.cursor + depth]? with
    | some t => return t
    | none => Run.fault .lookaheadOverflow -- a filled window holds the token

/-- Moves past the current token. -/
def advance : Run (Window σ κ) LexError Unit := do
  fill 1
  Run.update fun w => { w with cursor := w.cursor + 1 }

end Window

end Packrat
