import Packrat.Position
import Packrat.Text.Slice

/-! # Cursors

    A cursor stands between two characters of a source text.  It knows its byte
    offset and position, and the characters still ahead of it; it moves forward one
    character at a time, or back and forth between places it has been
    (`Checkpoint`).

    `consumeWith` runs over characters as long as a test accepts them, and the test
    may remember what it has seen.  What it runs over is `acceptedRun`, the longest
    beginning of the text ahead that the test accepts character by character. -/

namespace Packrat

/-- A place between two characters of a source text. -/
structure Cursor where
  /-- The text. -/
  source : SourceText
  /-- The characters ahead. -/
  rest : List Char
  /-- The number of bytes behind. -/
  offset : Nat
  /-- The position of the next character. -/
  position : Position
deriving DecidableEq, Repr

/-- A place that a cursor can go back to. -/
structure Checkpoint where
  /-- The number of bytes behind the place. -/
  offset : Nat
  /-- The position of the place. -/
  position : Position
deriving DecidableEq, Repr

/-- The longest beginning of `cs` that `accept` takes one character after the other, and what
    `accept` remembers after it and the character that ended it. -/
def acceptedRun {τ : Type} (accept : τ → Char → Bool × τ) (t : τ) :
    List Char → List Char × τ
  | [] => ([], t)
  | c :: cs =>
      match accept t c with
      | (true, t') =>
          let (run, t'') := acceptedRun accept t' cs
          (c :: run, t'')
      | (false, t') => ([], t')

namespace Cursor

variable {τ : Type}

/-- A cursor before the first character of `source`. -/
def ofSource (source : SourceText) : Cursor := ⟨source, source.chars, 0, .start⟩

/-- A cursor before the first character of a text of its own. -/
def ofText (text : String) : Cursor := ofSource ⟨0, text.toList⟩

/-- The next character. -/
def peek (c : Cursor) : Option Char := c.rest.head?

/-- Nothing is ahead. -/
def isEof (c : Cursor) : Bool := c.rest.isEmpty

/-- Moves past the next character, if there is one, and tells which it was. -/
def advance (c : Cursor) : Option Char × Cursor :=
  match c.rest with
  | [] => (none, c)
  | ch :: rest => (some ch, ⟨c.source, rest, c.offset + ch.utf8Size, c.position.step ch⟩)

/-- Moves past the next `n` characters, or to the end when there are fewer. -/
def skip : Nat → Cursor → Cursor
  | 0, c => c
  | n + 1, c => skip n c.advance.2

/-- The text from byte `start` up to the cursor, for a `start` that the cursor has been at. -/
def sliceFrom (c : Cursor) (start : Nat) : Slice := ⟨c.source, start, c.offset⟩

/-- The text from byte `start` up to the cursor, if there is one. -/
def sliceFrom? (c : Cursor) (start : Nat) : Option Slice :=
  Slice.of? c.source start c.offset

/-- Moves over the characters that `accept` takes, and cuts them out. -/
def consumeWith (accept : τ → Char → Bool × τ) (t : τ) (c : Cursor) : Slice × Cursor :=
  let (run, _) := acceptedRun accept t c.rest
  let c' := c.skip run.length
  (c'.sliceFrom c.offset, c')

/-- Moves over the characters of a class, and cuts them out. -/
def consumeWhile (p : Char → Bool) (c : Cursor) : Slice × Cursor :=
  c.consumeWith (fun (_ : Unit) ch => (p ch, ())) ()

/-- Moves over at most `limit` characters of a class, and cuts them out. -/
def consumeUpTo (limit : Nat) (p : Char → Bool) (c : Cursor) : Slice × Cursor :=
  c.consumeWith (fun left ch => (decide (0 < left) && p ch, left - 1)) limit

/-- The place where the cursor stands. -/
def checkpoint (c : Cursor) : Checkpoint := ⟨c.offset, c.position⟩

/-- Goes to a place where the cursor has been.  The text under the cursor stays the one it is; at a
    place that it does not have, nothing is ahead. -/
def restore (p : Checkpoint) (c : Cursor) : Cursor :=
  ⟨c.source, ((splitBytes? p.offset c.source.chars).map Prod.snd).getD [], p.offset, p.position⟩

/-! ### What the moves do to the text ahead -/

theorem advance_of_nil {c : Cursor} (h : c.rest = []) : c.advance = (none, c) := by
  simp [advance, h]

theorem advance_of_cons {c : Cursor} {ch : Char} {rest : List Char} (h : c.rest = ch :: rest) :
    c.advance =
      (some ch, ⟨c.source, rest, c.offset + ch.utf8Size, c.position.step ch⟩) := by
  simp [advance, h]

@[simp] theorem rest_advance (c : Cursor) : c.advance.2.rest = c.rest.tail := by
  cases h : c.rest with
  | nil => simp [advance_of_nil h, h]
  | cons ch rest => simp [advance_of_cons h]

@[simp] theorem source_advance (c : Cursor) : c.advance.2.source = c.source := by
  cases h : c.rest with
  | nil => simp [advance_of_nil h]
  | cons ch rest => simp [advance_of_cons h]

@[simp] theorem rest_skip (n : Nat) (c : Cursor) : (c.skip n).rest = c.rest.drop n := by
  induction n generalizing c with
  | zero => rfl
  | succ n ih =>
      show (skip n c.advance.2).rest = _
      rw [ih, rest_advance, List.drop_tail]

@[simp] theorem source_skip (n : Nat) (c : Cursor) : (c.skip n).source = c.source := by
  induction n generalizing c with
  | zero => rfl
  | succ n ih =>
      show (skip n c.advance.2).source = _
      rw [ih, source_advance]

end Cursor

/-- What is accepted is a beginning of the text. -/
theorem acceptedRun_isPrefix {τ : Type} (accept : τ → Char → Bool × τ) (t : τ) (cs : List Char) :
    (acceptedRun accept t cs).1 <+: cs := by
  induction cs generalizing t with
  | nil => simp [acceptedRun]
  | cons c cs ih =>
      rw [acceptedRun]
      split
      · simpa using ih _
      · exact List.nil_prefix

end Packrat
