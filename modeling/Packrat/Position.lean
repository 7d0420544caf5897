import Packrat.Fault

/-! # Positions in a text

    A position counts lines and columns from one and bytes from zero.  Columns count
    characters, bytes are those of the UTF-8 encoding, and only a line feed starts a
    new line.

    `step` moves a position past a character without regard to the size of the
    counters; `step?` is the same move for 64-bit counters and has no result when
    one of them no longer fits. -/

namespace Packrat

/-- A place in a text, as a line and column for readers and a byte offset for programs. -/
structure Position where
  /-- Line number, from one. -/
  line : Nat
  /-- Column number in characters, from one. -/
  column : Nat
  /-- Bytes before this place. -/
  offset : Nat
deriving DecidableEq, Repr

namespace Position

/-- The place before the first character. -/
def start : Position := ⟨1, 1, 0⟩

instance : Inhabited Position := ⟨start⟩

/-- The place after `c`, for a `c` that stands at `p`. -/
def step (p : Position) (c : Char) : Position :=
  if c = '\n' then ⟨p.line + 1, 1, p.offset + c.utf8Size⟩
  else ⟨p.line, p.column + 1, p.offset + c.utf8Size⟩

/-- The place after all of `cs`. -/
def run (p : Position) (cs : List Char) : Position := cs.foldl step p

/-- All three counters are 64-bit numbers. -/
def Fits (p : Position) : Prop :=
  p.line < wordLimit ∧ p.column < wordLimit ∧ p.offset < wordLimit

instance (p : Position) : Decidable p.Fits :=
  inferInstanceAs (Decidable (_ ∧ _ ∧ _))

/-- The place after `c`, unless a counter leaves the 64-bit range. -/
def step? (p : Position) (c : Char) : Option Position :=
  if (p.step c).Fits then some (p.step c) else none

/-- The place after all of `cs`, unless a counter leaves the 64-bit range on the way. -/
def run? (p : Position) (cs : List Char) : Option Position := cs.foldlM step? p

/-- The places passed on the way over `cs`: `p` itself, then the place after each character.  There
    is no such way when a counter leaves the 64-bit range on it. -/
def trail? (p : Position) : List Char → Option (List Position)
  | [] => some [p]
  | c :: cs => do
      let q ← p.step? c
      let rest ← q.trail? cs
      return p :: rest

/-- The place as readers are told it: line and column with a colon between. -/
def render (p : Position) : String := toString p.line ++ ":" ++ toString p.column

/-! ### Moving over a text -/

@[simp] theorem run_nil (p : Position) : p.run [] = p := rfl

@[simp] theorem run_cons (p : Position) (c : Char) (cs : List Char) :
    p.run (c :: cs) = (p.step c).run cs := rfl

theorem run_append (p : Position) (cs ds : List Char) : p.run (cs ++ ds) = (p.run cs).run ds :=
  List.foldl_append

@[simp] theorem offset_step (p : Position) (c : Char) :
    (p.step c).offset = p.offset + c.utf8Size := by
  rw [step]
  split <;> rfl

end Position

end Packrat
