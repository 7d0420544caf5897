/-! # Marks

    The places that a parser may have to rewind to, the newest first.  A parser
    speculates while any mark is outstanding. -/

namespace Packrat

/-- The outstanding marks, each with the cursor it saved. -/
structure Marks where
  /-- The saved cursors, the newest first. -/
  cursors : List Nat
deriving DecidableEq, Repr

namespace Marks

/-- No mark. -/
def empty : Marks := ⟨[]⟩

/-- The number of outstanding marks. -/
def depth (m : Marks) : Nat := m.cursors.length

/-- Some mark is outstanding. -/
def isSpeculating (m : Marks) : Bool := !m.cursors.isEmpty

/-- Saves `cursor` in a new mark. -/
def push (cursor : Nat) (m : Marks) : Marks := ⟨cursor :: m.cursors⟩

/-- Takes the newest mark back and tells what it saved. -/
def pop (m : Marks) : Option Nat × Marks :=
  match m.cursors with
  | [] => (none, m)
  | c :: cs => (some c, ⟨cs⟩)

@[simp] theorem depth_push (cursor : Nat) (m : Marks) : (m.push cursor).depth = m.depth + 1 := rfl

@[simp] theorem pop_push (cursor : Nat) (m : Marks) : (m.push cursor).pop = (some cursor, m) := rfl

@[simp] theorem isSpeculating_push (cursor : Nat) (m : Marks) :
    (m.push cursor).isSpeculating = true := rfl

end Marks

end Packrat
