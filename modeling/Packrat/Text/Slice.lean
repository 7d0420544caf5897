import Packrat.Text.Quoted

/-! # Slices of a source text

    A slice is a range of bytes of a source text.  Slices name a place and not only
    a spelling: two are equal when they cover the same range of the same source, and
    two sources with the same characters are told apart by their identity.

    `Slice.of?` accepts a range only when both bounds fall between characters;
    `Slice.chars` reads the characters in it. -/

namespace Packrat

/-- The number of bytes that `cs` takes in UTF-8. -/
def byteLength : List Char → Nat
  | [] => 0
  | c :: cs => c.utf8Size + byteLength cs

/-- Cuts `cs` after `n` bytes.  There is no cut past the end or inside a character. -/
def splitBytes? (n : Nat) : List Char → Option (List Char × List Char)
  | [] => if n = 0 then some ([], []) else none
  | c :: cs =>
      if n = 0 then some ([], c :: cs)
      else if c.utf8Size ≤ n then
        (splitBytes? (n - c.utf8Size) cs).map fun (before, after) => (c :: before, after)
      else none

/-- The characters from byte `start` to byte `stop`, if both bounds are ordered cuts of `cs`. -/
def between? (cs : List Char) (start stop : Nat) : Option (List Char) :=
  if start ≤ stop then do
    let (_, after) ← splitBytes? start cs
    let (middle, _) ← splitBytes? (stop - start) after
    return middle
  else none

/-- A text that tokens are cut from. -/
structure SourceText where
  /-- Tells sources with equal characters apart. -/
  id : Nat
  /-- The characters. -/
  chars : List Char
deriving DecidableEq, Repr

/-- A range of bytes of a source text. -/
structure Slice where
  /-- The text it is cut from. -/
  source : SourceText
  /-- The first byte. -/
  start : Nat
  /-- The byte after the last. -/
  stop : Nat
deriving DecidableEq, Repr

namespace Slice

/-- The slice from byte `start` to byte `stop`, if these are in order and fall between
    characters. -/
def of? (source : SourceText) (start stop : Nat) : Option Slice :=
  if (between? source.chars start stop).isSome then some ⟨source, start, stop⟩ else none

/-- The empty slice at byte `offset`, if that falls between characters. -/
def emptyAt? (source : SourceText) (offset : Nat) : Option Slice :=
  of? source offset offset

/-- The length in bytes. -/
def length (s : Slice) : Nat := s.stop - s.start

/-- The slice covers no byte. -/
def isEmpty (s : Slice) : Bool := s.length == 0

/-- The characters that the slice covers. -/
def chars (s : Slice) : List Char := (between? s.source.chars s.start s.stop).getD []

/-- The text that the slice covers. -/
def text (s : Slice) : String := String.ofList s.chars

/-- The slice covers exactly the text `t`, wherever it stands. -/
def spells (s : Slice) (t : String) : Bool := s.text == t

/-- The quoted text with its range of bytes. -/
def describe (s : Slice) : String :=
  Text.quoteText s.text ++ "@" ++ toString s.start ++ ".." ++ toString s.stop

end Slice

@[simp] theorem byteLength_nil : byteLength [] = 0 := rfl

@[simp] theorem byteLength_cons (c : Char) (cs : List Char) :
    byteLength (c :: cs) = c.utf8Size + byteLength cs := rfl

@[simp] theorem byteLength_append (cs ds : List Char) :
    byteLength (cs ++ ds) = byteLength cs + byteLength ds := by
  induction cs with
  | nil => simp
  | cons c cs ih => simp [ih, Nat.add_assoc]

/-- A text is cut after the bytes of any of its beginnings. -/
theorem splitBytes?_append (cs ds : List Char) :
    splitBytes? (byteLength cs) (cs ++ ds) = some (cs, ds) := by
  induction cs with
  | nil => cases ds <;> simp [splitBytes?]
  | cons c cs ih =>
      have hc : c.utf8Size ≠ 0 := Nat.ne_of_gt c.utf8Size_pos
      simp [splitBytes?, ih, hc]

/-- What stands between two beginnings of a text is the text between their lengths. -/
theorem between?_append (cs ds es : List Char) :
    between? (cs ++ ds ++ es) (byteLength cs) (byteLength cs + byteLength ds) = some ds := by
  simp [between?, List.append_assoc, splitBytes?_append]

end Packrat
