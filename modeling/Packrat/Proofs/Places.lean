import Mathlib.Data.List.TakeWhile
import Packrat.Lex.Cursor

/-! # Places in a text

    A cursor that only moved forward is determined by the text behind it and the
    text ahead: `Cursor.between`.  Its moves shift characters from the one to the
    other, and the three counters of its position can be read off the text behind. -/

namespace Packrat

/-- There is no character without bytes. -/
theorem byteLength_pos {cs : List Char} (h : cs ≠ []) : 0 < byteLength cs := by
  cases cs with
  | nil => exact absurd rfl h
  | cons c cs =>
      rw [byteLength_cons]
      exact Nat.add_pos_left c.utf8Size_pos _

/-! ## Positions, slices and runs -/

/-- The number of characters behind the last line feed. -/
def sinceLineFeed (cs : List Char) : Nat := (cs.reverse.takeWhile (· != '\n')).length

/-- A line feed starts the count again, and any other character is counted. -/
theorem sinceLineFeed_concat (cs : List Char) (c : Char) :
    sinceLineFeed (cs ++ [c]) = if c = '\n' then 0 else sinceLineFeed cs + 1 := by
  rw [sinceLineFeed, List.reverse_concat, List.takeWhile_cons]
  by_cases h : c = '\n'
  · rw [if_neg (by simp [h]), if_pos h, List.length_nil]
  · rw [if_pos (by simp [h]), if_neg h, List.length_cons, sinceLineFeed]

/-- The place right behind `before`: lines count its line feeds, columns the characters behind the
    last of them, and the offset its bytes. -/
def Position.behind (before : List Char) : Position :=
  ⟨1 + before.count '\n', 1 + sinceLineFeed before, byteLength before⟩

/-- Stepping over a character counts it. -/
theorem Position.step_behind (before : List Char) (c : Char) :
    (behind before).step c = behind (before ++ [c]) := by
  rw [step, behind, behind, sinceLineFeed_concat, List.count_append, byteLength_append]
  by_cases h : c = '\n'
  · rw [if_pos h, if_pos h, h]
    rfl
  · have hcount : [c].count '\n' = 0 := List.count_eq_zero.mpr (by simp [Ne.symm h])
    rw [if_neg h, if_neg h, hcount]
    rfl

namespace Slice

/-- The slice that covers `cs` right behind `before`. -/
def behind (source : SourceText) (before cs : List Char) : Slice :=
  ⟨source, byteLength before, byteLength before + byteLength cs⟩

/-- A slice reads what it covers. -/
theorem chars_behind {source : SourceText} {before cs after : List Char}
    (h : source.chars = before ++ cs ++ after) : (behind source before cs).chars = cs := by
  rw [chars, behind, h, between?_append]
  rfl

/-- A slice of some characters is not empty. -/
theorem isEmpty_behind {source : SourceText} {before cs : List Char} (h : cs ≠ []) :
    (behind source before cs).isEmpty = false := by
  have hpos := byteLength_pos h
  simp only [isEmpty, length, behind, beq_eq_false_iff_ne]
  omega

end Slice

/-- A run of a class that does not go on is the longest beginning in the class. -/
theorem takeWhile_run {p : Char → Bool} {run ahead : List Char} (hrun : ∀ c ∈ run, p c = true)
    (hahead : ∀ c ∈ ahead.head?, p c = false) : (run ++ ahead).takeWhile p = run := by
  rw [List.takeWhile_append_of_pos hrun]
  cases ahead with
  | nil => rw [List.takeWhile_nil, List.append_nil]
  | cons c ahead =>
      rw [List.takeWhile_cons_of_neg (Bool.eq_false_iff.mp (hahead c rfl)), List.append_nil]

/-- Every text begins with such a run, possibly empty. -/
theorem exists_run (p : Char → Bool) (cs : List Char) :
    ∃ run ahead, cs = run ++ ahead ∧ (∀ c ∈ run, p c = true) ∧ ∀ c ∈ ahead.head?, p c = false := by
  refine ⟨cs.takeWhile p, cs.dropWhile p, List.takeWhile_append_dropWhile.symm,
    fun _ hmem => List.mem_takeWhile_imp hmem, ?_⟩
  intro c hc
  have hhead := List.head?_dropWhile_not p cs
  rw [Option.mem_def.mp hc] at hhead
  exact hhead

/-- Over a class of characters, what is accepted is the longest beginning in the class. -/
theorem acceptedRun_class (p : Char → Bool) (cs : List Char) :
    (acceptedRun (fun (_ : Unit) ch => (p ch, ())) () cs).1 = cs.takeWhile p := by
  induction cs with
  | nil => rfl
  | cons c cs ih =>
      rw [acceptedRun, List.takeWhile_cons]
      cases h : p c with
      | false => rfl
      | true =>
          rw [← ih]
          rfl

/-! ## Cursors -/

namespace Cursor

/-- The cursor with `before` behind it and `ahead` ahead. -/
def between (source : SourceText) (before ahead : List Char) : Cursor :=
  ⟨source, ahead, byteLength before, .behind before⟩

variable {source : SourceText} {before : List Char}

/-- A step takes the next character behind. -/
theorem advance_between (c : Char) (ahead : List Char) :
    (between source before (c :: ahead)).advance =
      (some c, between source (before ++ [c]) ahead) := by
  rw [advance_of_cons rfl, between, between, Position.step_behind, byteLength_append]
  rfl

/-- What is cut out is what was passed over. -/
theorem sliceFrom_between (run ahead : List Char) :
    (between source (before ++ run) ahead).sliceFrom (byteLength before) =
      Slice.behind source before run := by
  rw [Slice.behind, ← byteLength_append]
  rfl

/-- As many steps as the characters of a run take the whole run behind. -/
theorem skip_between (run ahead : List Char) :
    (between source before (run ++ ahead)).skip run.length =
      between source (before ++ run) ahead := by
  induction run generalizing before with
  | nil =>
      rw [List.append_nil]
      rfl
  | cons c run ih =>
      show skip run.length (between source before (c :: (run ++ ahead))).advance.2 = _
      rw [advance_between, ih, List.append_assoc, List.singleton_append]

/-- Consuming is moving over the longest beginning in the class, and cutting it out. -/
theorem consumeWhile_eq (p : Char → Bool) (c : Cursor) :
    c.consumeWhile p = ((c.skip (c.rest.takeWhile p).length).sliceFrom c.offset,
      c.skip (c.rest.takeWhile p).length) := by
  rw [← acceptedRun_class]
  rfl

/-- A run of a class that does not go on is passed over as a whole. -/
theorem consumeWhile_between {p : Char → Bool} {run ahead : List Char}
    (hrun : ∀ c ∈ run, p c = true) (hahead : ∀ c ∈ ahead.head?, p c = false) :
    (between source before (run ++ ahead)).consumeWhile p =
      (Slice.behind source before run, between source (before ++ run) ahead) := by
  have hrest : (between source before (run ++ ahead)).rest.takeWhile p = run :=
    takeWhile_run hrun hahead
  rw [consumeWhile_eq, hrest, skip_between]
  exact Prod.ext (sliceFrom_between run ahead) rfl

end Cursor

end Packrat
