import Mathlib.Data.List.Infix
import Packrat.Proofs.CursorRuns

/-! # Positions at the limit of their counters

    A position steps over a text as long as its three counters stay in the 64-bit
    range.  Lines and bytes only grow, so it is their last value that decides; the
    column starts again behind every line feed, and only the characters of the first
    line can take it out of the range: on a later line it is at most one ahead of
    the characters there, and the bytes would not fit either
    (`Position.clears_cons_lineFeed`).

    Where the range is not left, the place behind a text is read off the text
    (`Position.run_eq`). -/

namespace Packrat

namespace Position

variable {p : Position} {c : Char} {cs : List Char}

/-! ## Where a text leads -/

/-- The place behind a text: the column counts on as long as there is no line feed, and from the
    last line feed if there is one. -/
theorem run_eq (p : Position) (cs : List Char) :
    p.run cs = ⟨p.line + cs.count '\n',
      if '\n' ∈ cs then 1 + sinceLineFeed cs else p.column + cs.length,
      p.offset + byteLength cs⟩ := by
  induction cs using List.reverseRecOn with
  | nil => rfl
  | append_singleton cs c ih =>
      rw [run_append, ih, sinceLineFeed_concat, byteLength_append, List.count_append]
      by_cases hc : c = '\n'
      · subst hc
        simp [step, Nat.add_assoc]
      · have hc' : '\n' ≠ c := Ne.symm hc
        by_cases hmem : '\n' ∈ cs
        · simp [step, hc, hc', hmem, Nat.add_assoc]
        · simp [step, hc, hc', hmem, Nat.add_assoc]

/-- A text is stepped over character by character, up to the first step that does not fit. -/
theorem run?_cons (p : Position) (c : Char) (cs : List Char) :
    p.run? (c :: cs) = (p.step? c).bind fun q => q.run? cs := rfl

/-- The places on the way over a text are those behind its beginnings. -/
theorem trail?_eq (p : Position) (cs : List Char) :
    p.trail? cs = (p.run? cs).map fun _ => cs.inits.map p.run := by
  induction cs generalizing p with
  | nil => rfl
  | cons c cs ih =>
      rw [trail?, run?_cons, step?]
      by_cases hfits : (p.step c).Fits
      · rw [if_pos hfits, List.inits_cons]
        show ((p.step c).trail? cs).bind (fun rest => some (p :: rest)) = _
        rw [ih, Option.bind_some]
        cases (p.step c).run? cs with
        | none => rfl
        | some q => simp [Function.comp_def]
      · simp [hfits]

/-! ## Whether the counters fit -/

/-- The lines, the columns of the first line and the bytes of a text that stands at `p` fit. -/
def Clears (p : Position) (cs : List Char) : Prop :=
  p.line + cs.count '\n' < wordLimit ∧
    p.column + (cs.takeWhile (· != '\n')).length < wordLimit ∧
    p.offset + byteLength cs < wordLimit

/-- The columns of a later line fit if the bytes do. -/
theorem clears_cons_lineFeed (h : p.Fits) :
    p.Clears ('\n' :: cs) ↔ (p.step '\n').Fits ∧ (p.step '\n').Clears cs := by
  have hsize : ('\n').utf8Size = 1 := rfl
  have hfirst : (cs.takeWhile (· != '\n')).length ≤ byteLength cs :=
    (List.takeWhile_prefix _).length_le.trans (length_le_byteLength cs)
  obtain ⟨hline, hcolumn, hoffset⟩ := h
  simp only [Clears, Fits, step, byteLength_cons, hsize, if_true, List.count_cons_self]
  rw [List.takeWhile_cons_of_neg (by simp), List.length_nil]
  omega

/-- On the first line each character takes a column. -/
theorem clears_cons_of_ne (h : p.Fits) (hc : c ≠ '\n') :
    p.Clears (c :: cs) ↔ (p.step c).Fits ∧ (p.step c).Clears cs := by
  obtain ⟨hline, hcolumn, hoffset⟩ := h
  simp only [Clears, Fits, step, byteLength_cons, if_neg hc, List.count_cons_of_ne hc]
  rw [List.takeWhile_cons_of_pos (by simpa using hc), List.length_cons]
  omega

/-- Either way a text clears the limits if its first step fits and the rest clears them from
    there. -/
theorem clears_cons (h : p.Fits) :
    p.Clears (c :: cs) ↔ (p.step c).Fits ∧ (p.step c).Clears cs := by
  by_cases hc : c = '\n'
  · subst hc
    exact clears_cons_lineFeed h
  · exact clears_cons_of_ne h hc

/-- A run ends if and only if the text clears the limits, and then where the counters say. -/
theorem run?_eq_some (h : p.Fits) {q : Position} :
    p.run? cs = some q ↔ p.Clears cs ∧ p.run cs = q := by
  induction cs generalizing p with
  | nil =>
      have hclears : p.Clears [] := h
      simp [run?, hclears]
  | cons c cs ih =>
      rw [run?_cons, clears_cons h, step?]
      by_cases hfits : (p.step c).Fits
      · simp [hfits, ih hfits]
      · simp [hfits]

/-- **Stepping over a text overflows exactly when a counter must**: when the lines, the columns of
    the first line or the bytes do not fit.  Otherwise the lines and bytes are counted on, and so is
    the column if there is no line feed; behind a line feed it is one ahead of the characters since
    the last one.  The places passed on the way are those behind the beginnings of the text.  No
    bound on the text is needed: the columns of a later line fit whenever the bytes do, even if the
    text is as long as a 64-bit offset allows. -/
theorem run?_overflow_exact (h : p.Fits) (text : List Char) :
    (p.run? text = none ↔
      wordLimit ≤ p.line + text.count '\n' ∨
      wordLimit ≤ p.column + (text.takeWhile (· != '\n')).length ∨
      wordLimit ≤ p.offset + byteLength text) ∧
    (∀ q, p.run? text = some q →
      q.line = p.line + text.count '\n' ∧
      q.column = (if '\n' ∈ text then 1 + sinceLineFeed text else p.column + text.length) ∧
      q.offset = p.offset + byteLength text) ∧
    p.trail? text = (p.run? text).map fun _ => text.inits.map p.run := by
  refine ⟨?_, ?_, trail?_eq p text⟩
  · have hnone : p.run? text = none ↔ ¬ p.Clears text := by
      rw [Option.eq_none_iff_forall_ne_some]
      simp [run?_eq_some h]
    rw [hnone, Clears]
    omega
  · intro q hq
    obtain ⟨-, rfl⟩ := (run?_eq_some h).mp hq
    rw [run_eq]
    exact ⟨rfl, rfl, rfl⟩

/-- The last column and the last line of the range are reached in one text, and one more line feed
    does not fit. -/
theorem run?_overflow_exact_at_limit :
    let p : Position := ⟨wordLimit - 2, wordLimit - 3, 5⟩
    p.Fits ∧ p.run? ['é', 'a', '\n', 'b'] = some ⟨wordLimit - 1, 2, 10⟩ ∧
      p.run? ['é', 'a', '\n', '\n'] = none := by
  intro p
  have hfits : p.Fits := by decide
  exact ⟨hfits, by decide, (run?_overflow_exact hfits _).1.mpr (Or.inl (by decide))⟩

end Position

end Packrat
