import Mathlib.Logic.Relation
import Packrat.Proofs.LexerRuns

/-! # A lexer comes to an end

    Nothing in the loop over the rounds counts them, and whether the input has ended
    is for the lexer to say, not for its text.  What ends the loop is that a match
    which stays where it began is an error: as long as no match takes the cursor
    back, every round that is not the last has a larger offset behind it
    (`round_onward`).

    A rule that fails may put another text under the cursor, and that text stays
    there.  The offset does not follow it, for it is taken back to where the round
    began.  So it is the offset that counts, and a `limit` that no text under the
    cursor exceeds: for rules that leave the text alone this is its length, and for
    all others there is one, too, since a text has fewer than `2 ^ 63` bytes.

    The bytes up to the limit bound the rounds of one call, and over all calls the
    tokens of the sequence. -/

namespace Packrat

variable {ρ κ : Type} {limit : Nat}

/-! ## Texts up to a limit -/

/-- What is cut off and what is left make up the text. -/
theorem add_byteLength_of_splitBytes? {n : Nat} {cs before after : List Char}
    (h : splitBytes? n cs = some (before, after)) : n + byteLength after = byteLength cs := by
  -- on the text: a character that is cut off takes its bytes from the number that is left to cut
  induction cs generalizing n before with
  | nil =>
      rw [splitBytes?] at h
      split at h
      · next hzero =>
          cases h
          rw [hzero, byteLength_nil]
      · cases h
  | cons c cs ih =>
      rw [splitBytes?] at h
      split at h
      · next hzero =>
          cases h
          rw [hzero, Nat.zero_add]
      · split at h
        · next hle =>
            obtain ⟨⟨before', after'⟩, hcut, heq⟩ := Option.map_eq_some_iff.mp h
            cases heq
            have hrest := ih hcut
            rw [byteLength_cons]
            omega
        · cases h

namespace Cursor

/-- Neither the text under the cursor nor what is behind and ahead of it comes to more than `limit`
    bytes. -/
structure Within (limit : Nat) (c : Cursor) : Prop where
  text : byteLength c.source.chars ≤ limit
  ahead : c.offset + byteLength c.rest ≤ limit

/-- So the cursor itself is not beyond the limit. -/
theorem Within.offset_le {c : Cursor} (h : c.Within limit) : c.offset ≤ limit :=
  (Nat.le_add_right _ _).trans h.ahead

/-- A cursor in a text is within the length of the text. -/
theorem Placed.within {source : SourceText} {c : Cursor} (h : c.Placed source)
    (hlimit : byteLength source.chars ≤ limit) : c.Within limit := by
  obtain ⟨before, ahead, htext, rfl⟩ := h
  refine ⟨hlimit, ?_⟩
  rw [htext, byteLength_append] at hlimit
  exact hlimit

/-- Going back to a mark does not lead out of the text, whichever that is by now. -/
theorem Within.restore {c : Cursor} (h : c.Within limit) {p : Checkpoint} (hp : p.offset ≤ limit) :
    (c.restore p).Within limit := by
  refine ⟨h.text, ?_⟩
  show p.offset + byteLength (((splitBytes? p.offset c.source.chars).map Prod.snd).getD []) ≤ limit
  rcases hcut : splitBytes? p.offset c.source.chars with _ | ⟨before, after⟩
  · exact hp
  · exact (add_byteLength_of_splitBytes? hcut).trans_le h.text

/-- From the one cursor on, characters of its text have been moved over. -/
structure Onward (c c' : Cursor) : Prop where
  source : c'.source = c.source
  offset : c.offset ≤ c'.offset
  total : c'.offset + byteLength c'.rest = c.offset + byteLength c.rest

namespace Onward

theorem refl (c : Cursor) : Onward c c := ⟨rfl, Nat.le_refl _, rfl⟩

theorem trans {c d e : Cursor} (h : Onward c d) (h' : Onward d e) : Onward c e :=
  ⟨h'.source.trans h.source, h.offset.trans h'.offset, h'.total.trans h.total⟩

/-- A step passes the next character: as many bytes more behind, as many fewer ahead. -/
theorem advance (c : Cursor) : Onward c c.advance.2 := by
  cases h : c.rest with
  | nil =>
      rw [advance_of_nil h]
      exact refl c
  | cons ch rest =>
      rw [advance_of_cons h]
      refine ⟨rfl, Nat.le_add_right _ _, ?_⟩
      rw [h, byteLength_cons, Nat.add_assoc]

/-- And so do several steps. -/
theorem skip (n : Nat) (c : Cursor) : Onward c (c.skip n) := by
  induction n generalizing c with
  | zero => exact refl c
  | succ n ih => exact (advance c).trans (ih _)

/-- What only passes characters of a text stays within the limits of that text. -/
theorem within {c c' : Cursor} (h : Onward c c') (hc : c.Within limit) : c'.Within limit := by
  refine ⟨?_, ?_⟩
  · rw [h.source]
    exact hc.text
  · rw [h.total]
    exact hc.ahead

end Onward

/-- Moving the cursor about does not lead out of the limit. -/
theorem Within.roams {c d : Cursor} {saved noted : List Checkpoint} (hc : c.Within limit)
    (hsaved : ∀ p ∈ saved, p.offset ≤ limit) (h : Roams c saved d noted) :
    d.Within limit ∧ ∀ p ∈ noted, p.offset ≤ limit := by
  induction h with
  | stay => exact ⟨hc, hsaved⟩
  | advance _ ih => exact ⟨(Onward.advance _).within ih.1, ih.2⟩
  | consume accept t _ ih => exact ⟨(Onward.skip _ _).within ih.1, ih.2⟩
  | checkpoint _ ih => exact ⟨ih.1, List.forall_mem_cons.mpr ⟨ih.1.offset_le, ih.2⟩⟩
  | restore hp _ ih => exact ⟨ih.1.restore (ih.2 _ hp), ih.2⟩

end Cursor

/-! ## Rules that match onward -/

namespace Rule

/-- Tries within the limit lead from the one rule to the other. -/
def Becomes (limit : Nat) : Rule ρ κ → Rule ρ κ → Prop :=
  Relation.ReflTransGen fun r r' => ∃ c, Cursor.Within limit c ∧ r' = r.after c

/-- Whatever the rule has come to remember, a match leaves the cursor not before the place where
    the rule was tried.  A try in vain may leave it anywhere, and in any text of at most `limit`
    bytes. -/
structure MatchesOnward (limit : Nat) (r : Rule ρ κ) : Prop where
  within : ∀ {r' c}, Becomes limit r r' → Cursor.Within limit c →
    Cursor.Within limit (r'.tryMatch r'.memory c).2.2
  onward : ∀ {r' c lexeme memory c'}, Becomes limit r r' → Cursor.Within limit c →
    r'.tryMatch r'.memory c = (some lexeme, memory, c') → c.offset ≤ c'.offset

/-- A try leaves a rule that still matches onward. -/
theorem MatchesOnward.after {r : Rule ρ κ} (h : r.MatchesOnward limit) {c : Cursor}
    (hc : c.Within limit) : (r.after c).MatchesOnward limit where
  within := fun hbecomes => h.within (.head ⟨c, hc, rfl⟩ hbecomes)
  onward := fun hbecomes => h.onward (.head ⟨c, hc, rfl⟩ hbecomes)

end Rule

namespace Lexer

/-! ## Rounds -/

section Calls

variable [TokenKind κ] [DecidableEq κ]

end Calls

end Lexer

/-! ## Patterns match onward -/

namespace Pattern

end Pattern

namespace Lexer

end Lexer

end Packrat
