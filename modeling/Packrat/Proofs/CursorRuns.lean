import Packrat.Proofs.Places

/-! # Runs of a cursor

    A cursor is peeked at, moved past a character or a run of characters, marked and
    taken back to a mark, in any order.  Its offset and the two readers' counters
    are kept apart and restored wholesale; what ties them together is that every
    cursor of a run, and every place it has marked, is `between` two halves of the
    text.

    What a test with a memory takes is said first, without the cursor: `Takes`. -/

namespace Packrat

variable {τ : Type} {source : SourceText}

/-! ## What a test takes -/

/-- The test takes every character of a text, one after the other, where each answer may depend on
    the characters before. -/
def Takes (accept : τ → Char → Bool × τ) : τ → List Char → Prop
  | _, [] => True
  | t, c :: cs => (accept t c).1 = true ∧ Takes accept (accept t c).2 cs

/-- A character that is taken begins the run. -/
theorem acceptedRun_cons_of_taken {accept : τ → Char → Bool × τ} {t : τ} {c : Char}
    (cs : List Char) (h : (accept t c).1 = true) :
    (acceptedRun accept t (c :: cs)).1 = c :: (acceptedRun accept (accept t c).2 cs).1 := by
  have hstep : accept t c = (true, (accept t c).2) := Prod.ext h rfl
  rw [acceptedRun, hstep]

/-- A character that is refused ends it. -/
theorem acceptedRun_cons_of_refused {accept : τ → Char → Bool × τ} {t : τ} {c : Char}
    (cs : List Char) (h : (accept t c).1 = false) : (acceptedRun accept t (c :: cs)).1 = [] := by
  have hstep : accept t c = (false, (accept t c).2) := Prod.ext h rfl
  rw [acceptedRun, hstep]

/-- The test takes what the run consists of. -/
theorem takes_acceptedRun (accept : τ → Char → Bool × τ) (t : τ) (cs : List Char) :
    Takes accept t (acceptedRun accept t cs).1 := by
  induction cs generalizing t with
  | nil => trivial
  | cons c cs ih =>
      cases h : (accept t c).1 with
      | false =>
          rw [acceptedRun_cons_of_refused cs h]
          trivial
      | true =>
          rw [acceptedRun_cons_of_taken cs h]
          exact ⟨h, ih _⟩

/-- No beginning that the test takes is longer. -/
theorem prefix_acceptedRun {accept : τ → Char → Bool × τ} {t : τ} {run cs : List Char}
    (hrun : Takes accept t run) (hcs : run <+: cs) : run <+: (acceptedRun accept t cs).1 := by
  induction cs generalizing t run with
  | nil => exact hcs
  | cons c cs ih =>
      cases run with
      | nil => exact List.nil_prefix
      | cons d run =>
          obtain ⟨rfl, htail⟩ := List.cons_prefix_cons.mp hcs
          obtain ⟨hd, hrest⟩ := hrun
          rw [acceptedRun_cons_of_taken cs hd]
          exact List.cons_prefix_cons.mpr ⟨rfl, ih hrest htail⟩

/-! ## Counters that fit -/

/-- Every character takes a byte at least. -/
theorem length_le_byteLength (cs : List Char) : cs.length ≤ byteLength cs := by
  induction cs with
  | nil => exact Nat.le_refl _
  | cons c cs ih =>
      have hpos := c.utf8Size_pos
      rw [List.length_cons, byteLength_cons]
      omega

/-- No more characters stand behind the last line feed than there are. -/
theorem sinceLineFeed_le_length (cs : List Char) : sinceLineFeed cs ≤ cs.length := by
  have hle := (List.takeWhile_prefix (l := cs.reverse) (· != '\n')).length_le
  rwa [List.length_reverse] at hle

/-- Lines and columns start from one, so they may be one ahead of the bytes. -/
theorem Position.fits_behind {before : List Char} (h : byteLength before + 1 < wordLimit) :
    (behind before).Fits := by
  have hlength := length_le_byteLength before
  have hlines := before.count_le_length (a := '\n')
  have hcolumns := sinceLineFeed_le_length before
  refine ⟨?_, ?_, ?_⟩ <;> simp only [behind] <;> omega

namespace Cursor

/-! ## What holds at every step -/

/-- The cursor stands between two halves of the text. -/
def Placed (source : SourceText) (c : Cursor) : Prop :=
  ∃ before ahead, source.chars = before ++ ahead ∧ c = between source before ahead

/-- At the beginning nothing is behind the cursor. -/
theorem placed_ofSource : Placed source (ofSource source) := ⟨[], source.chars, rfl, rfl⟩

/-- A step moves one character from ahead to behind. -/
theorem Placed.advance {c : Cursor} (h : Placed source c) : Placed source c.advance.2 := by
  obtain ⟨before, ahead, htext, rfl⟩ := h
  cases ahead with
  | nil =>
      rw [advance_of_nil rfl]
      exact ⟨before, [], htext, rfl⟩
  | cons ch ahead =>
      rw [advance_between]
      exact ⟨before ++ [ch], ahead, by rw [htext, List.append_assoc]; rfl, rfl⟩

/-- A move over what a test takes shifts that much text from ahead to behind. -/
theorem consumeWith_between (source : SourceText) (accept : τ → Char → Bool × τ) (t : τ)
    (before ahead : List Char) :
    ∃ run after, ahead = run ++ after ∧ run = (acceptedRun accept t ahead).1 ∧
      (between source before ahead).consumeWith accept t =
        (Slice.behind source before run, between source (before ++ run) after) := by
  obtain ⟨after, hafter⟩ := acceptedRun_isPrefix accept t ahead
  refine ⟨_, after, hafter.symm, rfl, ?_⟩
  have hskip : (between source before ahead).skip (acceptedRun accept t ahead).1.length =
      between source (before ++ (acceptedRun accept t ahead).1) after := by
    rw [← skip_between, hafter]
  show (((between source before ahead).skip (acceptedRun accept t ahead).1.length).sliceFrom
    (byteLength before), (between source before ahead).skip
      (acceptedRun accept t ahead).1.length) = _
  rw [hskip, sliceFrom_between]

/-- And a run moves several. -/
theorem Placed.consumeWith {c : Cursor} (accept : τ → Char → Bool × τ) (t : τ)
    (h : Placed source c) : Placed source (c.consumeWith accept t).2 := by
  obtain ⟨before, ahead, htext, rfl⟩ := h
  obtain ⟨run, after, rfl, -, hconsume⟩ := consumeWith_between source accept t before ahead
  rw [hconsume]
  exact ⟨before ++ run, after, by rw [htext, List.append_assoc], rfl⟩

/-- A placed cursor is in its text. -/
theorem Placed.source_eq {c : Cursor} (h : Placed source c) : c.source = source := by
  obtain ⟨_, _, _, rfl⟩ := h
  rfl

/-- A mark of a placed cursor takes every cursor over the same text to the marked place. -/
theorem Placed.restore_checkpoint {c d : Cursor} (hd : Placed source d) (hc : c.source = source) :
    c.restore d.checkpoint = d := by
  obtain ⟨before, ahead, htext, rfl⟩ := hd
  have hcut : splitBytes? (byteLength before) c.source.chars = some (before, ahead) := by
    rw [hc, htext]
    exact splitBytes?_append before ahead
  show Cursor.mk c.source (((splitBytes? (byteLength before) c.source.chars).map Prod.snd).getD [])
    (byteLength before) (.behind before) = _
  rw [hcut, hc]
  rfl

/-- The cursors that a run over `source` gets to, each with the marks made until then.  Peeking
    changes nothing and needs no step of its own. -/
inductive Reached (source : SourceText) : Cursor → List Checkpoint → Prop where
  | start : Reached source (ofSource source) []
  | advance {c : Cursor} {saved : List Checkpoint} :
      Reached source c saved → Reached source c.advance.2 saved
  | consume {τ : Type} {c : Cursor} {saved : List Checkpoint}
      (accept : τ → Char → Bool × τ) (t : τ) :
      Reached source c saved → Reached source (c.consumeWith accept t).2 saved
  | checkpoint {c : Cursor} {saved : List Checkpoint} :
      Reached source c saved → Reached source c (c.checkpoint :: saved)
  | restore {c : Cursor} {saved : List Checkpoint} {p : Checkpoint} (hp : p ∈ saved) :
      Reached source c saved → Reached source (c.restore p) saved

/-- Every cursor of a run is placed, and every mark is that of a placed cursor. -/
theorem Reached.placed {c : Cursor} {saved : List Checkpoint} (h : Reached source c saved) :
    Placed source c ∧ ∀ p ∈ saved, ∃ d, Placed source d ∧ p = d.checkpoint := by
  induction h with
  | start => exact ⟨placed_ofSource, fun _ hp => nomatch hp⟩
  | advance _ ih => exact ⟨ih.1.advance, ih.2⟩
  | consume accept t _ ih => exact ⟨ih.1.consumeWith accept t, ih.2⟩
  | @checkpoint c saved _ ih =>
      refine ⟨ih.1, fun p hp => ?_⟩
      rcases List.mem_cons.mp hp with rfl | hp
      · exact ⟨c, ih.1, rfl⟩
      · exact ih.2 p hp
  | restore hp _ ih =>
      -- a mark was set at a place in the text, and restoring it leads back to that place
      obtain ⟨d, hd, rfl⟩ := ih.2 _ hp
      rw [hd.restore_checkpoint ih.1.source_eq]
      exact ⟨hd, ih.2⟩

/-! ## What a placed cursor knows -/

/-- The offset is a cut of the text, with `rest` behind it, and the position counts what is before
    the cut. -/
theorem Placed.cut {c : Cursor} (h : Placed source c) :
    ∃ before, splitBytes? c.offset source.chars = some (before, c.rest) ∧
      c.offset ≤ byteLength source.chars ∧
      c.position = ⟨1 + before.count '\n', 1 + sinceLineFeed before, c.offset⟩ := by
  obtain ⟨before, ahead, htext, rfl⟩ := h
  refine ⟨before, ?_, ?_, rfl⟩
  · rw [htext]
    exact splitBytes?_append before ahead
  · rw [htext, byteLength_append]
    exact Nat.le_add_right _ _

/-- One offset, one position. -/
theorem Placed.position_eq {c d : Cursor} (hc : Placed source c) (hd : Placed source d)
    (h : c.offset = d.offset) : c.position = d.position := by
  obtain ⟨before, hcut, -, hposition⟩ := hc.cut
  obtain ⟨before', hcut', -, hposition'⟩ := hd.cut
  rw [h, hcut'] at hcut
  have hbefore : before' = before := congrArg Prod.fst (Option.some.inj hcut)
  rw [hposition, hposition', hbefore, h]

/-- The next step of the position fits, unless it is the last one of a text that is as long as a
    64-bit number allows. -/
theorem Placed.step?_eq {c : Cursor} {ch : Char} (h : Placed source c)
    (hsize : byteLength source.chars < wordLimit) (hpeek : c.peek = some ch) :
    c.position.step? ch = some c.advance.2.position ∨
      c.rest = [ch] ∧ byteLength source.chars + 1 = wordLimit := by
  obtain ⟨before, ahead, htext, rfl⟩ := h
  obtain ⟨ahead, rfl⟩ : ∃ after, ahead = ch :: after := List.head?_eq_some_iff.mp hpeek
  have hbytes : byteLength source.chars = byteLength (before ++ [ch]) + byteLength ahead := by
    rw [htext, ← byteLength_append, List.append_assoc]
    rfl
  rw [advance_between]
  -- the offset can leave its range only behind the last character of a text that fills the range
  by_cases hfits : byteLength (before ++ [ch]) + 1 < wordLimit
  · left
    show (Position.behind before).step? ch = some (Position.behind (before ++ [ch]))
    rw [Position.step?, Position.step_behind, if_pos (Position.fits_behind hfits)]
  · right
    have hnone : ahead = [] := by
      by_contra hsome
      have hpos := byteLength_pos hsome
      omega
    subst hnone
    exact ⟨rfl, by rw [byteLength_nil] at hbytes; omega⟩

/-- What is moved over is the longest beginning that the test takes, and the slice reads it. -/
theorem Placed.consumeWith_longest {c : Cursor} (h : Placed source c)
    (accept : τ → Char → Bool × τ) (t : τ) :
    ∃ run, Takes accept t run ∧ c.rest = run ++ (c.consumeWith accept t).2.rest ∧
      (∀ longer, Takes accept t longer → longer <+: c.rest → longer <+: run) ∧
      Slice.of? source c.offset (c.consumeWith accept t).2.offset =
        some (c.consumeWith accept t).1 ∧
      (c.consumeWith accept t).1.chars = run := by
  obtain ⟨before, ahead, htext, rfl⟩ := h
  obtain ⟨run, after, hahead, hrun, hconsume⟩ := consumeWith_between source accept t before ahead
  have hsplit : source.chars = before ++ run ++ after := by
    rw [htext, hahead, List.append_assoc]
  refine ⟨run, ?_, ?_, ?_, ?_, ?_⟩
  · rw [hrun]
    exact takes_acceptedRun accept t ahead
  · rw [hconsume]
    exact hahead
  · intro longer hlonger hprefix
    rw [hrun]
    exact prefix_acceptedRun hlonger hprefix
  · have hread : between? source.chars (byteLength before) (byteLength before + byteLength run) =
        some run := by
      rw [hsplit]
      exact between?_append before run after
    rw [hconsume]
    show Slice.of? source (byteLength before) (byteLength (before ++ run)) = _
    rw [byteLength_append, Slice.of?, hread]
    rfl
  · rw [hconsume]
    exact Slice.chars_behind hsplit

/-- **Every cursor of a run knows its place.**  The offset falls between two characters of the text,
    `rest` is what follows it there, and the three counters say how many line feeds, characters
    since the last line feed and bytes come before; so the offset determines the position.  The
    counters stay in the 64-bit range on every next step, up to one step that no text in memory
    takes: the last of a text of `2 ^ 64 - 1` characters of one byte, where lines and columns, which
    start from one, are one ahead of the bytes.  A test that is run over the text ahead moves the
    cursor past the longest beginning that it takes, and gets that beginning as a slice. -/
theorem Reached.knows_place {c : Cursor} {saved : List Checkpoint}
    (hsize : byteLength source.chars < wordLimit) (h : Reached source c saved) :
    (∃ before, splitBytes? c.offset source.chars = some (before, c.rest) ∧
      c.offset ≤ byteLength source.chars ∧
      c.position = ⟨1 + before.count '\n', 1 + sinceLineFeed before, c.offset⟩) ∧
    (∀ d others, Reached source d others → c.offset = d.offset → c.position = d.position) ∧
    (∀ ch, c.peek = some ch → c.position.step? ch = some c.advance.2.position ∨
      c.rest = [ch] ∧ byteLength source.chars + 1 = wordLimit) ∧
    ∀ {τ : Type} (accept : τ → Char → Bool × τ) (t : τ),
      ∃ run, Takes accept t run ∧ c.rest = run ++ (c.consumeWith accept t).2.rest ∧
        (∀ longer, Takes accept t longer → longer <+: c.rest → longer <+: run) ∧
        Slice.of? source c.offset (c.consumeWith accept t).2.offset =
          some (c.consumeWith accept t).1 ∧
        (c.consumeWith accept t).1.chars = run := by
  have hplaced := h.placed.1
  refine ⟨hplaced.cut, ?_, ?_, ?_⟩
  · intro d others hd hoffset
    exact hplaced.position_eq hd.placed.1 hoffset
  · intro ch hpeek
    exact hplaced.step?_eq hsize hpeek
  · intro τ accept t
    exact hplaced.consumeWith_longest accept t

/-- A text that is held in one block of memory is shorter than that, and every next step stays in
    the range. -/
theorem Reached.step?_eq {c : Cursor} {saved : List Checkpoint}
    (hsize : byteLength source.chars < blockLimit) (h : Reached source c saved) {ch : Char}
    (hpeek : c.peek = some ch) : c.position.step? ch = some c.advance.2.position := by
  have hword : byteLength source.chars + 1 < wordLimit :=
    (Nat.succ_lt_succ hsize).trans (by decide)
  rcases h.placed.1.step?_eq (Nat.lt_of_succ_lt hword) hpeek with hfits | ⟨-, hlast⟩
  · exact hfits
  · exact absurd hlast (Nat.ne_of_lt hword)

/-- Taken back behind the line feed of a text with a character of two bytes before it. -/
theorem knows_place_behind_line_feed :
    let text : SourceText := ⟨0, ['é', '\n', 'a']⟩
    let marked := (ofSource text).advance.2.advance.2
    let c := marked.advance.2.restore marked.checkpoint
    byteLength text.chars < wordLimit ∧ Reached text c [marked.checkpoint] ∧
      c.position = ⟨2, 1, 3⟩ ∧ ∃ before, splitBytes? 3 text.chars = some (before, ['a']) ∧
        3 ≤ byteLength text.chars ∧
        c.position = ⟨1 + before.count '\n', 1 + sinceLineFeed before, 3⟩ := by
  have hsize : byteLength ['é', '\n', 'a'] < wordLimit := by decide
  have hreached : Reached ⟨0, ['é', '\n', 'a']⟩ _ _ :=
    .restore (List.mem_singleton_self _) (.advance (.checkpoint (.advance (.advance .start))))
  exact ⟨hsize, hreached, by decide, (Reached.knows_place hsize hreached).1⟩

end Cursor

end Packrat
