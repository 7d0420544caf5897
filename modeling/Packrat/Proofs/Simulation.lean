import Packrat.Proofs.Orderly
import Packrat.Proofs.Replay

/-! # Every parse follows the tape

    A parser and a tape that started on the same stream stay in step: the window
    shows a suffix of the tape, cursor and marks address the same tokens, and what
    the memo table knows about a rule is what the rule does on the tape (`Mirrors`).
    Neither truncation nor a jump over a remembered span disturbs this.

    Fuel needs care.  Where the parser jumps, the tape runs a body, so it may need
    more fuel to get there; where the parser runs out, the tape does, too.
    `Follows` says both, for a computation with a fixed bound and the family of its
    counterparts on the tape.  Only the parser can fail on an index that leaves the
    64-bit range; nothing is said about what comes after that. -/

namespace Packrat

variable {σ κ ν α β : Type}

/-! ## Windows on a tape -/

/-- The window shows the tape from the first token that it has not let go. -/
structure Window.Shows (w : Window σ κ) (t : Tape σ κ) : Prop where
  stream : w.stream = t.stream
  eof : w.eof = t.eof
  pulled : w.pulled = t.pulled
  retired_le : w.retired ≤ t.tokens.length
  tokens : t.tokens.drop w.retired = w.tokens.toList
  absolute : w.absolute = t.position

namespace Window

/-- The tape is as long as all that has ever been in the window. -/
theorem Shows.length {w : Window σ κ} {t : Tape σ κ} (h : w.Shows t) :
    t.tokens.length = w.retired + w.size := by
  have hlen := congrArg List.length h.tokens
  rw [List.length_drop, Array.length_toList] at hlen
  have hle := h.retired_le
  rw [show w.size = w.tokens.size from rfl]
  omega

/-- The same distance leads to the same token on both. -/
theorem Shows.getElem? {w : Window σ κ} {t : Tape σ κ} (h : w.Shows t) (depth : Nat) :
    t.tokens[t.position + depth]? = w.tokens[w.cursor + depth]? := by
  rw [← Array.getElem?_toList, ← h.tokens, List.getElem?_drop, ← h.absolute,
    show w.absolute = w.retired + w.cursor from rfl, Nat.add_assoc]

/-- A token that comes in at the far end comes in on both. -/
theorem Shows.push {w : Window σ κ} {t : Tape σ κ} (h : w.Shows t) (k : Token κ) :
    w.retired ≤ (t.tokens ++ [k]).length ∧
      (t.tokens ++ [k]).drop w.retired = (w.tokens.push k).toList := by
  have hle := h.retired_le
  refine ⟨?_, ?_⟩
  · rw [List.length_append]
    omega
  · rw [List.drop_append_of_le_length hle, h.tokens, Array.toList_push]

/-- Both computations end in the same way, and the window still shows the tape. -/
def Parallel (m : Run (Window σ κ) LexError α) (M : Reading σ κ α) (w : Window σ κ)
    (t : Tape σ κ) : Prop :=
  ∃ r w' t', m w = (r, w') ∧ M t = (r.mapError (Halt.map .lexical), t') ∧ w'.Shows t'

/-- Where both do the first part alike, they are in step for the second one. -/
theorem Parallel.bind {m : Run (Window σ κ) LexError α} {M : Reading σ κ α}
    {f : α → Run (Window σ κ) LexError β} {F : α → Reading σ κ β} {w : Window σ κ} {t : Tape σ κ}
    (hm : Parallel m M w t) (hf : ∀ a w' t', w'.Shows t' → Parallel (f a) (F a) w' t') :
    Parallel (m >>= f) (M >>= F) w t := by
  obtain ⟨r, w', t', hw, ht, hs⟩ := hm
  cases r with
  | ok a =>
      obtain ⟨r', w'', t'', hw', ht', hs'⟩ := hf a w' t' hs
      exact ⟨r', w'', t'', (Run.bind_of_ok hw).trans hw', (Run.bind_of_ok ht).trans ht', hs'⟩
  | error e => exact ⟨.error e, w', t', Run.bind_of_error hw, Run.bind_of_error ht, hs⟩

variable [TokenStream σ κ] [DecidableEq κ] [TokenKind κ]

/-- A pull asks the same stream, or repeats the same last token. -/
theorem parallel_pull {w : Window σ κ} {t : Tape σ κ} (h : w.Shows t) :
    Parallel pull Tape.pull w t := by
  cases he : t.eof with
  | some e =>
      obtain ⟨hle, htokens⟩ := h.push e
      refine ⟨.ok (), { w with tokens := w.tokens.push e }, _, ?_, Tape.pull_of_eof he, ?_⟩
      · rw [pull, h.eof, he]
      · -- the end of the input is repeated on both sides, without a call
        exact ⟨h.stream, h.eof, h.pulled, hle, htokens, h.absolute⟩
  | none =>
      have hw : w.eof = none := h.eof.trans he
      rcases hn : TokenStream.next t.stream with ⟨e | k, stream⟩
      · refine ⟨.error (.failed e), { w with stream }, _, ?_, Tape.pull_of_error he hn, ?_⟩
        · rw [pull, hw, h.stream, hn]
        · exact ⟨rfl, h.eof, h.pulled, h.retired_le, h.tokens, h.absolute⟩
      · obtain ⟨hle, htokens⟩ := h.push k
        refine ⟨.ok (), { w with
          stream
          tokens := w.tokens.push k
          pulled := w.pulled + 1
          eof := if k.isEof then some k else none }, _, ?_, Tape.pull_of_ok he hn, ?_⟩
        · rw [pull, hw, h.stream, hn]
        · exact ⟨rfl, rfl, congrArg (· + 1) h.pulled, hle, htokens, h.absolute⟩

/-- So does any number of pulls, up to the first complaint. -/
theorem parallel_pullMany (count : Nat) {w : Window σ κ} {t : Tape σ κ} (h : w.Shows t) :
    Parallel (pullMany count) (Tape.pullMany count) w t := by
  induction count generalizing w t with
  | zero => exact ⟨.ok (), w, t, rfl, rfl, h⟩
  | succ count ih => exact (parallel_pull h).bind fun _ _ _ hs => ih hs

/-- A window pulls as many tokens as are missing on the tape; that it notes its size afterwards is
    seen nowhere else. -/
theorem parallel_fill (count : Nat) {w : Window σ κ} {t : Tape σ κ} (h : w.Shows t) :
    Parallel (fill count) (Tape.fill count) w t := by
  -- both lack the same number of tokens
  have hcount : w.cursor + count - w.size = t.position + count - t.tokens.length := by
    rw [h.length, ← h.absolute, show w.absolute = w.retired + w.cursor from rfl]
    omega
  obtain ⟨r, w', t', hw, ht, hs⟩ := parallel_pullMany (w.cursor + count - w.size) h
  rw [hcount] at ht
  cases r with
  | ok _ =>
      refine ⟨.ok (), { w' with peak := max w'.peak w'.size }, t', ?_, ht, ?_⟩
      · exact (Run.read_bind _ _ w).trans (Run.bind_of_ok hw)
      · exact ⟨hs.stream, hs.eof, hs.pulled, hs.retired_le, hs.tokens, hs.absolute⟩
  | error e =>
      exact ⟨.error e, w', t', (Run.read_bind _ _ w).trans (Run.bind_of_error hw), ht, hs⟩

/-- The window looks at the token that the tape has there.  An index that overflows is kept out, for
    the tape knows no such limit. -/
theorem parallel_peek {depth : Nat} {w : Window σ κ} {t : Tape σ κ} (h : w.Shows t)
    (ho : w.overflowsAt depth = false) : Parallel (peek depth) (Tape.peek depth) w t := by
  rw [Parallel, peek, Run.read_bind, if_neg (ho ▸ Bool.false_ne_true)]
  refine (parallel_fill (depth + 1) h).bind ?_
  intro _ w' t' hs
  have hsame := hs.getElem? depth
  cases hk : w'.tokens[w'.cursor + depth]? with
  | some k =>
      rw [hk] at hsame
      refine ⟨.ok k, w', t', ?_, ?_, hs⟩
      · rw [Run.read_bind, hk]
        rfl
      · rw [Run.read_bind, hsame]
        rfl
  | none =>
      rw [hk] at hsame
      refine ⟨.error (.fault .lookaheadOverflow), w', t', ?_, ?_, hs⟩
      · rw [Run.read_bind, hk]
        rfl
      · rw [Run.read_bind, hsame]
        rfl

/-- Both step over the same token, whether it was held or has to be pulled. -/
theorem parallel_advance {w : Window σ κ} {t : Tape σ κ} (h : w.Shows t) :
    Parallel advance Tape.advance w t := by
  refine (parallel_fill 1 h).bind ?_
  intro _ w' t' hs
  refine ⟨.ok (), _, _, rfl, rfl, ⟨hs.stream, hs.eof, hs.pulled, hs.retired_le, hs.tokens, ?_⟩⟩
  exact congrArg (· + 1) hs.absolute

end Window

/-! ## Parsers in step with a tape -/

section Mirrors

variable [TokenStream σ κ] [DecidableEq κ] [TokenKind κ]

/-- The parser and the tape are in step. -/
structure Mirrors (d : Discipline κ ν) (rules : ν → Expr κ ν) (p : Parser σ κ) (t : Tape σ κ) :
    Prop where
  window : p.window.Shows t
  marks : p.marks.cursors.map (p.window.retired + ·) = t.marks
  sound : p.Sound
  memo : ∀ rule position span, p.memo.Holds rule position span → ∀ e, d.memo rule e →
    t.Known rules e position (p.window.retired + span.stop)

variable {d : Discipline κ ν} {rules : ν → Expr κ ν}

/-- A parser and a tape begin in step. -/
theorem mirrors_new (stream : σ) (options : Options) :
    Mirrors d rules (Parser.new stream options) (Tape.new stream) where
  window := ⟨rfl, rfl, rfl, Nat.le_refl 0, rfl, rfl⟩
  marks := rfl
  sound := Parser.sound_new stream options
  memo := by
    rintro rule position span ⟨entries, hmem, -⟩
    exact nomatch hmem

namespace Mirrors

/-- A window of the same layout on a longer tape. -/
theorem reframe {p : Parser σ κ} {t t' : Tape σ κ} {w : Window σ κ} (h : Mirrors d rules p t)
    (hs : w.Shows t') (hretired : w.retired = p.window.retired)
    (hmarks : t'.marks = t.marks) (hpre : t.tokens <+: t'.tokens)
    (hsound : ({ p with window := w } : Parser σ κ).Sound) :
    Mirrors d rules { p with window := w } t' where
  window := hs
  marks := by
    rw [hmarks, ← h.marks]
    show p.marks.cursors.map (w.retired + ·) = _
    rw [hretired]
  sound := hsound
  memo := by
    intro rule position span hold e he
    show t'.Known rules e position (w.retired + span.stop)
    rw [hretired]
    exact (h.memo rule position span hold e he).mono hpre

/-- A mark notes the same place on both. -/
theorem marked {p : Parser σ κ} {t : Tape σ κ} (h : Mirrors d rules p t) :
    Mirrors d rules p.marked t.marked where
  window := ⟨h.window.stream, h.window.eof, h.window.pulled, h.window.retired_le,
    h.window.tokens, h.window.absolute⟩
  marks := by
    show (p.window.retired + p.window.cursor) :: _ = t.position :: t.marks
    rw [← h.marks, ← h.window.absolute]
    rfl
  sound := h.sound.marked
  memo := h.memo

/-- Letting the tokens go leaves the tape as it is. -/
theorem tidied {p : Parser σ κ} {t : Tape σ κ} (h : Mirrors d rules p t) :
    Mirrors d rules p.tidied t := by
  rcases p.tidied_cases with ⟨hdrained, hnone, heq⟩ | heq
  · rw [heq]
    refine ⟨⟨h.window.stream, h.window.eof, h.window.pulled, ?_, ?_, ?_⟩, ?_, ?_, ?_⟩
    · show p.window.retired + p.window.cursor ≤ t.tokens.length
      exact Nat.le_of_eq (by rw [h.window.length, hdrained])
    · -- what is left of the window is what is left of the tape
      show t.tokens.drop (p.window.retired + p.window.cursor)
        = (p.window.tokens.extract p.window.cursor p.window.tokens.size).toList
      rw [← List.drop_drop, h.window.tokens, Array.toList_extract, List.extract_eq_take_drop]
      refine (List.take_of_length_le (Nat.le_of_eq ?_)).symm
      rw [List.length_drop, Array.length_toList]
    · exact h.window.absolute
    · rw [← h.marks]
      show p.marks.cursors.map _ = p.marks.cursors.map _
      rw [hnone]
      rfl
    · exact h.sound.truncate hdrained hnone
    · intro rule position span hold
      exact absurd hold (Parser.not_holds_truncate h.sound hdrained rule position span)
  · rw [heq]
    exact h

/-- A success that is recorded is known. -/
theorem recorded {p q : Parser σ κ} {t : Tape σ κ} {name : String} (hq : Mirrors d rules q t)
    (hfwd : p.Forward q) (hknown : ∀ e, d.memo name e → t.Known rules e p.absolute t.position) :
    Mirrors d rules (p.recorded name q) t := by
  have hsound := hq.sound.recorded hfwd name
  by_cases hle : q.window.retired ≤ p.absolute
  · rw [Parser.recorded, if_pos hle] at hsound ⊢
    refine ⟨hq.window, hq.marks, hsound, ?_⟩
    intro rule position span hold e he
    rcases Memo.holds_store hold with ⟨rfl, rfl, rfl⟩ | hbefore
    · have hknown' := hknown e he
      rw [← hq.window.absolute] at hknown'
      exact hknown'
    · exact hq.memo rule position span hbefore e he
  · rw [Parser.recorded, if_neg hle]
    exact hq

end Mirrors

/-- On a parser and a tape the two computations end alike, with a value or a complaint, and leave
    the parser and the tape in step. -/
def Together (d : Discipline κ ν) (rules : ν → Expr κ ν) (m : Parsing σ κ α)
    (M : Reading σ κ α) (p : Parser σ κ) (t : Tape σ κ) : Prop :=
  ∃ r q t', m p = (r, q) ∧ M t = (r, t') ∧ isSettled r = true ∧ q.options = p.options ∧
    Mirrors d rules q t'

namespace Mirrors

/-- Marking is in step. -/
theorem mark_step {p : Parser σ κ} {t : Tape σ κ} (hp : Mirrors d rules p t) :
    Together d rules Parser.mark Tape.mark p t := by
  refine ⟨.ok p.marked.marks.depth, p.marked, t.marked, rfl, ?_, rfl, rfl, hp.marked⟩
  have hdepth : t.marked.marks.length = p.marked.marks.depth := by
    rw [← hp.marked.marks, List.length_map]
    rfl
  rw [← hdepth]
  rfl

/-- And so is a release: the marks of the parser are those of the tape, less what has been let
    go. -/
theorem release_step (restore : Bool) {p : Parser σ κ} {t : Tape σ κ}
    (hp : Mirrors d rules p t) :
    Together d rules (Parser.release restore) (Tape.release restore) p t := by
  have hmarks := hp.marks
  cases hc : p.marks.cursors with
  | nil =>
      rw [hc] at hmarks
      refine ⟨.ok (), p, t, Parser.release_of_nil hc, ?_, rfl, rfl, hp⟩
      rw [Tape.release, ← hmarks]
      rfl
  | cons c cs =>
      rw [hc] at hmarks
      have hsound : (Parser.release restore p).2.Sound :=
        (Orderly.release (d := d) restore p hp.sound).sound
      rw [Parser.release_of_cons hp.sound hc] at hsound
      refine ⟨.ok (), _, { t with
        marks := cs.map (p.window.retired + ·)
        position := if restore then p.window.retired + c else t.position },
        Parser.release_of_cons hp.sound hc, ?_, rfl, rfl, ?_⟩
      · rw [Tape.release, ← hmarks]
        rfl
      · -- a mark is the same place under both ways of counting
        cases restore with
        | false =>
            exact ⟨⟨hp.window.stream, hp.window.eof, hp.window.pulled, hp.window.retired_le,
              hp.window.tokens, hp.window.absolute⟩, rfl, hsound, hp.memo⟩
        | true =>
            exact ⟨⟨hp.window.stream, hp.window.eof, hp.window.pulled, hp.window.retired_le,
              hp.window.tokens, rfl⟩, rfl, hsound, hp.memo⟩

/-- Looking ahead, at a depth whose index stays in the 64-bit range. -/
theorem peek_step {depth : Nat} {p : Parser σ κ} {t : Tape σ κ} (hp : Mirrors d rules p t)
    (ho : p.window.overflowsAt depth = false) :
    Together d rules (Parser.peek depth) (Tape.peek depth) p t := by
  obtain ⟨r, w, t', hw, ht, hs⟩ := Window.parallel_peek hp.window ho
  -- both specs speak of the outcome that the two sides share
  have hgt : t.Grows t' := by
    rcases Tape.peek_spec depth t with ⟨k, u, hu, hg, -⟩ | ⟨e, u, hu, hg⟩
    · obtain rfl : u = t' := congrArg Prod.snd (hu.symm.trans ht)
      exact hg
    · obtain rfl : u = t' := congrArg Prod.snd (hu.symm.trans ht)
      exact hg
  rcases Window.peek_spec depth p.window with ⟨k, w', h, hg, -⟩ | ⟨e, w', h, hg⟩ | ⟨ho', -⟩
  · obtain ⟨rfl, rfl⟩ := Prod.mk.inj (h.symm.trans hw)
    exact ⟨.ok k, _, t', Parser.onWindow_ok h, ht, rfl, rfl,
      hp.reframe hs hg.retired hgt.marks hgt.tokens (hp.sound.grows hg)⟩
  · obtain ⟨rfl, rfl⟩ := Prod.mk.inj (h.symm.trans hw)
    exact ⟨.error (.failed (.lexical e)), _, t', Parser.onWindow_error h, ht, rfl, rfl,
      hp.reframe hs hg.retired hgt.marks hgt.tokens (hp.sound.grows hg)⟩
  · exact absurd (ho.symm.trans ho') Bool.false_ne_true

/-- The parser may let its window go afterwards.  The tape keeps everything, and shows the same. -/
theorem advance_step {p : Parser σ κ} {t : Tape σ κ} (hp : Mirrors d rules p t) :
    Together d rules Parser.advance Tape.advance p t := by
  obtain ⟨r, w, t', hw, ht, hs⟩ := Window.parallel_advance hp.window
  have hgt : t.tokens <+: t'.tokens ∧ t'.marks = t.marks := by
    rcases Tape.advance_spec t with ⟨u, hu, hg, -⟩ | ⟨e, u, hu, hg⟩
    · obtain rfl : _ = t' := congrArg Prod.snd (hu.symm.trans ht)
      exact ⟨hg.tokens, hg.marks⟩
    · obtain rfl : u = t' := congrArg Prod.snd (hu.symm.trans ht)
      exact ⟨hg.tokens, hg.marks⟩
  rcases Window.advance_spec p.window with ⟨w₁, h, hg, hle⟩ | ⟨e, w₁, h, hg⟩
  · obtain ⟨rfl, rfl⟩ := Prod.mk.inj (h.symm.trans hw)
    refine ⟨.ok (), (p.stepped w₁).tidied, t', ?_, ht, rfl, ?_, ?_⟩
    · exact Run.bind_of_ok (Parser.onWindow_ok h)
    · rcases (p.stepped w₁).tidied_cases with ⟨-, -, heq⟩ | heq
      · rw [heq]
        rfl
      · rw [heq]
        rfl
    · -- the parser may let its tokens go now, the tape keeps them
      exact (hp.reframe hs hg.retired hgt.2 hgt.1 (hp.sound.stepped hg hle)).tidied
  · obtain ⟨rfl, rfl⟩ := Prod.mk.inj (h.symm.trans hw)
    refine ⟨.error (.failed (.lexical e)), { p with window := w₁ }, t', ?_, ht, rfl, rfl, ?_⟩
    · exact Run.bind_of_error (Parser.onWindow_error h)
    · exact hp.reframe hs hg.retired hgt.2 hgt.1 (hp.sound.grows hg)

end Mirrors

end Mirrors

/-! ## Following -/

section Follows

variable [TokenStream σ κ] [DecidableEq κ] [TokenKind κ]

/-- The outcome of a parse with the bound `n` is what the tape comes to: both run out of fuel, or
    both end alike and are in step again. -/
inductive Tracked (d : Discipline κ ν) (rules : ν → Expr κ ν) (n : Nat)
    (M : Nat → Reading σ κ α) (t : Tape σ κ) :
    Except (Halt (ParseError κ)) α × Parser σ κ → Prop where
  | starved {p} : (M n t).1 = .error .outOfFuel → Tracked d rules n M t (.error .outOfFuel, p)
  | overflow {p} : Tracked d rules n M t (.error (.fault .lookaheadOverflow), p)
  | settled {r p k t'} : isSettled r = true → M k t = (r, t') → Mirrors d rules p t' →
      Tracked d rules n M t (r, p)

/-- Where the tape comes to an end within the bound, the parse ends alike, unless an index leaves
    the 64-bit range. -/
theorem Tracked.of_settled {d : Discipline κ ν} {rules : ν → Expr κ ν} {n : Nat}
    {M : Nat → Reading σ κ α} {t t' : Tape σ κ} {p : Parser σ κ}
    {r r' : Except (Halt (ParseError κ)) α} (h : Tracked d rules n M t (r, p))
    (hM : Run.Rising M) (ht : M n t = (r', t')) (hr' : isSettled r' = true) :
    r = .error (.fault .lookaheadOverflow) ∨ r = r' ∧ Mirrors d rules p t' := by
  cases h with
  | overflow => exact Or.inl rfl
  | starved hout =>
      rw [ht] at hout
      obtain rfl : r' = .error .outOfFuel := hout
      exact nomatch hr'
  | @settled _ _ k u hset hk hp =>
      -- the tape needed `k`, which may be more than `n`, but it has ended with `n`
      rcases hM.or_eq hk hset n with ⟨-, hout⟩ | heq
      · rw [ht] at hout
        obtain rfl : r' = .error .outOfFuel := hout
        exact nomatch hr'
      · obtain ⟨rfl, rfl⟩ := Prod.mk.inj (heq.symm.trans ht)
        exact Or.inr ⟨rfl, hp⟩

/-- The computation with the bound `n` does what the family does on the tape. -/
structure Follows (d : Discipline κ ν) (rules : ν → Expr κ ν) (n : Nat) (m : Parsing σ κ α)
    (M : Nat → Reading σ κ α) : Prop where
  rising : Run.Rising M
  tracked : ∀ p t, Mirrors d rules p t → Tracked d rules n M t (m p)

namespace Follows

variable {d : Discipline κ ν} {rules : ν → Expr κ ν} {n : Nat}

/-- The bound of the parse is the same for both parts, and so the tape gets by with the larger of
    the two that it needs. -/
theorem bind {m : Parsing σ κ α} {f : α → Parsing σ κ β} {M : Nat → Reading σ κ α}
    {F : Nat → α → Reading σ κ β} (hm : Follows d rules n m M)
    (hf : ∀ a, Follows d rules n (f a) fun k => F k a) :
    Follows d rules n (m >>= f) fun k => M k >>= F k := by
  refine ⟨hm.rising.bind fun a => (hf a).rising, ?_⟩
  intro p t hp
  have h₁ := hm.tracked p t hp
  rcases hr : m p with ⟨r, q⟩
  rw [hr] at h₁
  cases h₁ with
  | starved hM =>
      rw [Run.bind_of_error hr]
      refine .starved ?_
      rcases hMn : M n t with ⟨r', u⟩
      rw [hMn] at hM
      obtain rfl : r' = .error .outOfFuel := hM
      rw [Run.bind_of_error hMn]
  | overflow =>
      rw [Run.bind_of_error hr]
      exact .overflow
  | @settled _ _ k u hset hM hq =>
      cases r with
      | error e =>
          rw [Run.bind_of_error hr]
          refine .settled (k := k) ?_ (Run.bind_of_error hM) hq
          cases e with
          | failed _ => rfl
          | fault _ => exact nomatch hset
          | outOfFuel => exact nomatch hset
      | ok a =>
          rw [Run.bind_of_ok hr]
          have h₂ := (hf a).tracked q u hq
          rcases hr₂ : f a q with ⟨r₂, q₂⟩
          rw [hr₂] at h₂
          cases h₂ with
          | starved hF =>
              -- the tape may be short of fuel already in the first part
              refine .starved ?_
              rcases hm.rising.or_eq hM hset n with ⟨-, hout⟩ | heq
              · rcases hMn : M n t with ⟨r', u'⟩
                rw [hMn] at hout
                obtain rfl : r' = .error .outOfFuel := hout
                rw [Run.bind_of_error hMn]
              · rw [Run.bind_of_ok heq]
                exact hF
          | overflow => exact .overflow
          | @settled _ _ k₂ u₂ hset₂ hF hq₂ =>
              have hM' := hm.rising.eq_of_le hM hset (Nat.le_max_left k k₂)
              have hF' := (hf a).rising.eq_of_le hF hset₂ (Nat.le_max_right k k₂)
              exact .settled (k := max k k₂) hset₂ ((Run.bind_of_ok hM').trans hF') hq₂

/-- Settling turns the same complaints into answers on both sides. -/
theorem settle {m : Parsing σ κ α} {M : Nat → Reading σ κ α} (h : Follows d rules n m M) :
    Follows d rules n m.settle fun k => (M k).settle := by
  refine ⟨h.rising.settle, ?_⟩
  intro p t hp
  have h₁ := h.tracked p t hp
  rcases hr : m p with ⟨r, q⟩
  rw [hr] at h₁
  cases h₁ with
  | starved hM =>
      rw [Run.settle_of_outOfFuel hr]
      refine .starved ?_
      rcases hMn : M n t with ⟨r', u⟩
      rw [hMn] at hM
      obtain rfl : r' = .error .outOfFuel := hM
      rw [Run.settle_of_outOfFuel hMn]
  | overflow =>
      rw [Run.settle_of_fault hr]
      exact .overflow
  | @settled _ _ k u hset hM hq =>
      -- a complaint becomes a value on both sides
      match r, hr, hset, hM with
      | .ok a, hr, _, hM =>
          rw [Run.settle_of_ok hr]
          exact .settled (k := k) rfl (Run.settle_of_ok hM) hq
      | .error (.failed e), hr, _, hM =>
          rw [Run.settle_of_failed hr]
          exact .settled (k := k) rfl (Run.settle_of_failed hM) hq

/-- Both take the same branch. -/
theorem ite {c : Prop} [Decidable c] {m m' : Parsing σ κ α} {M M' : Nat → Reading σ κ α}
    (h : Follows d rules n m M) (h' : Follows d rules n m' M') :
    Follows d rules n (if c then m else m') fun k => if c then M k else M' k := by
  by_cases hc : c
  · simp only [if_pos hc]
    exact h
  · simp only [if_neg hc]
    exact h'

/-- What takes no fuel is followed step for step. -/
theorem of_step {m : Parsing σ κ α} {M : Reading σ κ α}
    (h : ∀ p t, Mirrors d rules p t → Together d rules m M p t) :
    Follows d rules n m fun _ => M := by
  refine ⟨Run.Rising.const M, ?_⟩
  intro p t hp
  obtain ⟨r, q, t', hm, hM, hset, -, hq⟩ := h p t hp
  rw [hm]
  exact .settled (k := 0) hset hM hq

/-- An answer without a step is the same on both. -/
theorem pure (a : α) :
    Follows d rules n (Pure.pure a : Parsing σ κ α) fun _ => (Pure.pure a : Reading σ κ α) :=
  of_step fun p t hp => ⟨.ok a, p, t, rfl, rfl, rfl, rfl, hp⟩

/-- And so is a complaint without one. -/
theorem fail (e : ParseError κ) :
    Follows d rules n (Run.fail e : Parsing σ κ α) fun _ => (Run.fail e : Reading σ κ α) :=
  of_step fun p t hp => ⟨.error (.failed e), p, t, rfl, rfl, rfl, rfl, hp⟩

/-- Forgetting the answer is done on both. -/
theorem discard {m : Parsing σ κ α} {M : Nat → Reading σ κ α} (h : Follows d rules n m M) :
    Follows d rules n (Functor.discard m : Parsing σ κ PUnit)
      fun k => (Functor.discard (M k) : Reading σ κ PUnit) :=
  h.bind fun _ => Follows.pure PUnit.unit

/-- A mark is one step on either side. -/
theorem mark : Follows d rules n (Parser.mark : Parsing σ κ Nat) fun _ => Tape.mark :=
  of_step fun _ _ hp => hp.mark_step

/-- A release cannot fail: a parser that is in step rewinds inside its window. -/
theorem release (restore : Bool) :
    Follows d rules n (Parser.release restore : Parsing σ κ Unit)
      fun _ => Tape.release restore :=
  of_step fun _ _ hp => hp.release_step restore

/-! ### Speculation -/

/-- Speculation is a mark, the rule and a release, each of them in step. -/
theorem speculate {rule : Parsing σ κ Unit} {M : Nat → Reading σ κ Unit}
    (h : Follows d rules n rule M) :
    Follows d rules n (Parser.speculate rule) fun k => Tape.speculate (M k) := by
  refine mark.bind fun _ => h.settle.bind fun outcome => (release true).bind fun _ => ?_
  match outcome with
  | .ok () => exact Follows.pure none
  | .error e => exact Follows.ite (Follows.pure (some e)) (Follows.fail e)

/-- An attempt is a speculation whose mismatch is not told. -/
theorem attempt {rule : Parsing σ κ Unit} {M : Nat → Reading σ κ Unit}
    (h : Follows d rules n rule M) :
    Follows d rules n (Parser.attempt rule) fun k => Tape.attempt (M k) :=
  (speculate h).bind fun _ => Follows.pure _

/-! ### Tokens -/

/-- Either the index overflows, and then the parse ends there, or both look at the same token. -/
theorem peek (depth : Nat) :
    Follows d rules n (Parser.peek depth : Parsing σ κ (Token κ)) fun _ => Tape.peek depth := by
  refine ⟨Run.Rising.const _, ?_⟩
  intro p t hp
  cases ho : p.window.overflowsAt depth with
  | true =>
      rw [Parser.peek_of_overflows ho]
      exact .overflow
  | false =>
      obtain ⟨r, q, t', hm, hM, hset, -, hq⟩ := hp.peek_step ho
      rw [hm]
      exact .settled (k := 0) hset hM hq

/-- The kind is read off the token that both see. -/
theorem peekKind (depth : Nat) :
    Follows d rules n (Parser.peekKind depth : Parsing σ κ κ) fun _ => Tape.peekKind depth :=
  (peek depth).bind fun _ => Follows.pure _

/-- A check reads the kind of the current token. -/
theorem check (k : κ) :
    Follows d rules n (Parser.check k : Parsing σ κ Bool) fun _ => Tape.check k :=
  (peekKind 0).bind fun _ => Follows.pure _

/-- A sight shows the token with its position, and that is the same for both. -/
theorem sight :
    Follows d rules n (Parser.sight : Parsing σ κ (Sighting κ)) fun _ => Tape.sight := by
  refine (peek 0).bind fun k => of_step fun p t hp => ?_
  refine ⟨.ok (.ofToken p.absolute k), p, t, rfl, ?_, rfl, rfl, hp⟩
  rw [Run.read_apply, ← hp.window.absolute]
  rfl

/-- The step over a token has been followed above. -/
theorem advance : Follows d rules n (Parser.advance : Parsing σ κ Unit) fun _ => Tape.advance :=
  of_step fun _ _ hp => hp.advance_step

/-- A check, and then a step or a complaint with the sight of the token. -/
theorem expect (k : κ) :
    Follows d rules n (Parser.expect k : Parsing σ κ Unit) fun _ => Tape.expect k :=
  (check k).bind fun _ => Follows.ite advance (sight.bind fun _ => Follows.fail _)

/-- Alternative by alternative both learn the same, and run the same one for good. -/
theorem chooseFrom (name : String) {es : List (Expr κ ν)} {f : Expr κ ν → Parsing σ κ Unit}
    {F : Nat → Expr κ ν → Reading σ κ Unit} (h : ∀ e ∈ es, Follows d rules n (f e) fun k => F k e)
    (furthest : Option (ParseError κ)) :
    Follows d rules n (Parser.chooseFrom name furthest (es.map f))
      fun k => Tape.chooseFrom name furthest (es.map (F k)) := by
  induction es generalizing furthest with
  | nil => exact sight.bind fun _ => Follows.fail _
  | cons e es ih =>
      refine (speculate (h e List.mem_cons_self)).bind ?_
      intro outcome
      cases outcome with
      | none => exact h e List.mem_cons_self
      | some error => exact ih (fun e' he' => h e' (List.mem_cons_of_mem _ he')) _

/-! ### Memoization -/

/-- Where the parser jumps over a remembered span, the tape runs the body to the same place; where
    it runs the body, the tape can do so again. -/
theorem memoize {name : String} {e : Expr κ ν} (hfun : d.Functional) (hmemo : d.memo name e)
    (hrules : d.Governs rules) (hlaw : Lawful d false e)
    (h : Follows (σ := σ) d rules n (Expr.eval rules n e) fun k => Tape.eval rules k e) :
    Follows d rules n (Parser.memoize name (Functor.discard (Expr.eval rules n e)))
      fun k => (Functor.discard (Tape.eval rules k e) : Reading σ κ PUnit) := by
  refine ⟨h.discard.rising, ?_⟩
  intro p t hp
  cases hon : p.options.memoize with
  | false =>
      rw [Parser.memoize_of_off hon]
      exact h.discard.tracked p t hp
  | true =>
      have hasked : Mirrors d rules (p.asked name) t :=
        ⟨hp.window, hp.marks, hp.sound.asked name,
          fun rule position span hold => hp.memo rule position span (Memo.holds_lookup.mp hold)⟩
      cases hfind : p.memo.find? name p.absolute with
      | some span =>
          have hold := Memo.holds_of_find? hfind
          obtain ⟨hpos, hle, hstop⟩ := hp.sound.spans name p.absolute span hold
          obtain ⟨k, v, hkv⟩ := hp.memo name p.absolute span hold e hmemo
          have hrun := hkv t List.prefix_rfl hp.window.absolute.symm
          have hdone : Orderly d false (Parser.memoize name (Pure.pure ()) : Parsing σ κ Unit) :=
            Orderly.memoize name (Orderly.pure ())
          have hsound := (hdone p hp.sound).sound
          rw [Parser.memoize_of_hit hp.sound hon hfind] at hsound ⊢
          refine .settled (k := k) rfl (Run.bind_of_ok hrun) ?_
          refine hasked.reframe ?_ rfl rfl List.prefix_rfl hsound
          exact ⟨hp.window.stream, hp.window.eof, hp.window.pulled, hp.window.retired_le,
            hp.window.tokens, rfl⟩
      | none =>
          rw [Parser.memoize_of_miss hon hfind]
          have hbody := h.discard.tracked (p.asked name) t hasked
          have hkeeps := (eval_orderly hrules n hlaw).discard (p.asked name) hasked.sound
          rcases hr : (Functor.discard (Expr.eval rules n e) : Parsing σ κ PUnit) (p.asked name)
            with ⟨r, q⟩
          rw [hr] at hbody hkeeps
          cases r with
          | error e =>
              rw [Parser.runAndRecord_of_error hr]
              exact hbody
          | ok u =>
              have hfwd := hkeeps.forward rfl rfl
              rw [Parser.runAndRecord_of_ok hfwd hr]
              cases hbody with
              | @settled _ _ k t' hset hM hq =>
                  -- the body is replayed from the tape that it left
                  refine .settled (k := k) rfl hM (hq.recorded hfwd ?_)
                  intro e' he'
                  obtain rfl := hfun name e e' hmemo he'
                  obtain ⟨v, hv⟩ := Run.discard_eq_ok hM
                  refine ⟨k, v, fun t'' hpre hpos => ?_⟩
                  have hv' := (eval_replayable hrules k hlaw t).again
                  rw [hv] at hv'
                  exact hv' rfl t'' hpre (hpos.trans hp.window.absolute)

/-- One more unit of fuel on both sides. -/
theorem succ {m : Parsing σ κ α} {M : Nat → Reading σ κ α} (hM : Run.Rising M)
    (h : Follows d rules n m fun k => M (k + 1)) : Follows d rules (n + 1) m M := by
  refine ⟨hM, ?_⟩
  intro p t hp
  have h₁ := h.tracked p t hp
  rcases hr : m p with ⟨r, q⟩
  rw [hr] at h₁
  cases h₁ with
  | starved hout => exact .starved hout
  | overflow => exact .overflow
  | @settled _ _ k u hset heq hq => exact .settled (k := k + 1) hset heq hq

end Follows

open Follows in
/-- **Every lawful expression follows the tape**, with the memo table and without it. -/
theorem eval_follows {d : Discipline κ ν} {rules : ν → Expr κ ν} (hrules : d.Governs rules)
    (hfun : d.Functional) (n : Nat) {bare : Bool} {e : Expr κ ν} (h : Lawful d bare e) :
    Follows (σ := σ) d rules n (Expr.eval rules n e) fun k => Tape.eval rules k e := by
  induction n generalizing bare e with
  | zero =>
      refine ⟨Tape.eval_rising rules e, fun p t _ => ?_⟩
      exact .starved rfl
  | succ n ih =>
      refine Follows.succ (Tape.eval_rising rules e) ?_
      cases h with
      | done => exact Follows.pure _
      | peek _ => exact (peek _).bind fun _ => Follows.pure _
      | peekKind _ => exact (peekKind _).bind fun _ => Follows.pure _
      | check => exact (check _).bind fun _ => Follows.pure _
      | expect => exact (expect _).bind fun _ => Follows.pure _
      | advance => exact advance.bind fun _ => Follows.pure _
      | mark => exact mark.bind fun _ => Follows.pure _
      | release => exact (release _).bind fun _ => Follows.pure _
      | attempt hb => exact (attempt (ih hb).discard).bind fun _ => Follows.pure _
      | choose hb =>
          exact (chooseFrom _ (fun e he => (ih (hb e he)).discard) none).bind
            fun _ => Follows.pure _
      | memo hm hb =>
          exact (memoize hfun hm hrules hb (ih hb)).bind fun _ => Follows.pure _
      | seq ha hb =>
          exact (ih ha).discard.bind fun _ => (ih hb).discard.bind fun _ => Follows.pure _
      | cond _ hy hn => exact (peekKind _).bind fun _ => Follows.ite (ih hy) (ih hn)
      | loop hb =>
          refine (check _).bind fun _ => Follows.ite ?_ (Follows.pure _)
          exact (ih hb).discard.bind fun _ => ih (.loop hb)
      | trial hg hy hn =>
          exact (attempt (ih hg).discard).bind fun _ => Follows.ite (ih hy) (ih hn)
      | call hq => exact ih (hrules _ _ hq)

end Follows

end Packrat
