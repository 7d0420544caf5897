import Packrat.Proofs.Script
import Packrat.Proofs.Steady

/-! # Windows that have let nothing go

    As long as a parser speculates, or looks back at what it has speculated over,
    its window holds everything that the stream has answered.  Such a window is
    given by two numbers, the tokens it holds and the place of the cursor, and so
    every operation on it can be written down as an equation between them.

    Rules are evaluated with a bound on their depth.  `Ends` says what a run comes
    to, should the bound suffice. -/

namespace Packrat

variable {σ κ α β : Type}

/-! ## What a run comes to -/

section Runs

variable {S ε : Type}

/-- The run is cut short, or it breaks no rule of use and `Q` holds of its outcome. -/
def Ends (m : Run S ε α) (s : S) (Q : Except ε α → S → Prop) : Prop :=
  match m s with
  | (.ok a, s') => Q (.ok a) s'
  | (.error (.failed e), s') => Q (.error e) s'
  | (.error (.fault _), _) => False
  | (.error .outOfFuel, _) => True

/-- A value with the property is an end as foreseen. -/
theorem ends_of_ok {m : Run S ε α} {s s' : S} {a : α} {Q : Except ε α → S → Prop}
    (h : m s = (.ok a, s')) (hQ : Q (.ok a) s') : Ends m s Q := by
  rw [Ends, h]
  exact hQ

/-- So is a complaint with the property. -/
theorem ends_of_failed {m : Run S ε α} {s s' : S} {e : ε} {Q : Except ε α → S → Prop}
    (h : m s = (.error (.failed e), s')) (hQ : Q (.error e) s') : Ends m s Q := by
  rw [Ends, h]
  exact hQ

/-- A run that is cut short need not end as foreseen. -/
theorem ends_of_outOfFuel {m : Run S ε α} {s s' : S} {Q : Except ε α → S → Prop}
    (h : m s = (.error .outOfFuel, s')) : Ends m s Q := by
  rw [Ends, h]
  trivial

/-- What is foreseen may be said more loosely. -/
theorem Ends.mono {m : Run S ε α} {s : S} {Q Q' : Except ε α → S → Prop} (h : Ends m s Q)
    (hQ : ∀ r s', Q r s' → Q' r s') : Ends m s Q' := by
  rw [Ends] at h ⊢
  match hm : m s with
  | (.ok a, s') => exact hQ _ _ (by rwa [hm] at h)
  | (.error (.failed e), s') => exact hQ _ _ (by rwa [hm] at h)
  | (.error (.fault _), _) => rwa [hm] at h
  | (.error .outOfFuel, _) => trivial

/-- After a step that succeeds it is the rest that counts. -/
theorem Ends.of_step {m : Run S ε α} {f : α → Run S ε β} {s s' : S} {a : α}
    {R : Except ε β → S → Prop} (h : m s = (.ok a, s')) (hf : Ends (f a) s' R) :
    Ends (m >>= f) s R := by
  rw [Ends, Run.bind_of_ok h]
  exact hf

/-- What follows a value goes on from where the value was had. -/
theorem Ends.bind {m : Run S ε α} {f : α → Run S ε β} {s : S} {Q : Except ε α → S → Prop}
    {R : Except ε β → S → Prop} (h : Ends m s Q)
    (hf : ∀ r s', Q r s' → ∃ a, r = .ok a ∧ Ends (f a) s' R) : Ends (m >>= f) s R := by
  -- all that stops short of an answer is excluded by the hypothesis, except for want of fuel
  rw [Ends] at h
  match hm : m s with
  | (.ok a, s') =>
      rw [hm] at h
      obtain ⟨a', ha, hrest⟩ := hf _ _ h
      cases ha
      exact .of_step hm hrest
  | (.error (.failed e), s') =>
      rw [hm] at h
      obtain ⟨_, hok, -⟩ := hf _ _ h
      exact nomatch hok
  | (.error (.fault _), _) =>
      rw [hm] at h
      exact h.elim
  | (.error .outOfFuel, _) => exact ends_of_outOfFuel (Run.bind_of_error hm)

/-- If the value is forgotten, the property may still speak of whether there was one. -/
theorem Ends.discard {m : Run S ε α} {s : S} {Q : Except ε α → S → Prop}
    {R : Except ε PUnit → S → Prop} (h : Ends m s Q)
    (hR : ∀ r s', Q r s' → R (r.map fun _ => PUnit.unit) s') :
    Ends (Functor.discard m : Run S ε PUnit) s R := by
  rw [Ends] at h
  match hm : m s with
  | (.ok a, s') =>
      rw [hm] at h
      exact ends_of_ok (Run.discard_of_ok hm) (hR (.ok a) s' h)
  | (.error (.failed e), s') =>
      rw [hm] at h
      exact ends_of_failed (Run.discard_of_error hm) (hR (.error e) s' h)
  | (.error (.fault _), _) =>
      rw [hm] at h
      exact h.elim
  | (.error .outOfFuel, _) => exact ends_of_outOfFuel (Run.discard_of_error hm)

/-- A run that is not cut short ends as foreseen. -/
theorem Ends.outcome {m : Run S ε α} {s s' : S} {r : Except (Halt ε) α}
    {Q : Except ε α → S → Prop} (h : Ends m s Q) (hm : m s = (r, s')) (hr : r ≠ .error .outOfFuel) :
    (∃ a, r = .ok a ∧ Q (.ok a) s') ∨ ∃ e, r = .error (.failed e) ∧ Q (.error e) s' := by
  rw [Ends, hm] at h
  match r with
  | .ok a => exact Or.inl ⟨a, rfl, h⟩
  | .error (.failed e) => exact Or.inr ⟨e, rfl, h⟩
  | .error (.fault _) => exact h.elim
  | .error .outOfFuel => exact absurd rfl hr

end Runs

/-! ## Windows and parsers over an input -/

/-- A stream with all it has to say: ordinary tokens with the end of the input behind them. -/
structure Input (σ κ : Type) [TokenStream σ κ] [DecidableEq κ] [TokenKind κ] where
  script : Script κ
  stream : σ
  last : Token κ
  spoken : script.SpokenBy stream
  ending : script.ending = .ok last

namespace Input

variable [TokenStream σ κ] [DecidableEq κ] [TokenKind κ]

/-- The answers of the stream up to the end of the input. -/
def tokens (i : Input σ κ) : List (Token κ) := i.script.tokens ++ [i.last]

/-- The window that has let in `size` tokens and none out, in the middle of a fill. -/
def filling (i : Input σ κ) (size cursor peak : Nat) : Window σ κ where
  stream := TokenStream.after i.stream size
  tokens := (i.tokens.take size).toArray
  cursor := cursor
  retired := 0
  eof := if i.script.length < size then some i.last else none
  pulled := size
  peak := peak

/-- The window that has let in `size` tokens and none out. -/
def window (i : Input σ κ) (size cursor : Nat) : Window σ κ := i.filling size cursor size

/-- The parser with such a window. -/
def seat (i : Input σ κ) (p : Parser σ κ) (size cursor : Nat) : Parser σ κ :=
  { p with window := i.window size cursor }

variable {i : Input σ κ} {p : Parser σ κ} {s c : Nat}

/-- With the end of the input there is one answer more than ordinary tokens. -/
theorem length_tokens (i : Input σ κ) : i.tokens.length = i.script.length + 1 := List.length_append

/-- The answers are the tokens, in order. -/
theorem getElem?_tokens {n : Nat} {t : Token κ} (hn : n ≤ i.script.length)
    (h : i.script.answer n = .ok t) : i.tokens[n]? = some t := by
  rcases Nat.lt_or_eq_of_le hn with hlt | rfl
  · rw [Script.answer_of_lt hlt] at h
    rw [tokens, List.getElem?_append_left hlt, List.getElem?_eq_getElem hlt, Except.ok.inj h]
  · rw [Script.answer_of_le (Nat.le_refl _), i.ending] at h
    rw [tokens, Script.length, List.getElem?_concat_length, Except.ok.inj h]

/-- What has been let in is held, for none has been let out. -/
theorem size_filling {peak : Nat} (hs : s ≤ i.script.length + 1) :
    (i.filling s c peak).size = s := by
  rw [Window.size, filling, List.size_toArray, List.length_take, length_tokens]
  exact Nat.min_eq_left hs

/-- A pull lets in the next answer. -/
theorem pull_filling (c peak : Nat) (hs : s ≤ i.script.length) :
    Window.pull (i.filling s c peak) = (.ok (), i.filling (s + 1) c peak) := by
  obtain ⟨t, ht⟩ := Script.exists_answer i.ending s
  have hnext : TokenStream.next (TokenStream.after i.stream s) =
      (.ok t, TokenStream.after i.stream (s + 1)) := Prod.ext ((i.spoken s hs).trans ht) rfl
  -- the token is an end of input exactly where the script has come to its last one
  have heof : (if t.isEof then some t else none) =
      if i.script.length < s + 1 then some i.last else none := by
    rcases Nat.lt_or_eq_of_le hs with hlt | rfl
    · rw [Script.answer_of_lt hlt] at ht
      have hord := i.script.ordinary t (Except.ok.inj ht ▸ List.getElem_mem hlt)
      rw [hord, if_neg Bool.false_ne_true, if_neg (by omega)]
    · rw [Script.answer_of_le (Nat.le_refl _), i.ending] at ht
      obtain rfl := Except.ok.inj ht
      rw [if_pos (i.script.final _ i.ending), if_pos (Nat.lt_succ_self _)]
  have htokens : (i.tokens.take s).toArray.push t = (i.tokens.take (s + 1)).toArray := by
    rw [List.push_toArray, List.take_add_one, getElem?_tokens hs ht]
    rfl
  rw [Window.pull, filling]
  dsimp only
  rw [if_neg (by omega), hnext]
  dsimp only
  rw [htokens, heof, filling]

/-- And as many pulls as many answers. -/
theorem pullMany_filling (c peak count : Nat) (hs : s + count ≤ i.script.length + 1) :
    Window.pullMany count (i.filling s c peak) = (.ok (), i.filling (s + count) c peak) := by
  induction count generalizing s with
  | zero => rfl
  | succ count ih =>
      rw [Window.pullMany, Run.bind_of_ok (pull_filling c peak (by omega)), ih (by omega),
        Nat.add_right_comm, Nat.add_assoc]

/-- A fill lets in what is missing, and notes the new size as the peak. -/
theorem fill_window (hs : s ≤ i.script.length + 1) {count : Nat}
    (hcount : c + count ≤ i.script.length + 1) :
    Window.fill count (i.window s c) = (.ok (), i.window (max s (c + count)) c) := by
  have hread : (i.window s c).cursor + count - (i.window s c).size = c + count - s := by
    rw [window, size_filling hs]
    rfl
  have hmax : s + (c + count - s) = max s (c + count) := by omega
  have hpull : Window.pullMany (c + count - s) (i.window s c) =
      (.ok (), i.filling (max s (c + count)) c s) := by
    rw [← hmax]
    exact pullMany_filling c s (c + count - s) (by omega)
  rw [Window.fill, Run.read_bind, hread, Run.bind_of_ok hpull, Run.update_apply,
    size_filling (by omega), window]
  show (_, i.filling _ c (max s (max s (c + count)))) = _
  rw [Nat.max_eq_right (Nat.le_max_left _ _)]

/-- A look lets in the tokens up to the one it wants, and leaves the cursor. -/
theorem peek_window (hs : s ≤ i.script.length + 1) {depth : Nat} (hdepth : 2 * depth < wordLimit)
    (hc : c + depth ≤ i.script.length) {t : Token κ} (ht : i.script.answer (c + depth) = .ok t) :
    Window.peek depth (i.window s c) = (.ok t, i.window (max s (c + depth + 1)) c) := by
  have hover : (i.window s c).overflowsAt depth = false := by
    rw [Window.overflowsAt, decide_eq_false]
    omega
  have hheld : (i.window (max s (c + depth + 1)) c).tokens[
      (i.window (max s (c + depth + 1)) c).cursor + depth]? = some t := by
    show (i.window (max s (c + depth + 1)) c).tokens[c + depth]? = some t
    rw [window, filling, List.getElem?_toArray, List.getElem?_take_of_lt (by omega),
      getElem?_tokens hc ht]
  rw [Window.peek, Run.read_bind, hover, if_neg Bool.false_ne_true,
    Run.bind_of_ok (fill_window hs (Nat.succ_le_succ hc)), ← Nat.add_assoc, Run.read_bind, hheld]
  rfl

/-- A step lets in the current token if it has to, and moves the cursor. -/
theorem advance_window (hs : s ≤ i.script.length + 1) (hc : c ≤ i.script.length) :
    Window.advance (i.window s c) = (.ok (), i.window (max s (c + 1)) (c + 1)) := by
  rw [Window.advance, Run.bind_of_ok (fill_window hs (Nat.succ_le_succ hc))]
  rfl

/-! ## Parsers with such a window -/

/-- In a parser the kind at a depth is that of the script, from the cursor on. -/
theorem peekKind_seat (hs : s ≤ i.script.length + 1) {depth : Nat} (hdepth : 2 * depth < wordLimit)
    (hc : c + depth ≤ i.script.length) {k : κ} (hk : i.script.kindAt? (c + depth) = some k) :
    Parser.peekKind depth (i.seat p s c) = (.ok k, i.seat p (max s (c + depth + 1)) c) := by
  obtain ⟨t, ht, rfl⟩ := Script.answer_of_kindAt? hk
  exact Run.bind_of_ok (Parser.onWindow_ok (p := i.seat p s c) (peek_window hs hdepth hc ht))

/-- A check compares the kind of the current token, which has been let in by then. -/
theorem check_seat (hs : s ≤ i.script.length + 1) (hc : c ≤ i.script.length) {k : κ}
    (hk : i.script.kindAt? c = some k) (k' : κ) :
    Parser.check k' (i.seat p s c) = (.ok (decide (k = k')), i.seat p (max s (c + 1)) c) :=
  Run.bind_of_ok (peekKind_seat hs (show 2 * 0 < wordLimit by decide) hc hk)

/-- A window that is kept: someone may come back, or more than the next token is held. -/
theorem advance_seat (hs : s ≤ i.script.length + 1) (hc : c ≤ i.script.length)
    (hkept : p.isSpeculating = true ∨ c + 1 < s) :
    Parser.advance (i.seat p s c) = (.ok (), i.seat p (max s (c + 1)) (c + 1)) := by
  have hsize : (i.seat p (max s (c + 1)) (c + 1)).window.size = max s (c + 1) :=
    size_filling (by omega)
  -- no token is let go, for a mark is set or another token is held behind the cursor
  have hstays : ((i.seat p (max s (c + 1)) (c + 1)).window.isDrained &&
      !(i.seat p (max s (c + 1)) (c + 1)).isSpeculating) = false := by
    rcases hkept with hspec | hmore
    · rw [show (i.seat p (max s (c + 1)) (c + 1)).isSpeculating = true from hspec, Bool.not_true,
        Bool.and_false]
    · rw [Window.isDrained, hsize, Bool.and_eq_false_iff]
      left
      rw [beq_eq_false_iff_ne]
      show c + 1 ≠ max s (c + 1)
      omega
  rw [Parser.advance, Run.bind_of_ok
    (Parser.onWindow_ok (p := i.seat p s c) (advance_window hs hc)), Run.update_apply]
  show (Except.ok (), if ((i.seat p (max s (c + 1)) (c + 1)).window.isDrained &&
    !(i.seat p (max s (c + 1)) (c + 1)).isSpeculating) = true then _ else _) = _
  rw [hstays, if_neg Bool.false_ne_true]
  rfl

/-- A window that is let go: no one comes back, and the last token that is held is passed. -/
theorem advance_seat_last (hs : s ≤ i.script.length + 1) (hc : s = c + 1)
    (hfree : p.isSpeculating = false) :
    Parser.advance (i.seat p s c) = (.ok (), (i.seat p s s).truncate) := by
  subst hc
  have hsize : (i.seat p (c + 1) (c + 1)).window.size = c + 1 := size_filling hs
  have hleaves : ((i.seat p (c + 1) (c + 1)).window.isDrained &&
      !(i.seat p (c + 1) (c + 1)).isSpeculating) = true := by
    rw [Window.isDrained, hsize, show (i.seat p (c + 1) (c + 1)).isSpeculating = false from hfree]
    exact Bool.and_eq_true_iff.mpr ⟨beq_iff_eq.mpr rfl, rfl⟩
  rw [Parser.advance, Run.bind_of_ok (Parser.onWindow_ok (p := i.seat p (c + 1) c)
    (advance_window hs (by omega))), Run.update_apply, Nat.max_self]
  show (Except.ok (), if ((i.seat p (c + 1) (c + 1)).window.isDrained &&
    !(i.seat p (c + 1) (c + 1)).isSpeculating) = true then _ else _) = _
  rw [if_pos hleaves]
  rfl

/-- An expected token that is there is stepped over, and the window is kept. -/
theorem expect_seat (hs : s ≤ i.script.length + 1) (hc : c ≤ i.script.length) {k : κ}
    (hk : i.script.kindAt? c = some k) (hkept : p.isSpeculating = true ∨ c + 1 < s) :
    Parser.expect k (i.seat p s c) = (.ok (), i.seat p (max s (c + 1)) (c + 1)) := by
  rw [Parser.expect, Run.bind_of_ok (check_seat hs hc hk k), decide_eq_true rfl, if_pos rfl,
    advance_seat (by omega) hc (hkept.imp_right (by omega)), Nat.max_assoc, Nat.max_self]

/-- Or it is the last token held, no one comes back, and the window is let go. -/
theorem expect_seat_last (hs : s ≤ i.script.length + 1) (hc : s = c + 1) {k : κ}
    (hk : i.script.kindAt? c = some k) (hfree : p.isSpeculating = false) :
    Parser.expect k (i.seat p s c) = (.ok (), (i.seat p s s).truncate) := by
  rw [Parser.expect, Run.bind_of_ok (check_seat hs (by omega) hk k), decide_eq_true rfl,
    if_pos rfl, Nat.max_eq_left (by omega), advance_seat_last hs hc hfree]

/-- At a token of another kind there is a mismatch, and the cursor stays. -/
theorem expect_seat_mismatch (hs : s ≤ i.script.length + 1) (hc : c ≤ i.script.length) {k k' : κ}
    (hk : i.script.kindAt? c = some k) (hne : k ≠ k') :
    ∃ seen, Parser.expect k' (i.seat p s c) =
      (.error (.failed (.mismatch k' seen)), i.seat p (max s (c + 1)) c) := by
  obtain ⟨t, ht, -⟩ := Script.answer_of_kindAt? hk
  have hpeek : Parser.peek 0 (i.seat p (max s (c + 1)) c) =
      (.ok t, i.seat p (max s (c + 1)) c) := by
    have hwindow := peek_window (i := i) (s := max s (c + 1)) (c := c) (by omega)
      (show 2 * 0 < wordLimit by decide) hc ht
    rw [Nat.max_assoc, Nat.max_self] at hwindow
    exact Parser.onWindow_ok (p := i.seat p (max s (c + 1)) c) hwindow
  refine ⟨.ofToken (i.seat p (max s (c + 1)) c).absolute t, ?_⟩
  rw [Parser.expect, Run.bind_of_ok (check_seat hs hc hk k'), decide_eq_false hne,
    if_neg Bool.false_ne_true, Parser.sight, bind_assoc, Run.bind_of_ok hpeek, Run.read_bind]
  rfl

/-- From `size` and `cursor` on, `m` comes to a value, with `P` for the numbers and the memo table
    that it leaves. -/
def Gets (i : Input σ κ) (m : Parsing σ κ α) (p : Parser σ κ) (size cursor : Nat)
    (P : Nat → Nat → Memo → Prop) : Prop :=
  Ends m (i.seat p size cursor) fun r q => (∃ v, r = .ok v) ∧
    ∃ size' cursor' memo, q = i.seat { p with memo } size' cursor' ∧ P size' cursor' memo

/-- The same with a mismatch in the place of the value. -/
def Misses (i : Input σ κ) (m : Parsing σ κ α) (p : Parser σ κ) (size cursor : Nat)
    (P : Nat → Nat → Memo → Prop) : Prop :=
  Ends m (i.seat p size cursor) fun r q => (∃ k seen, r = .error (.mismatch k seen)) ∧
    ∃ size' cursor' memo, q = i.seat { p with memo } size' cursor' ∧ P size' cursor' memo

variable {m : Parsing σ κ α} {f : α → Parsing σ κ β} {P R : Nat → Nat → Memo → Prop}

/-- One step that ends with the numbers that are wanted gets there. -/
theorem Gets.of_eq {v : α} {s' c' : Nat} (h : m (i.seat p s c) = (.ok v, i.seat p s' c'))
    (hP : P s' c' p.memo) : i.Gets m p s c P :=
  ends_of_ok h ⟨⟨v, rfl⟩, s', c', p.memo, rfl, hP⟩

/-- A run that is cut short has nothing to get to. -/
theorem Gets.outOfFuel : i.Gets (Run.halt .outOfFuel : Parsing σ κ α) p s c P :=
  ends_of_outOfFuel rfl

/-- What holds of the numbers may be said more loosely. -/
theorem Gets.mono (h : i.Gets m p s c P) (hP : ∀ s' c' memo, P s' c' memo → R s' c' memo) :
    i.Gets m p s c R := by
  refine Ends.mono h ?_
  rintro r q ⟨hr, s', c', memo, rfl, hp⟩
  exact ⟨hr, s', c', memo, rfl, hP _ _ _ hp⟩

/-- From where the first part gets to the second one goes on, with the memo table that it finds. -/
theorem Gets.bind (h : i.Gets m p s c P)
    (hf : ∀ v s' c' memo, P s' c' memo → i.Gets (f v) { p with memo } s' c' R) :
    i.Gets (m >>= f) p s c R := by
  refine Ends.bind h ?_
  rintro r q ⟨⟨v, rfl⟩, s', c', memo, rfl, hp⟩
  exact ⟨v, rfl, hf v s' c' memo hp⟩

/-- The second part may also come to a mismatch. -/
theorem Gets.bind_misses (h : i.Gets m p s c P)
    (hf : ∀ v s' c' memo, P s' c' memo → i.Misses (f v) { p with memo } s' c' R) :
    i.Misses (m >>= f) p s c R := by
  refine Ends.bind h ?_
  rintro r q ⟨⟨v, rfl⟩, s', c', memo, rfl, hp⟩
  exact ⟨v, rfl, hf v s' c' memo hp⟩

/-- After a step that only lets tokens in the run goes on from there. -/
theorem Gets.of_step {v : α} {s' c' : Nat} (h : m (i.seat p s c) = (.ok v, i.seat p s' c'))
    (hf : i.Gets (f v) p s' c' R) : i.Gets (m >>= f) p s c R :=
  Ends.of_step h hf

/-- It does not matter for the numbers whether the value is kept. -/
theorem Gets.discard (h : i.Gets m p s c P) :
    i.Gets (Functor.discard m : Parsing σ κ PUnit) p s c P := by
  refine Ends.discard h ?_
  rintro r q ⟨⟨v, rfl⟩, hq⟩
  exact ⟨⟨_, rfl⟩, hq⟩

/-- Nor does it matter for a mismatch. -/
theorem Misses.discard (h : i.Misses m p s c P) :
    i.Misses (Functor.discard m : Parsing σ κ PUnit) p s c P := by
  refine Ends.discard h ?_
  rintro r q ⟨⟨k, seen, rfl⟩, hq⟩
  exact ⟨⟨k, seen, rfl⟩, hq⟩

/-! ### Speculation -/

theorem release_seat {memo : Memo} {s' c' : Nat} (hc : c ≤ s') (hs : s' ≤ i.script.length + 1) :
    Parser.release true (i.seat { p with marks := p.marks.push c, memo } s' c') =
      (.ok (), i.seat { p with memo } s' c) := by
  have hsize : (i.window s' c').size = s' := size_filling hs
  exact Parser.onWindow_ok (p := i.seat { p with memo } s' c')
    (Window.seek_of_le (hsize.symm ▸ hc))

/-- A try that matches. -/
theorem Gets.speculate {rule : Parsing σ κ Unit}
    (h : i.Gets rule { p with marks := p.marks.push c } s c P)
    (hP : ∀ s' c' memo, P s' c' memo → c ≤ s' ∧ s' ≤ i.script.length + 1) :
    Ends (Parser.speculate rule) (i.seat p s c) fun r q => r = .ok none ∧
      ∃ s' c' memo, q = i.seat { p with memo } s' c ∧ P s' c' memo := by
  rcases hrun : rule (i.seat p s c).marked with ⟨r, q⟩
  by_cases hr : r = .error .outOfFuel
  · subst hr
    exact ends_of_outOfFuel (Parser.speculate_of_outOfFuel hrun)
  · rcases Ends.outcome h hrun hr with ⟨_, rfl, -, s', c', memo, rfl, hp⟩ |
      ⟨_, rfl, ⟨_, hok⟩, -⟩
    · obtain ⟨hc, hs⟩ := hP s' c' memo hp
      exact ends_of_ok (Parser.speculate_of_settled hrun rfl (release_seat hc hs))
        ⟨rfl, s', c', memo, rfl, hp⟩
    · exact nomatch hok

/-- A try that does not. -/
theorem Misses.speculate {rule : Parsing σ κ Unit}
    (h : i.Misses rule { p with marks := p.marks.push c } s c P)
    (hP : ∀ s' c' memo, P s' c' memo → c ≤ s' ∧ s' ≤ i.script.length + 1) :
    Ends (Parser.speculate rule) (i.seat p s c) fun r q => (∃ e, r = .ok (some e)) ∧
      ∃ s' c' memo, q = i.seat { p with memo } s' c ∧ P s' c' memo := by
  rcases hrun : rule (i.seat p s c).marked with ⟨r, q⟩
  by_cases hr : r = .error .outOfFuel
  · subst hr
    exact ends_of_outOfFuel (Parser.speculate_of_outOfFuel hrun)
  · rcases Ends.outcome h hrun hr with ⟨_, rfl, ⟨_, _, hfailed⟩, -⟩ |
      ⟨_, rfl, ⟨k, seen, he⟩, s', c', memo, rfl, hp⟩
    · exact nomatch hfailed
    · obtain rfl := Except.error.inj he
      obtain ⟨hc, hs⟩ := hP s' c' memo hp
      exact ends_of_ok (Parser.speculate_of_settled hrun rfl (release_seat hc hs))
        ⟨⟨_, rfl⟩, s', c', memo, rfl, hp⟩

/-! ### Memoization -/

/-- Without a memo table a memoized rule is its body. -/
theorem Gets.memoize_off {name : String} {body : Parsing σ κ Unit}
    (hoff : p.options.memoize = false) (h : i.Gets body p s c P) :
    i.Gets (Parser.memoize name body) p s c P := by
  rw [Gets, Ends, Parser.memoize_of_off (p := i.seat p s c) hoff]
  exact h

/-- A question that is answered is counted as a hit. -/
theorem asked_seat_hit {name : String} {span : Span} (s : Nat)
    (h : p.memo.find? name c = some span) : (i.seat p s c).asked name =
      i.seat { p with memo := { p.memo with hits := p.memo.hits + 1 } } s c := by
  have hlookup : p.memo.lookup name c =
      (some span, { p.memo with hits := p.memo.hits + 1 }) := by
    rw [Memo.lookup, h]
  rw [Parser.asked, show (i.seat p s c).absolute = c from Nat.zero_add c,
    show (i.seat p s c).memo = p.memo from rfl, hlookup]
  rfl

/-- And one that is not is counted as a miss. -/
theorem asked_seat_miss {name : String} (s : Nat) (h : p.memo.find? name c = none) :
    (i.seat p s c).asked name =
      i.seat { p with memo := { p.memo with misses := p.memo.misses + 1 } } s c := by
  have hlookup : p.memo.lookup name c =
      (none, { p.memo with misses := p.memo.misses + 1 }) := by
    rw [Memo.lookup, h]
  rw [Parser.asked, show (i.seat p s c).absolute = c from Nat.zero_add c,
    show (i.seat p s c).memo = p.memo from rfl, hlookup]
  rfl

/-- A hit leads to the end of the span, which is held. -/
theorem memoize_seat_hit {name : String} {body : Parsing σ κ Unit} {stop : Nat}
    (hon : p.options.memoize = true) (hfind : p.memo.find? name c = some ⟨c, stop⟩)
    (hstop : stop ≤ s) (hs : s ≤ i.script.length + 1) :
    Parser.memoize name body (i.seat p s c) =
      (.ok (), i.seat { p with memo := { p.memo with hits := p.memo.hits + 1 } } s stop) := by
  have hsize : (i.window s c).size = s := size_filling hs
  have hconsult := Parser.consult_apply name (i.seat p s c)
  rw [show (i.seat p s c).absolute = c from Nat.zero_add c,
    show (i.seat p s c).memo = p.memo from rfl, hfind, asked_seat_hit s hfind] at hconsult
  rw [Parser.memoize, Run.read_bind, show (i.seat p s c).options.memoize = true from hon,
    if_pos rfl, Run.bind_of_ok hconsult]
  show Parser.jump ⟨c, stop⟩ _ = _
  rw [Parser.jump, Run.read_bind]
  exact (congrFun (if_pos rfl) _).trans (Parser.onWindow_ok
    (p := i.seat { p with memo := { p.memo with hits := p.memo.hits + 1 } } s c)
    (Window.seek_of_le (hsize.symm ▸ hstop)))

/-- A body that has led from `start` to the cursor is recorded as that span. -/
theorem record_seat (name : String) (s : Nat) {start : Nat} (h : start ≤ c) :
    Parser.record name start start (i.seat p s c) =
      (.ok (), i.seat { p with memo := p.memo.store name start ⟨start, c⟩ } s c) := by
  have hspan : Span.of? start (i.seat p s c).window.cursor = some ⟨start, c⟩ := if_pos h
  have hheld : (i.seat p s c).window.retired ≤ start := Nat.zero_le start
  rw [Parser.record, if_pos hheld, hspan]
  rfl

/-- A rule that is not known to match here is run, and its success is recorded. -/
theorem Gets.memoize_miss {name : String} {body : Parsing σ κ Unit}
    (hon : p.options.memoize = true) (hfind : p.memo.find? name c = none)
    (h : i.Gets body { p with memo := { p.memo with misses := p.memo.misses + 1 } } s c P)
    (hP : ∀ s' c' memo, P s' c' memo → c ≤ c') :
    i.Gets (Parser.memoize name body) p s c fun s' c' memo =>
      ∃ memo', memo = memo'.store name c ⟨c, c'⟩ ∧ P s' c' memo' := by
  have habsolute : (i.seat p s c).absolute = c := Nat.zero_add c
  -- the miss is counted before the body runs, so the body meets the counter already raised
  have hmiss : Parser.memoize name body (i.seat p s c) = Parser.runAndRecord name body
      (i.seat { p with memo := { p.memo with misses := p.memo.misses + 1 } } s c) := by
    rw [Parser.memoize_of_miss (p := i.seat p s c) hon (habsolute.symm ▸ hfind),
      asked_seat_miss s hfind]
  have hrecord : i.Gets (Parser.runAndRecord name body)
      { p with memo := { p.memo with misses := p.memo.misses + 1 } } s c fun s' c' memo =>
        ∃ memo', memo = memo'.store name c ⟨c, c'⟩ ∧ P s' c' memo' := by
    refine Gets.of_step (Run.read_apply _ _) (Gets.of_step (Run.read_apply _ _) (h.bind ?_))
    intro _ s' c' memo hp
    refine ends_of_ok (a := ()) ?_
      ⟨⟨(), rfl⟩, s', c', memo.store name c ⟨c, c'⟩, rfl, memo, rfl, hp⟩
    show Parser.record name (0 + c) c (i.seat { p with memo } s' c') = _
    rw [Nat.zero_add]
    exact record_seat name s' (hP s' c' memo hp)
  rw [Gets, Ends, hmiss]
  exact hrecord

end Input

end Packrat
