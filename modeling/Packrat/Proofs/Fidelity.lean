import Packrat.CharStream
import Packrat.Proofs.Layout
import Packrat.Proofs.Script

/-! # The window is faithful to the stream

    What a stream has to say is said without a window: the tokens among its answers,
    in the order of the calls, up to the first end of the input, and that token for
    ever after.  `TokenStream.HasAt source j t` says that `t` stands at position `j`
    of it.

    A window can be looked into, moved on, truncated and moved back in any order,
    and any of the looks may fail in the middle of a fill.  `Window.Faithful` is
    what all of that leaves alone: the tokens held are the stream's from `retired`
    on, and the calls made are accounted for, one by one, by tokens and by
    complaints.  It is proved for a single pull and carried from there to an
    operation and to a run of operations. -/

namespace Packrat

variable {σ κ : Type}

/-! ## What a stream has to say -/

namespace TokenStream

section Produced

variable [TokenStream σ κ]

/-- The tokens among the first `n` answers, in the order of the calls. -/
def produced (source : σ) (n : Nat) : List (Token κ) :=
  (List.range n).filterMap fun i => (answer source i).toOption

/-- One more call gives one more token or none. -/
theorem produced_succ (source : σ) (n : Nat) :
    produced source (n + 1) = produced source n ++ (answer source n).toOption.toList := by
  rw [produced, List.range_succ, List.filterMap_append]
  cases h : answer source n with
  | error e => rw [List.filterMap_cons_none (by rw [h]; rfl)]; rfl
  | ok t => rw [List.filterMap_cons_some (by rw [h]; rfl)]; rfl

/-- A call that is answered with a token adds it. -/
theorem produced_succ_of_ok {source : σ} {n : Nat} {t : Token κ} (h : answer source n = .ok t) :
    produced source (n + 1) = produced source n ++ [t] := by
  rw [produced_succ, h]
  rfl

/-- A call that fails adds nothing. -/
theorem produced_succ_of_error {source : σ} {n : Nat} {e : LexError}
    (h : answer source n = .error e) : produced source (n + 1) = produced source n := by
  rw [produced_succ, h]
  exact List.append_nil _

/-- What has been produced are the answers that were tokens. -/
theorem mem_produced {source : σ} {n : Nat} {t : Token κ} :
    t ∈ produced source n ↔ ∃ i < n, answer source i = .ok t := by
  rw [produced, List.mem_filterMap]
  constructor
  · rintro ⟨i, hi, ht⟩
    refine ⟨i, List.mem_range.mp hi, ?_⟩
    cases h : answer source i with
    | error e =>
        rw [h] at ht
        exact nomatch ht
    | ok k =>
        rw [h] at ht
        exact congrArg Except.ok (Option.some.inj ht)
  · rintro ⟨i, hi, ht⟩
    refine ⟨i, List.mem_range.mpr hi, ?_⟩
    rw [ht]
    rfl

/-- Earlier calls are the first ones of a longer run, so the tokens of fewer calls come first among
    those of more. -/
theorem produced_isPrefix (source : σ) {n m : Nat} (h : n ≤ m) :
    produced source n <+: produced source m := by
  induction h with
  | refl => exact List.prefix_rfl
  | step _ ih =>
      rw [produced_succ]
      exact ih.trans (List.prefix_append _ _)

end Produced

variable [DecidableEq κ] [TokenKind κ]

/-- The token at position `j`, as far as the first tokens of a stream tell: the first end of the
    input stands at every position behind it, too. -/
def tokenAt? (tokens : List (Token κ)) (j : Nat) : Option (Token κ) :=
  tokens[min j (tokens.findIdx Token.isEof)]?

/-- More tokens do not change what is known. -/
theorem tokenAt?_of_isPrefix {l l' : List (Token κ)} (h : l <+: l') {j : Nat} {t : Token κ}
    (ht : tokenAt? l j = some t) : tokenAt? l' j = some t := by
  obtain ⟨rest, rfl⟩ := h
  obtain ⟨hlt, -⟩ := List.getElem?_eq_some_iff.mp ht
  have hsame : min j ((l ++ rest).findIdx Token.isEof) = min j (l.findIdx Token.isEof) := by
    rw [List.findIdx_append]
    split
    · rfl
    · -- no end of the input so far, and `j` is not behind the tokens known
      have hle : l.findIdx Token.isEof ≤ l.length := List.findIdx_le_length
      omega
  rw [tokenAt?, hsame, List.getElem?_append_left hlt]
  exact ht

/-- Without an end of the input the next token stands behind those known. -/
theorem tokenAt?_concat {l : List (Token κ)} (h : l.find? Token.isEof = none) (t : Token κ) :
    tokenAt? (l ++ [t]) l.length = some t := by
  have hidx : l.findIdx Token.isEof = l.length :=
    List.findIdx_eq_length.mpr (by simpa using h)
  have hle : l.length ≤ (l ++ [t]).findIdx Token.isEof := by
    rw [List.findIdx_append, hidx, if_neg (Nat.lt_irrefl _)]
    exact Nat.le_add_left _ _
  rw [tokenAt?, Nat.min_eq_left hle, List.getElem?_concat_length]

/-- Behind the end of the input there is nothing but the end of the input. -/
theorem tokenAt?_behind {l : List (Token κ)} {t : Token κ} (h : l.find? Token.isEof = some t)
    {j : Nat} (hj : l.length ≤ j) : tokenAt? l j = some t := by
  have hle : l.findIdx Token.isEof ≤ l.length := List.findIdx_le_length
  rw [tokenAt?, Nat.min_eq_right (Nat.le_trans hle hj), ← List.find?_eq_getElem?_findIdx, h]

variable [TokenStream σ κ]

/-- The end of the input has not been answered yet. -/
theorem find?_produced_eq_none {source : σ} {n : Nat} :
    (produced source n).find? Token.isEof = none ↔
      ∀ i t, i < n → answer source i = .ok t → t.isEof = false := by
  rw [List.find?_eq_none]
  constructor
  · intro h i t hi ht
    exact Bool.eq_false_iff.mpr (h t (mem_produced.mpr ⟨i, hi, ht⟩))
  · intro h t ht
    obtain ⟨i, hi, hanswer⟩ := mem_produced.mp ht
    exact Bool.eq_false_iff.mp (h i t hi hanswer)

/-- The token `t` stands at position `j` of the stream. -/
def HasAt (source : σ) (j : Nat) (t : Token κ) : Prop :=
  ∃ n, tokenAt? (produced source n) j = some t

/-- There is one token at most at a position. -/
theorem HasAt.unique {source : σ} {j : Nat} {t t' : Token κ} (h : HasAt source j t)
    (h' : HasAt source j t') : t = t' := by
  obtain ⟨n, hn⟩ := h
  obtain ⟨m, hm⟩ := h'
  have hn' := tokenAt?_of_isPrefix (produced_isPrefix source (Nat.le_max_left n m)) hn
  have hm' := tokenAt?_of_isPrefix (produced_isPrefix source (Nat.le_max_right n m)) hm
  exact Option.some.inj (hn'.symm.trans hm')

end TokenStream

/-! ## Runs of operations on a window -/

namespace Window

/-- What can be done with a window. -/
inductive Op where
  | peek (depth : Nat)
  | advance
  | truncate
  | seek (index : Nat)
deriving DecidableEq, Repr

variable [TokenStream σ κ] [DecidableEq κ] [TokenKind κ]

/-- Does it.  A look yields the token seen. -/
def Op.run : Op → Run (Window σ κ) LexError (Option (Token κ))
  | .peek depth => do return some (← Window.peek depth)
  | .advance => do
      Window.advance
      return none
  | .truncate => do
      Run.update Window.truncate
      return none
  | .seek index => do
      Window.seek index
      return none

/-- The window is reached from a new one on `source` by operations none of which broke a rule of
    use, and `complaints` of them ended with a lexical error. -/
inductive Reached (source : σ) : (complaints : Nat) → Window (Metered σ) κ → Prop
  | start : Reached source 0 (.new (.new source))
  | went {n : Nat} {w : Window (Metered σ) κ} (op : Op) (hw : Reached source n w)
      (hok : (op.run w).1.isOk = true) : Reached source n (op.run w).2
  | complained {n : Nat} {w : Window (Metered σ) κ} (op : Op) (hw : Reached source n w)
      {e : LexError} (he : (op.run w).1 = .error (.failed e)) : Reached source (n + 1) (op.run w).2

open TokenStream

/-- The window holds what the stream shows, and the calls made are accounted for. -/
structure Faithful (source : σ) (complaints : Nat) (w : Window (Metered σ) κ) : Prop where
  stream : w.stream.stream = after source w.stream.calls
  calls : w.stream.calls = w.pulled + complaints
  pulled : w.pulled = (produced source w.stream.calls).length
  last : ∀ i t, i + 1 < w.stream.calls → answer source i = .ok t → t.isEof = false
  eof : w.eof = (produced source w.stream.calls).find? Token.isEof
  held : ∀ i t, w.tokens[i]? = some t →
    tokenAt? (produced source w.stream.calls) (w.retired + i) = some t
  covered : w.pulled ≤ w.retired + w.size
  fresh : w.eof = none → w.pulled = w.retired + w.size
  cursor_le : w.cursor ≤ w.size

/-- A computation leaves a faithful window behind, with one more complaint if it ends with one. -/
def EndsFaithful {α : Type} (source : σ) (complaints : Nat) :
    Except (Halt LexError) α × Window (Metered σ) κ → Prop
  | (.ok _, w) => w.Faithful source complaints
  | (.error (.failed _), w) => w.Faithful source (complaints + 1)
  | (.error (.fault _), _) => True
  | (.error .outOfFuel, _) => True

variable {source : σ} {n : Nat} {w : Window (Metered σ) κ}

/-- The second part starts from a faithful window, if it starts at all. -/
theorem EndsFaithful.bind {α β : Type} {m : Run (Window (Metered σ) κ) LexError α}
    {f : α → Run (Window (Metered σ) κ) LexError β} (hm : EndsFaithful source n (m w))
    (hf : ∀ a w', m w = (.ok a, w') → w'.Faithful source n → EndsFaithful source n (f a w')) :
    EndsFaithful source n ((m >>= f) w) := by
  match h : m w with
  | (.ok a, w') =>
      rw [h] at hm
      rw [Run.bind_of_ok h]
      exact hf a w' h hm
  | (.error (.failed _), _) | (.error (.fault _), _) | (.error .outOfFuel, _) =>
      rw [h] at hm
      rw [Run.bind_of_error h]
      exact hm

/-- A new window has asked for nothing and holds nothing. -/
theorem faithful_new (source : σ) :
    (new (Metered.new source) : Window (Metered σ) κ).Faithful source 0 where
  stream := rfl
  calls := rfl
  pulled := rfl
  last := fun _ _ h => nomatch h
  eof := rfl
  held := fun _ _ h => nomatch h
  covered := Nat.le_refl _
  fresh := fun _ => rfl
  cursor_le := Nat.le_refl _

/-- One more token at the far end. -/
theorem held_push {l l' : List (Token κ)} {tokens : Array (Token κ)} {retired : Nat} {t : Token κ}
    (h : ∀ i k, tokens[i]? = some k → tokenAt? l (retired + i) = some k) (hl : l <+: l')
    (ht : tokenAt? l' (retired + tokens.size) = some t) :
    ∀ i k, (tokens.push t)[i]? = some k → tokenAt? l' (retired + i) = some k := by
  intro i k hi
  rw [Array.getElem?_push] at hi
  split at hi
  · next heq =>
      rw [heq, ← Option.some.inj hi]
      exact ht
  · exact tokenAt?_of_isPrefix hl (h i k hi)

/-- Behind the end of the input its token is repeated and the stream left alone. -/
theorem Faithful.repeated (h : w.Faithful source n) {t : Token κ} (heof : w.eof = some t) :
    ({ w with tokens := w.tokens.push t } : Window (Metered σ) κ).Faithful source n where
  stream := h.stream
  calls := h.calls
  pulled := h.pulled
  last := h.last
  eof := h.eof
  held := held_push h.held List.prefix_rfl
    (tokenAt?_behind (h.eof.symm.trans heof) (h.pulled ▸ h.covered))
  covered := by
    have hcovered := h.covered
    show w.pulled ≤ w.retired + (w.tokens.push t).size
    rw [Array.size_push]
    exact Nat.le_succ_of_le hcovered
  fresh := fun hnone => nomatch heof.symm.trans hnone
  cursor_le := by
    show w.cursor ≤ (w.tokens.push t).size
    rw [Array.size_push]
    exact Nat.le_succ_of_le h.cursor_le

/-- A token that the stream answers with is the next one it shows. -/
theorem Faithful.letIn (h : w.Faithful source n) (heof : w.eof = none) {t : Token κ}
    (ht : answer source w.stream.calls = .ok t) :
    ({ w with
        stream := (next w.stream).2
        tokens := w.tokens.push t
        pulled := w.pulled + 1
        eof := if t.isEof then some t else none } : Window (Metered σ) κ).Faithful source n := by
  have hnone := h.eof.symm.trans heof
  have hfresh : w.pulled = w.retired + w.tokens.size := h.fresh heof
  have hproduced := produced_succ_of_ok ht
  constructor
  case stream => exact congrArg (fun s => (next s).2) h.stream
  case calls =>
    have hcalls := h.calls
    show w.stream.calls + 1 = w.pulled + 1 + n
    omega
  case pulled =>
    show w.pulled + 1 = (produced source (w.stream.calls + 1)).length
    rw [hproduced, List.length_append, ← h.pulled]
    rfl
  case last =>
    intro i k hi hk
    exact find?_produced_eq_none.mp hnone i k (Nat.lt_of_succ_lt_succ hi) hk
  case eof =>
    show _ = (produced source (w.stream.calls + 1)).find? Token.isEof
    rw [hproduced, List.find?_append, hnone, Option.none_or, List.find?_singleton]
  case held =>
    show ∀ i k, _ → tokenAt? (produced source (w.stream.calls + 1)) _ = _
    rw [hproduced]
    refine held_push h.held (List.prefix_append _ _) ?_
    rw [← hfresh, h.pulled]
    exact tokenAt?_concat hnone t
  case covered =>
    show w.pulled + 1 ≤ w.retired + (w.tokens.push t).size
    rw [Array.size_push, hfresh]
    exact Nat.le_refl _
  case fresh =>
    intro _
    show w.pulled + 1 = w.retired + (w.tokens.push t).size
    rw [Array.size_push, hfresh]
    rfl
  case cursor_le =>
    show w.cursor ≤ (w.tokens.push t).size
    rw [Array.size_push]
    exact Nat.le_succ_of_le h.cursor_le

/-- A complaint of the stream is one more call, and no token. -/
theorem Faithful.refused (h : w.Faithful source n) (heof : w.eof = none) {e : LexError}
    (he : answer source w.stream.calls = .error e) :
    ({ w with stream := (next w.stream).2 } : Window (Metered σ) κ).Faithful source (n + 1) := by
  have hnone := h.eof.symm.trans heof
  have hproduced := produced_succ_of_error he
  refine { h with stream := ?_, calls := ?_, pulled := ?_, last := ?_, eof := ?_, held := ?_ }
  · exact congrArg (fun s => (next s).2) h.stream
  · exact congrArg (· + 1) h.calls
  · rw [Metered.calls_next, hproduced]
    exact h.pulled
  · intro i k hi hk
    exact find?_produced_eq_none.mp hnone i k (Nat.lt_of_succ_lt_succ hi) hk
  · rw [Metered.calls_next, hproduced]
    exact h.eof
  · rw [Metered.calls_next, hproduced]
    exact h.held

/-- A pull asks the next call, or repeats the end of the input without asking. -/
theorem pull_faithful (h : w.Faithful source n) : EndsFaithful source n (pull w) := by
  have hanswer : (next w.stream).1 = answer source w.stream.calls := by
    rw [answer, ← h.stream]
    rfl
  rw [pull]
  split
  · next t heof => exact h.repeated heof
  · next heof =>
      split
      · next e s hnext =>
          rw [hnext] at hanswer
          have hrefused := h.refused heof hanswer.symm
          rw [hnext] at hrefused
          exact hrefused
      · next t s hnext =>
          rw [hnext] at hanswer
          have hletIn := h.letIn heof hanswer.symm
          rw [hnext] at hletIn
          exact hletIn

/-- Pull after pull the window stays faithful, up to a complaint. -/
theorem pullMany_faithful (count : Nat) (h : w.Faithful source n) :
    EndsFaithful source n (pullMany count w) := by
  induction count generalizing w with
  | zero => exact h
  | succ count ih => exact (pull_faithful h).bind fun _ _ _ hw => ih hw

/-- A fill pulls, and then notes its peak. -/
theorem fill_faithful (count : Nat) (h : w.Faithful source n) :
    EndsFaithful source n (fill count w) := by
  have hread : EndsFaithful source n (Run.read (fun w => w.cursor + count - w.size) w) := h
  refine hread.bind fun missing w₁ _ h₁ => (pullMany_faithful missing h₁).bind fun _ w₂ _ h₂ => ?_
  exact { h₂ with }

/-- A look fills the window; what it shows is held. -/
theorem peek_faithful (depth : Nat) (h : w.Faithful source n) :
    EndsFaithful source n (peek depth w) := by
  have hread : EndsFaithful source n (Run.read (·.overflowsAt depth) w) := h
  refine hread.bind fun overflows w₁ _ h₁ => ?_
  cases overflows with
  | true => trivial
  | false =>
      refine (fill_faithful (depth + 1) h₁).bind fun _ w₂ _ h₂ => ?_
      rw [Run.read_bind]
      cases w₂.tokens[w₂.cursor + depth]? with
      | none => trivial
      | some t => exact h₂

/-- A step fills the window with the current token and passes it. -/
theorem advance_faithful (h : w.Faithful source n) : EndsFaithful source n (advance w) := by
  refine (fill_faithful 1 h).bind fun _ w₁ hfill h₁ => ?_
  -- the fill has let the token in that is passed over
  have hsize : w₁.cursor + 1 ≤ w₁.size := by
    rcases fill_spec 1 w with ⟨w₂, hfill', hgrows, hsize⟩ | ⟨e, w₂, hfill', -⟩
    · obtain rfl : w₁ = w₂ := congrArg Prod.snd (hfill.symm.trans hfill')
      rw [hgrows.cursor]
      exact hsize
    · exact nomatch hfill.symm.trans hfill'
  exact { h₁ with cursor_le := hsize }

/-- What has left the window counts as retired, so that every token keeps its position in the
    stream. -/
theorem Faithful.truncate (h : w.Faithful source n) : w.truncate.Faithful source n := by
  have hle := h.cursor_le
  have htotal : w.absolute + (w.size - w.cursor) = w.retired + w.size := by
    rw [absolute]
    omega
  refine { h with held := ?_, covered := ?_, fresh := ?_, cursor_le := Nat.zero_le _ }
  · intro i t hi
    rw [retired_truncate, absolute, Nat.add_assoc]
    refine h.held (w.cursor + i) t ?_
    have hi' : (w.tokens.extract w.cursor w.tokens.size)[i]? = some t := hi
    rw [Array.getElem?_extract] at hi'
    split at hi'
    · exact hi'
    · cases hi'
  · rw [retired_truncate, size_truncate, htotal]
    exact h.covered
  · rw [retired_truncate, size_truncate, htotal]
    exact h.fresh

/-- What an operation leaves alone. -/
theorem Op.run_faithful (op : Op) (h : w.Faithful source n) :
    EndsFaithful source n (op.run w) := by
  cases op with
  | peek depth => exact (peek_faithful depth h).bind fun _ _ _ hw => hw
  | advance => exact (advance_faithful h).bind fun _ _ _ hw => hw
  | truncate => exact h.truncate
  | seek index =>
      refine EndsFaithful.bind ?_ fun _ _ _ hw => hw
      rcases Nat.lt_or_ge w.size index with hlt | hge
      · rw [seek_of_lt hlt]
        trivial
      · rw [seek_of_le hge]
        exact { h with cursor_le := hge }

/-- So does a run of operations. -/
theorem Reached.faithful (h : Reached source n w) : w.Faithful source n := by
  induction h with
  | start => exact faithful_new source
  | @went n w op _ hok ih =>
      have hstep := op.run_faithful ih
      rcases hr : op.run w with ⟨_ | answer, w'⟩
      · rw [hr] at hok
        exact nomatch hok
      · rw [hr] at hstep
        exact hstep
  | @complained n w op _ e he ih =>
      have hstep := op.run_faithful ih
      rw [show op.run w = (.error (.failed e), (op.run w).2) from Prod.ext he rfl] at hstep
      exact hstep

/-- What is held is what stands at those positions, neither more nor less. -/
theorem Faithful.hasAt (h : w.Faithful source n) (i : Nat) (t : Token κ) :
    w.tokens[i]? = some t ↔ i < w.size ∧ HasAt source (w.retired + i) t := by
  constructor
  · intro hi
    exact ⟨(Array.getElem?_eq_some_iff.mp hi).1, _, h.held i t hi⟩
  · rintro ⟨hlt, ht⟩
    have hi : w.tokens[i]? = some w.tokens[i] := Array.getElem?_eq_getElem hlt
    have hsame : HasAt source (w.retired + i) w.tokens[i] := ⟨_, h.held i _ hi⟩
    rw [hi, hsame.unique ht]

/-- A look that succeeds sees what the stream shows. -/
theorem Faithful.peek_hasAt (h : w.Faithful source n) {depth : Nat} {t : Token κ}
    {w' : Window (Metered σ) κ} (hpeek : peek depth w = (.ok t, w')) (hgrows : w.Grows w')
    (ht : w'.tokens[w.cursor + depth]? = some t) : HasAt source (w.absolute + depth) t := by
  have hw' := peek_faithful depth h
  rw [hpeek] at hw'
  have hhas : HasAt source (w'.retired + (w.cursor + depth)) t := ⟨_, hw'.held _ t ht⟩
  rw [hgrows.retired, ← Nat.add_assoc] at hhas
  exact hhas

/-- Looking ahead does not move the window, whatever comes of it. -/
theorem absolute_peek (depth : Nat) (w : Window σ κ) :
    (peek depth w).2.absolute = w.absolute := by
  rcases peek_spec depth w with ⟨t, w', hpeek, hgrows, -⟩ | ⟨e, w', hpeek, hgrows⟩ | ⟨-, hpeek⟩
  · rw [hpeek]
    exact hgrows.absolute
  · rw [hpeek]
    exact hgrows.absolute
  · rw [hpeek]

/-- Moving on moves by one or fails. -/
theorem absolute_advance (w : Window σ κ) :
    (∃ w', advance w = (.ok (), w') ∧ w'.absolute = w.absolute + 1) ∨
      ∃ e w', advance w = (.error (.failed e), w') ∧ w.Grows w' := by
  rcases advance_spec w with ⟨w₁, hadvance, hgrows, -⟩ | hfailed
  · refine Or.inl ⟨_, hadvance, ?_⟩
    show w₁.retired + (w.cursor + 1) = w.absolute + 1
    rw [hgrows.retired, ← Nat.add_assoc]
    rfl
  · exact Or.inr hfailed

/-- **The window is faithful**: after any run of operations the window holds exactly the tokens that
    the stream shows from `retired` on, with the cursor among or behind them.  The stream is not
    called again after it has answered with the end of the input; until then each token was let in
    once, and every call is accounted for by a token or by a complaint that was handed on.  From
    there a look yields the token that the stream shows, moving on moves by one, and whatever fails
    keeps the tokens and the place. -/
theorem window_faithful (h : Reached source n w) :
    (∀ i t, w.tokens[i]? = some t ↔ i < w.size ∧ HasAt source (w.retired + i) t) ∧
      w.cursor ≤ w.size ∧
      w.stream.stream = after source w.stream.calls ∧
      (∀ i t, answer source i = .ok t → t.isEof = true → w.stream.calls ≤ i + 1) ∧
      ((∀ i t, i < w.stream.calls → answer source i = .ok t → t.isEof = false) →
        w.pulled = w.retired + w.size) ∧
      w.stream.calls = w.pulled + n ∧
      (∀ depth, w.overflowsAt depth = false →
        (∃ t w', peek depth w = (.ok t, w') ∧ HasAt source (w.absolute + depth) t) ∨
          ∃ e w', peek depth w = (.error (.failed e), w') ∧ w.Grows w') ∧
      (∀ depth, (peek depth w).2.absolute = w.absolute) ∧
      ((∃ w', advance w = (.ok (), w') ∧ w'.absolute = w.absolute + 1) ∨
        ∃ e w', advance w = (.error (.failed e), w') ∧ w.Grows w') ∧
      w.truncate.absolute = w.absolute ∧
      ∀ index ≤ w.size, seek index w = (.ok (), { w with cursor := index }) := by
  have hw := h.faithful
  refine ⟨hw.hasAt, hw.cursor_le, hw.stream, ?_, ?_, hw.calls, ?_,
    fun depth => absolute_peek depth w, absolute_advance w, absolute_truncate w,
    fun _ => seek_of_le⟩
  · intro i t ht heof
    rcases Nat.lt_or_ge (i + 1) w.stream.calls with hlt | hge
    · rw [hw.last i t hlt ht] at heof
      exact nomatch heof
    · exact hge
  · intro hordinary
    exact hw.fresh (hw.eof.trans (find?_produced_eq_none.mpr hordinary))
  · intro depth hdepth
    rcases peek_spec depth w with ⟨t, w', hpeek, hgrows, ht⟩ | hfailed | ⟨hover, -⟩
    · exact Or.inl ⟨t, w', hpeek, hw.peek_hasAt hpeek hgrows ht⟩
    · exact Or.inr hfailed
    · exact nomatch hdepth.symm.trans hover

/-- The second character is no token: a look behind it fails in the middle of its fill.  Moving on
    from there lets the end of the input in, and lets it in again. -/
theorem window_faithful_interrupted :
    ∃ w : Window (Metered CharStream) Char,
      Reached (CharStream.ofText "a?") 1 w ∧ w.retired = 1 ∧ w.size = 2 ∧
        w.stream.calls = 3 ∧ w.stream.calls = w.pulled + 1 ∧ w.cursor ≤ w.size ∧
        ∀ t, w.tokens[1]? = some t ↔
          1 < w.size ∧ HasAt (CharStream.ofText "a?") (w.retired + 1) t := by
  have hnew : Reached (CharStream.ofText "a?") 0 _ := .start
  have hfailed := hnew.complained (e := .invalidCharacter '?' ⟨1, 2, 1⟩) (.peek 2)
    (by decide +kernel)
  have hpassed := hfailed.went .advance (by decide +kernel)
  have hended := hpassed.went .advance (by decide +kernel)
  have hrepeated := hended.went .advance (by decide +kernel)
  have hback := hrepeated.went (.seek 1) (by decide +kernel)
  have hgone := hback.went .truncate (by decide +kernel)
  obtain ⟨hheld, hcursor, -, -, -, hcalls, -⟩ := window_faithful hgone
  exact ⟨_, hgone, by decide +kernel, by decide +kernel, by decide +kernel, hcalls, hcursor,
    hheld 1⟩

end Window

end Packrat
