import Packrat.Proofs.Evaluation
import Packrat.Proofs.Fidelity

/-! # What no program can disturb

    A program may set and release marks wherever it likes, also inside the bodies
    that are speculated on or remembered, and then the memo table may come to hold
    spans of a layout that is gone.  Two things remain: the window is faithful to
    the stream, and no span ends before it starts.  A parser with these is `Steady`,
    and every parser that can be reached is.

    The calls into the stream are accounted for on the way: all that a run has asked
    for it was given, except where the run ends with a lexical error, and then that
    error is the answer to its last call (`Heard`). -/

namespace Packrat

variable {σ κ ν α β : Type}

/-! ## What speculation and memoization come to -/

/-- What a speculation makes of the outcome of its rule. -/
def verdict : Except (Halt (ParseError κ)) Unit →
    Except (Halt (ParseError κ)) (Option (ParseError κ))
  | .ok () => .ok none
  | .error (.failed (.mismatch k seen)) => .ok (some (.mismatch k seen))
  | .error (.failed (.lexical e)) => .error (.failed (.lexical e))
  | .error (.failed (.exhausted name seen furthest)) =>
      .error (.failed (.exhausted name seen furthest))
  | .error (.fault c) => .error (.fault c)
  | .error .outOfFuel => .error .outOfFuel

/-- A verdict settles when the rule has settled, for a mismatch counts as settled on either side. -/
@[simp] theorem isSettled_verdict (r : Except (Halt (ParseError κ)) Unit) :
    isSettled (verdict r) = isSettled r := by
  rcases r with ⟨⟨_ | _ | _⟩ | _ | _⟩ | _ <;> rfl

/-- Nor does the stream see a difference between a rule and its verdict. -/
@[simp] theorem ending_verdict (r : Except (Halt (ParseError κ)) Unit) :
    ending (verdict r) = ending r := by
  rcases r with ⟨⟨_ | _ | _⟩ | _ | _⟩ | _ <;> rfl

/-- What the value is does not matter to whether there is one. -/
theorem isSettled_map (f : α → β) (r : Except (Halt (ParseError κ)) α) :
    isSettled (r.map f) = isSettled r := by
  rcases r with ⟨_ | _ | _⟩ | _ <;> rfl

/-- A speculation answers for a value and for a mismatch. -/
theorem verdict_eq_ok {r : Except (Halt (ParseError κ)) Unit} {x : Option (ParseError κ)}
    (h : verdict r = .ok x) :
    (x = none ∧ r = .ok ()) ∨
      ∃ k seen, x = some (.mismatch k seen) ∧ r = .error (.failed (.mismatch k seen)) := by
  match r, h with
  | .ok (), h => exact Or.inl ⟨(Except.ok.inj h).symm, rfl⟩
  | .error (.failed (.mismatch k seen)), h => exact Or.inr ⟨k, seen, (Except.ok.inj h).symm, rfl⟩

namespace Parser

/-- A speculation whose rule has not settled stops there. -/
theorem speculate_of_unsettled {rule : Parsing σ κ Unit} {p q : Parser σ κ}
    {r : Except (Halt (ParseError κ)) Unit} (h : rule p.marked = (r, q))
    (hr : isSettled r = false) : speculate rule p = (verdict r, q) := by
  match r, h with
  | .error (.fault c), h => exact speculate_of_fault h
  | .error .outOfFuel, h => exact speculate_of_outOfFuel h

/-- Otherwise its mark is taken back, and the outcome is judged. -/
theorem speculate_of_settled {rule : Parsing σ κ Unit} {p q q' : Parser σ κ}
    {r : Except (Halt (ParseError κ)) Unit} (h : rule p.marked = (r, q))
    (hr : isSettled r = true) (hq : release true q = (.ok (), q')) :
    speculate rule p = (verdict r, q') := by
  rw [speculate, Run.bind_of_ok (mark_apply p)]
  rcases r with ⟨⟨_ | _ | _⟩ | _ | _⟩ | _
  case ok => rw [Run.bind_of_ok (Run.settle_of_ok h), Run.bind_of_ok hq]; rfl
  case error.fault => cases hr
  case error.outOfFuel => cases hr
  all_goals
    rw [Run.bind_of_ok (Run.settle_of_failed h), Run.bind_of_ok hq]
    rfl

/-- The question is answered from the table, and leaves its mark in the counters. -/
theorem consult_apply (rule : String) (p : Parser σ κ) :
    consult rule p = (.ok (p.memo.find? rule p.absolute), p.asked rule) := by
  rw [consult, asked, ← Memo.lookup_fst]

/-- What a memoized rule comes to. -/
inductive Memoized (rule : String) (body : Parsing σ κ Unit) (p : Parser σ κ) :
    Except (Halt (ParseError κ)) Unit × Parser σ κ → Prop where
  | off {o} : p.options.memoize = false → body p = o → Memoized rule body p o
  | hit {span} : p.options.memoize = true → p.memo.find? rule p.absolute = some span →
      span.start = p.window.cursor → span.stop ≤ p.window.size →
      Memoized rule body p
        (.ok (), { p.asked rule with window := { p.window with cursor := span.stop } })
  | stale {cause} : p.options.memoize = true → (p.memo.find? rule p.absolute).isSome = true →
      Memoized rule body p (.error (.fault cause), p.asked rule)
  | failed {e q} : p.options.memoize = true → p.memo.find? rule p.absolute = none →
      body (p.asked rule) = (.error e, q) → Memoized rule body p (.error e, q)
  | ran {q} : p.options.memoize = true → p.memo.find? rule p.absolute = none →
      body (p.asked rule) = (.ok (), q) →
      (q.window.retired ≤ p.absolute → p.window.cursor ≤ q.window.cursor) →
      Memoized rule body p (.ok (), p.recorded rule q)
  | reversed {q} : p.options.memoize = true → p.memo.find? rule p.absolute = none →
      body (p.asked rule) = (.ok (), q) → Memoized rule body p (.error (.fault .reversedSpan), q)

/-- The six ways are all there are: with or without a table, found or not, and then as the body or
    the jump ends. -/
theorem memoize_cases (rule : String) (body : Parsing σ κ Unit) (p : Parser σ κ) :
    Memoized rule body p (memoize rule body p) := by
  -- as the code decides: is there a table, is the span known, does it still fit, was it let go
  cases hon : p.options.memoize with
  | false =>
      rw [memoize_of_off hon]
      exact .off hon rfl
  | true =>
      cases hfind : p.memo.find? rule p.absolute with
      | some span =>
          have hsome : (p.memo.find? rule p.absolute).isSome = true := by rw [hfind]; rfl
          rw [memoize_of_found hon hfind]
          rcases jump_cases span (p.asked rule) with ⟨hstart, hstop, hjump⟩ | ⟨cause, hjump⟩
          · rw [hjump]
            exact .hit hon hfind hstart hstop
          · rw [hjump]
            exact .stale hon hsome
      | none =>
          rw [memoize_of_miss hon hfind]
          rcases hr : body (p.asked rule) with ⟨e | ⟨⟩, q⟩
          · rw [runAndRecord_of_error hr]
            exact .failed hon hfind hr
          · rw [runAndRecord, Run.read_bind, Run.read_bind, Run.bind_of_ok hr, record]
            by_cases hle : q.window.retired ≤ p.absolute
            · rw [if_pos (show q.window.retired ≤ (p.asked rule).absolute from hle)]
              by_cases hspan : p.window.cursor ≤ q.window.cursor
              · have hran := Memoized.ran hon hfind hr fun _ => hspan
                have hof : Span.of? (p.asked rule).window.cursor q.window.cursor
                    = some ⟨p.window.cursor, q.window.cursor⟩ := if_pos hspan
                rw [recorded, if_pos hle] at hran
                rw [hof]
                exact hran
              · have hof : Span.of? (p.asked rule).window.cursor q.window.cursor = none :=
                  if_neg hspan
                rw [hof]
                exact .reversed hon hfind hr
            · have hran := Memoized.ran hon hfind hr fun hle' => absurd hle' hle
              rw [recorded, if_neg hle] at hran
              rw [if_neg (show ¬ q.window.retired ≤ (p.asked rule).absolute from hle)]
              exact hran

end Parser

/-! ## The calls of a run -/

open TokenStream

section Heard

variable [TokenStream σ κ]

/-- The calls from the number `c` on up to the number `c'` were answered with tokens, except that
    the last one was answered with the complaint, if there is one. -/
inductive Heard (source : σ) (c : Nat) : Option LexError → Nat → Prop where
  | tokens {c'} : c ≤ c' → (∀ i, c ≤ i → i < c' → ∃ t : Token κ, answer source i = .ok t) →
      Heard source c none c'
  | complaint {i e} : c ≤ i → (∀ j, c ≤ j → j < i → ∃ t : Token κ, answer source j = .ok t) →
      answer source i = .error e → Heard source c (some e) (i + 1)

/-- Between a number and itself no call is made. -/
theorem Heard.refl (source : σ) (c : Nat) : Heard source c none c :=
  .tokens (Nat.le_refl c) fun _ hle hlt => absurd hlt (Nat.not_lt.mpr hle)

/-- After calls that were answered with tokens, the others follow. -/
theorem Heard.trans {source : σ} {c c' c'' : Nat} {e : Option LexError}
    (h : Heard source c none c') (h' : Heard source c' e c'') : Heard source c e c'' := by
  cases h with
  | tokens hle hok =>
      -- a call before `c'` was made in the first run, any other in the second
      cases h' with
      | tokens hle' hok' =>
          refine .tokens (Nat.le_trans hle hle') fun i hi hlt => ?_
          rcases Nat.lt_or_ge i c' with hbefore | hafter
          · exact hok i hi hbefore
          · exact hok' i hafter hlt
      | complaint hle' hok' he =>
          refine .complaint (Nat.le_trans hle hle') (fun j hj hlt => ?_) he
          rcases Nat.lt_or_ge j c' with hbefore | hafter
          · exact hok j hj hbefore
          · exact hok' j hafter hlt

/-- Calls are not taken back. -/
theorem Heard.le {source : σ} {c c' : Nat} {e : Option LexError} (h : Heard source c e c') :
    c ≤ c' := by
  cases h with
  | tokens hle _ => exact hle
  | complaint hle _ _ => exact Nat.le_succ_of_le hle

/-- A call that fails is the last one, and its answer is the complaint. -/
theorem Heard.last {source : σ} {c c' i : Nat} {e : Option LexError} {lex : LexError}
    (h : Heard source c e c') (hle : c ≤ i) (hlt : i < c') (hi : answer source i = .error lex) :
    i + 1 = c' ∧ e = some lex := by
  cases h with
  | tokens _ hok =>
      obtain ⟨t, ht⟩ := hok i hle hlt
      exact nomatch hi.symm.trans ht
  | @complaint j e _ hok he =>
      rcases Nat.lt_or_ge i j with hbefore | hafter
      · obtain ⟨t, ht⟩ := hok i hle hbefore
        exact nomatch hi.symm.trans ht
      · obtain rfl : i = j := by omega
        exact ⟨rfl, congrArg some (Except.error.inj (he.symm.trans hi))⟩

/-- A complaint is the answer to the last call. -/
theorem Heard.raised {source : σ} {c c' : Nat} {lex : LexError} (h : Heard source c (some lex) c') :
    ∃ i, c ≤ i ∧ i + 1 = c' ∧ answer source i = .error lex := by
  cases h with
  | complaint hle _ he => exact ⟨_, hle, rfl, he⟩

end Heard

namespace Window

/-- The lexical error that a computation on a window ended with. -/
def complaint : Except (Halt LexError) α → Option LexError
  | .ok _ => none
  | .error (.failed e) => some e
  | .error (.fault _) => none
  | .error .outOfFuel => none

variable [TokenStream σ κ] [DecidableEq κ] [TokenKind κ] {source : σ} {n : Nat}
  {w : Window (Metered σ) κ}

/-- The calls of a computation on a faithful window are accounted for. -/
def Hears (source : σ) (w : Window (Metered σ) κ)
    (o : Except (Halt LexError) α × Window (Metered σ) κ) : Prop :=
  Heard source w.stream.calls (complaint o.1) o.2.stream.calls

/-- A pull makes one call, or none behind the end of the input. -/
theorem pull_hears (h : w.Faithful source n) : Hears source w (pull w) := by
  -- one call, and what the source says in it is the answer of that number
  have hanswer : (next w.stream).1 = answer source w.stream.calls := by
    rw [answer, ← h.stream]
    rfl
  have hbefore : ∀ j, w.stream.calls ≤ j → j < w.stream.calls →
      ∃ t : Token κ, answer source j = .ok t := fun j hle hlt => absurd hlt (Nat.not_lt.mpr hle)
  rw [pull]
  split
  · exact Heard.refl _ _
  · split
    · next e s hnext =>
        have hcalls : s.calls = w.stream.calls + 1 := by
          rw [← Metered.calls_next w.stream, hnext]
        rw [hnext] at hanswer
        show Heard source w.stream.calls (some e) s.calls
        rw [hcalls]
        exact .complaint (Nat.le_refl _) hbefore hanswer.symm
    · next t s hnext =>
        have hcalls : s.calls = w.stream.calls + 1 := by
          rw [← Metered.calls_next w.stream, hnext]
        rw [hnext] at hanswer
        show Heard source w.stream.calls none s.calls
        rw [hcalls]
        refine .tokens (Nat.le_succ _) fun i hle hlt => ?_
        obtain rfl : i = w.stream.calls := by omega
        exact ⟨t, hanswer.symm⟩

omit [DecidableEq κ] [TokenKind κ] in
/-- The calls of the second part come behind those of the first, if there is a second part. -/
theorem Hears.bind {m : Run (Window (Metered σ) κ) LexError α}
    {f : α → Run (Window (Metered σ) κ) LexError β} (hm : Hears source w (m w))
    (hf : ∀ a w', m w = (.ok a, w') → Hears source w' (f a w')) :
    Hears source w ((m >>= f) w) := by
  match h : m w with
  | (.ok a, w') =>
      rw [h] at hm
      rw [Run.bind_of_ok h]
      exact Heard.trans hm (hf a w' h)
  | (.error (.failed _), _) | (.error (.fault _), _) | (.error .outOfFuel, _) =>
      rw [h] at hm
      rw [Run.bind_of_error h]
      exact hm

/-- As many pulls make as many calls at most, up to a complaint. -/
theorem pullMany_hears (count : Nat) (h : w.Faithful source n) :
    Hears source w (pullMany count w) := by
  induction count generalizing w with
  | zero => exact Heard.refl _ _
  | succ count ih =>
      refine (pull_hears h).bind fun _ w' hw' => ih ?_
      have hends := pull_faithful h
      rw [hw'] at hends
      exact hends

/-- A fill pulls what is missing.  Noting the peak makes no call. -/
theorem fill_hears (count : Nat) (h : w.Faithful source n) : Hears source w (fill count w) := by
  have hread : Hears source w (Run.read (fun w => w.cursor + count - w.size) w) := Heard.refl _ _
  refine hread.bind fun missing w₁ hw₁ => ?_
  obtain rfl : w = w₁ := congrArg Prod.snd hw₁
  exact (pullMany_hears missing h).bind fun _ _ _ => Heard.refl _ _

/-- A look fills the window as far as it looks; an index that overflows is refused without a
    call. -/
theorem peek_hears (depth : Nat) (h : w.Faithful source n) : Hears source w (peek depth w) := by
  have hread : Hears source w (Run.read (·.overflowsAt depth) w) := Heard.refl _ _
  refine hread.bind fun overflows w₁ hw₁ => ?_
  obtain rfl : w = w₁ := congrArg Prod.snd hw₁
  cases overflows with
  | true => exact Heard.refl _ _
  | false =>
      refine (fill_hears (depth + 1) h).bind fun _ w₂ _ => ?_
      rw [Run.read_bind]
      cases w₂.tokens[w₂.cursor + depth]? with
      | none => exact Heard.refl _ _
      | some t => exact Heard.refl _ _

/-- A step pulls the current token if it is not held. -/
theorem advance_hears (h : w.Faithful source n) : Hears source w (advance w) :=
  (fill_hears 1 h).bind fun _ _ _ => Heard.refl _ _

end Window

/-! ## Steady parsers -/

section Steady

variable [TokenStream σ κ] [DecidableEq κ] [TokenKind κ]

/-- The window is faithful to the stream and holds the tokens that are marked, and no span ends
    before it starts. -/
structure Parser.Steady (source : σ) (p : Parser (Metered σ) κ) : Prop where
  faithful : ∃ complaints, p.window.Faithful source complaints
  anchored : ∀ c ∈ p.marks.cursors, c ≤ p.window.size
  ordered : ∀ rule position span, p.memo.Holds rule position span → span.start ≤ span.stop

/-- The lexical error at the end, if there is one. -/
def Ending.complaint : Ending → Option LexError
  | settled => none
  | lexical e => some e
  | broken => none

omit [DecidableEq κ] [TokenKind κ] in
/-- Only a lexical error leaves a complaint. -/
theorem eq_of_complaint {r : Except (Halt (ParseError κ)) α} {lex : LexError}
    (h : (ending r).complaint = some lex) : r = .error (.failed (.lexical lex)) := by
  match r, h with
  | .error (.failed (.lexical e)), h => rw [Option.some.inj h]

/-- Between the two parsers the calls are accounted for. -/
def Parser.Listened (source : σ) (p : Parser (Metered σ) κ) (x : Ending)
    (q : Parser (Metered σ) κ) : Prop :=
  Heard source p.window.stream.calls x.complaint q.window.stream.calls

variable {source : σ} {p q : Parser (Metered σ) κ}

omit [DecidableEq κ] [TokenKind κ] in
/-- Calls can be accounted for run by run. -/
theorem chains_listened : Chains (Parser.Listened source : Parser (Metered σ) κ → _) :=
  ⟨fun _ => Heard.refl _ _, fun _ => Heard.refl _ _, Heard.trans⟩

/-- A new parser has made no call, and holds and remembers nothing. -/
theorem steady_new (source : σ) (options : Options) :
    (Parser.new (.new source) options : Parser (Metered σ) κ).Steady source where
  faithful := ⟨0, Window.faithful_new source⟩
  anchored := fun _ hc => nomatch hc
  ordered := by
    rintro rule position span ⟨entries, hmem, -⟩
    exact nomatch hmem

namespace Parser.Steady

/-- In a faithful window the cursor stands among the tokens or right behind them. -/
theorem cursor_le (h : p.Steady source) : p.window.cursor ≤ p.window.size := by
  obtain ⟨n, hw⟩ := h.faithful
  exact hw.cursor_le

/-- The calls made are the first ones of the stream. -/
theorem stream (h : p.Steady source) :
    p.window.stream.stream = after source p.window.stream.calls := by
  obtain ⟨n, hw⟩ := h.faithful
  exact hw.stream

/-- The new mark is the cursor, and that is in the window. -/
theorem marked (h : p.Steady source) : p.marked.Steady source := by
  refine ⟨h.faithful, fun c hc => ?_, h.ordered⟩
  rcases List.mem_cons.mp hc with rfl | hmem
  · exact h.cursor_le
  · exact h.anchored c hmem

/-- A question leaves the window and the entries as they are. -/
theorem asked (h : p.Steady source) (rule : String) : (p.asked rule).Steady source :=
  ⟨h.faithful, h.anchored,
    fun rule position span hs => h.ordered rule position span (Memo.holds_lookup.mp hs)⟩

/-- The cursor may be moved to any token held. -/
theorem moveTo (h : p.Steady source) {cursor : Nat} (hle : cursor ≤ p.window.size) :
    ({ p with window := { p.window with cursor } } : Parser (Metered σ) κ).Steady source := by
  obtain ⟨n, hw⟩ := h.faithful
  exact ⟨⟨n, { hw with cursor_le := hle }⟩, h.anchored, h.ordered⟩

/-- A span that is recorded ends behind its start, or it is not recorded at all. -/
theorem recorded (hq : q.Steady source) (rule : String)
    (hle : q.window.retired ≤ p.absolute → p.window.cursor ≤ q.window.cursor) :
    (p.recorded rule q).Steady source := by
  rw [Parser.recorded]
  by_cases hkept : q.window.retired ≤ p.absolute
  · rw [if_pos hkept]
    refine ⟨hq.faithful, hq.anchored, fun rule' position span hs => ?_⟩
    rcases Memo.holds_store hs with ⟨-, -, rfl⟩ | hold
    · exact hle hkept
    · exact hq.ordered rule' position span hold
  · rw [if_neg hkept]
    exact hq

/-- Tokens are let go only when none of them is marked. -/
theorem tidied (h : p.Steady source) : p.tidied.Steady source := by
  rcases p.tidied_cases with ⟨-, hnone, heq⟩ | heq
  · rw [heq]
    obtain ⟨n, hw⟩ := h.faithful
    refine ⟨⟨n, hw.truncate⟩, fun c hc => ?_, fun rule position span hs =>
      h.ordered rule position span (Memo.holds_dropBefore hs).1⟩
    have hc' : c ∈ p.marks.cursors := hc
    rw [hnone] at hc'
    exact nomatch hc'
  · rw [heq]
    exact h

/-- A release finds the token that it rewinds to, and makes no calls. -/
theorem release (h : p.Steady source) (restore : Bool) :
    ∃ q, Parser.release restore p = (.ok (), q) ∧ q.Steady source ∧
      q.window.stream = p.window.stream := by
  cases hc : p.marks.cursors with
  | nil => exact ⟨p, release_of_nil hc, h, rfl⟩
  | cons c cs =>
      have hpop : p.marks.pop = (some c, ⟨cs⟩) := by
        rw [Marks.pop, hc]
      have hle : c ≤ p.window.size := h.anchored c (hc ▸ List.mem_cons_self)
      have hrest : ∀ c' ∈ cs, c' ≤ p.window.size := fun c' hc' =>
        h.anchored c' (hc ▸ List.mem_cons_of_mem _ hc')
      rw [Parser.release, hpop]
      cases restore with
      | false => exact ⟨_, rfl, ⟨h.faithful, hrest, h.ordered⟩, rfl⟩
      | true =>
          refine ⟨_, onWindow_ok (p := { p with marks := ⟨cs⟩ }) (Window.seek_of_le hle), ?_, rfl⟩
          exact ⟨(h.moveTo hle).faithful, hrest, h.ordered⟩

end Parser.Steady

/-- A computation on the window that lets no tokens go passes its account on to the parser. -/
theorem carries_onWindow {m : Run (Window (Metered σ) κ) LexError α}
    (hends : ∀ n w, w.Faithful source n → Window.EndsFaithful source n (m w))
    (hhears : ∀ n w, w.Faithful source n → Window.Hears source w (m w))
    (hsize : ∀ w, w.size ≤ (m w).2.size) :
    Carries (Parser.Steady source) (Parser.Listened source) (Parser.onWindow m) := by
  intro p hp
  obtain ⟨n, hw⟩ := hp.faithful
  have hends' := hends n p.window hw
  have hhears' := hhears n p.window hw
  have hsize' := hsize p.window
  -- a failed pull has called the source once more than there are tokens
  match hm : m p.window with
  | (.ok a, w) =>
      rw [hm] at hends' hhears' hsize'
      rw [Parser.onWindow_ok hm]
      exact ⟨fun _ => ⟨⟨n, hends'⟩, fun c hc => Nat.le_trans (hp.anchored c hc) hsize', hp.ordered⟩,
        hhears'⟩
  | (.error (.failed e), w) =>
      rw [hm] at hends' hhears' hsize'
      rw [Parser.onWindow_error hm]
      exact ⟨fun _ => ⟨⟨n + 1, hends'⟩, fun c hc => Nat.le_trans (hp.anchored c hc) hsize',
        hp.ordered⟩, hhears'⟩
  | (.error (.fault _), w) | (.error .outOfFuel, w) =>
      rw [hm] at hhears'
      rw [Parser.onWindow_error hm]
      exact ⟨(fun hset => nomatch hset), hhears'⟩

/-- A look makes the calls for the tokens up to its depth and leaves the window faithful. -/
theorem carries_peek (depth : Nat) :
    Carries (Parser.Steady source) (Parser.Listened source) (Parser.peek depth) := by
  refine carries_onWindow (fun _ _ => Window.peek_faithful depth)
    (fun _ _ => Window.peek_hears depth) fun w => ?_
  rcases Window.peek_spec depth w with ⟨t, w', h, hg, -⟩ | ⟨e, w', h, hg⟩ | ⟨-, h⟩
  · rw [h]
    exact hg.size_le
  · rw [h]
    exact hg.size_le
  · exact Nat.le_of_eq (by rw [h])

/-- So does a step; and where the window is let go, the table is emptied of what would not fit any
    more. -/
theorem carries_advance :
    Carries (Parser.Steady source) (Parser.Listened source) Parser.advance := by
  have hadvance : Carries (Parser.Steady source) (Parser.Listened source)
      (Parser.onWindow Window.advance) := by
    refine carries_onWindow (fun _ _ => Window.advance_faithful)
      (fun _ _ => Window.advance_hears) fun w => ?_
    rcases Window.advance_spec w with ⟨w', h, hg, -⟩ | ⟨e, w', h, hg⟩
    · rw [h]
      exact hg.size_le
    · rw [h]
      exact hg.size_le
  refine hadvance.bind chains_listened fun _ p hp => ⟨fun _ => hp.tidied, ?_⟩
  -- letting tokens go makes no calls
  show Heard source p.window.stream.calls none p.tidied.window.stream.calls
  rcases p.tidied_cases with ⟨-, -, heq⟩ | heq
  · rw [heq]
    exact Heard.refl _ _
  · rw [heq]
    exact Heard.refl _ _

/-- A release makes no call. -/
theorem carries_release (restore : Bool) :
    Carries (Parser.Steady source) (Parser.Listened source) (Parser.release restore) := by
  intro p hp
  obtain ⟨q, hr, hq, hstream⟩ := hp.release restore
  rw [hr]
  refine ⟨fun _ => hq, ?_⟩
  rw [Parser.Listened, hstream]
  exact Heard.refl _ _

/-- From a steady parser a speculation takes its mark back and judges its rule. -/
theorem speculate_steady {R : Parser (Metered σ) κ → Ending → Parser (Metered σ) κ → Prop}
    {rule : Parsing (Metered σ) κ Unit} (h : Carries (Parser.Steady source) R rule)
    (hp : p.Steady source) :
    ∃ q', Parser.speculate rule p = (verdict (rule p.marked).1, q') ∧
      (isSettled (rule p.marked).1 = true → q'.Steady source ∧
        Parser.release true (rule p.marked).2 = (.ok (), q')) ∧
      q'.window.stream = (rule p.marked).2.window.stream := by
  rcases hr : rule p.marked with ⟨r, q⟩
  cases hset : isSettled r with
  | true =>
      obtain ⟨q', hrelease, hq', hstream⟩ := ((h.of_eq hp.marked hr).1 hset).release true
      exact ⟨q', Parser.speculate_of_settled hr hset hrelease, fun _ => ⟨hq', hrelease⟩, hstream⟩
  | false => exact ⟨q, Parser.speculate_of_unsettled hr hset, (fun hset' => nomatch hset'), rfl⟩

/-- A speculation ends with the lexical error that its rule ended with, if it did, and rewinding
    makes no calls. -/
theorem carries_speculate {rule : Parsing (Metered σ) κ Unit}
    (h : Carries (Parser.Steady source) (Parser.Listened source) rule) :
    Carries (Parser.Steady source) (Parser.Listened source) (Parser.speculate rule) := by
  intro p hp
  obtain ⟨q', hs, hq', hstream⟩ := speculate_steady h hp
  rw [hs]
  refine ⟨fun hset => (hq' (isSettled_verdict _ ▸ hset)).1, ?_⟩
  rw [ending_verdict, Parser.Listened, hstream]
  exact (h p.marked hp.marked).2

/-- A memoized rule makes the calls of its body, or none when the table answers. -/
theorem carries_memoize (name : String) {body : Parsing (Metered σ) κ Unit}
    (h : Carries (Parser.Steady source) (Parser.Listened source) body) :
    Carries (Parser.Steady source) (Parser.Listened source) (Parser.memoize name body) := by
  intro p hp
  have hcases := Parser.memoize_cases name body p
  rcases ho : Parser.memoize name body p with ⟨r, q'⟩
  rw [ho] at hcases
  cases hcases with
  | off _ hr => exact h.of_eq hp hr
  | hit _ _ _ hstop => exact ⟨fun _ => (hp.asked name).moveTo hstop, Heard.refl _ _⟩
  | failed _ _ hr =>
      obtain ⟨hq, hheard⟩ := h.of_eq (hp.asked name) hr
      exact ⟨hq, hheard⟩
  | ran _ _ hr hle =>
      obtain ⟨hq, hheard⟩ := h.of_eq (hp.asked name) hr
      refine ⟨fun _ => (hq rfl).recorded name hle, ?_⟩
      rw [Parser.recorded]
      split
      · exact hheard
      · exact hheard
  | stale _ _ => exact ⟨(fun hset => absurd hset Bool.false_ne_true), Heard.refl _ _⟩
  | reversed _ _ hr =>
      obtain ⟨hq, hheard⟩ := h.of_eq (hp.asked name) hr
      exact ⟨(fun hset => absurd hset Bool.false_ne_true), hheard⟩

/-- **Every evaluation keeps parsers steady and accounts for its calls**, whatever marks are set and
    released in it. -/
theorem compositional_steady (rules : ν → Expr κ ν) (source : σ) :
    Compositional rules (fun _ => True)
      (fun m => Carries (Parser.Steady source) (Parser.Listened source) m) :=
  .of_carries chains_listened (fun _ _ => trivial) carries_peek carries_advance
    (fun _ _ hp => ⟨fun _ => hp.marked, Heard.refl _ _⟩) (fun restore _ => carries_release restore)
    carries_speculate
    (fun _ _ hbody =>
      carries_memoize _ (hbody.bind chains_listened fun _ => .pure chains_listened _))

/-- A speculation on an expression judges what it comes to from the marked parser. -/
theorem speculate_eval (rules : ν → Expr κ ν) (fuel : Nat) (e : Expr κ ν) (hp : p.Steady source) :
    ∃ q, Parser.speculate (discard (Expr.eval rules fuel e)) p
        = (verdict ((Expr.eval rules fuel e p.marked).1.map fun _ => ()), q) ∧
      (isSettled (Expr.eval rules fuel e p.marked).1 = true →
        Parser.release true (Expr.eval rules fuel e p.marked).2 = (.ok (), q)) := by
  have hcomp := compositional_steady rules source
  obtain ⟨q, hs, hback, -⟩ :=
    speculate_steady (hcomp.discard (hcomp.eval fuel (e := e) trivial)) hp
  rw [Run.discard_apply] at hs hback
  exact ⟨q, hs, fun hset => (hback ((isSettled_map _ _).trans hset)).2⟩

/-- Parsers stay steady at every moment of an evaluation. -/
theorem persists_steady {R : Parser (Metered σ) κ → Ending → Parser (Metered σ) κ → Prop} :
    Persists (Parser.Steady source) R fun _ _ => True where
  refl _ := trivial
  trans _ _ := trivial
  run _ := trivial
  marked _ hp := ⟨hp.marked, trivial⟩
  asked name _ hp := ⟨hp.asked name, trivial⟩

/-- **Every parser that can be reached is steady.** -/
theorem Reachable.steady {rules : ν → Expr κ ν} {allowed : Expr κ ν → Prop}
    (h : Reachable rules allowed source p) : p.Steady source :=
  h.anyhow.invariant (compositional_steady rules source) persists_steady (steady_new source)

end Steady

end Packrat
