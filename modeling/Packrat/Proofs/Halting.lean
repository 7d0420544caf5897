import Packrat.Proofs.Fitting

/-! # Evaluations that come to an end

    The fuel of an evaluation bounds its depth.  How much is enough is read off the
    input ahead: a loop or a recursion that passes over an ordinary token each time
    cannot go on for longer than there are such tokens.

    The tokens ahead are counted up to the next call into the stream that will not
    be answered with an ordinary token (`Parser.Ahead`).  That call may be answered
    with the end of the input, which then stands at every place behind, or with a
    complaint, and then the evaluation ends with it.  In either case nothing
    ordinary is passed over from there on, and as long as the parse does not go
    back, the count does not rise.

    `Expr.Halts` says that some fuel is enough for a count.  There is one lemma for
    each way to put expressions together, so that a grammar is gone through rule by
    rule. -/

namespace Packrat

variable {σ κ ν α β : Type}

/-! ## The tokens ahead -/

section Ahead

open TokenStream

variable [DecidableEq κ] [TokenKind κ]

/-- From the first end of the input on there is nothing else. -/
theorem TokenStream.isEof_of_tokenAt? {l : List (Token κ)} {j : Nat} {t : Token κ}
    (h : tokenAt? l j = some t) (hle : l.findIdx Token.isEof ≤ j) : t.isEof = true := by
  rw [tokenAt?, Nat.min_eq_right hle] at h
  obtain ⟨hlt, rfl⟩ := List.getElem?_eq_some_iff.mp h
  exact List.findIdx_getElem

variable [TokenStream σ κ]

/-- The stream cannot go on for ever with ordinary tokens: it comes to the end of the input, or to a
    complaint. -/
def TokenStream.Stops (source : σ) : Prop :=
  ∀ i, (∀ j t, j < i → answer source j = .ok t → t.isEof = false) →
    ∃ stop, i ≤ stop ∧ ∀ t, answer source stop = .ok t → t.isEof = true

/-- So does a stream that answers with the end of the input at all. -/
theorem TokenStream.stops_of_eof {source : σ} {stop : Nat} {last : Token κ}
    (h : answer source stop = .ok last) (heof : last.isEof = true) : Stops source := by
  intro i hordinary
  refine ⟨stop, ?_, ?_⟩
  · by_contra hlt
    rw [hordinary stop last (Nat.lt_of_not_le hlt) h] at heof
    exact nomatch heof
  · intro t ht
    rw [← Except.ok.inj (h.symm.trans ht)]
    exact heof

/-- At most `n` ordinary tokens are ahead, up to a call that is not answered with one.  If that call
    has been made, its answer was the end of the input. -/
def Parser.Ahead (source : σ) (n : Nat) (p : Parser (Metered σ) κ) : Prop :=
  ∃ stop, (∀ t, answer source stop = .ok t → t.isEof = true) ∧
    (stop < p.window.stream.calls → ∃ t, answer source stop = .ok t) ∧
    (produced source stop).length ≤ p.absolute + n

variable {source : σ} {p q : Parser (Metered σ) κ} {n : Nat}

/-- On a stream that stops there is such a number. -/
theorem Parser.Steady.exists_ahead (h : p.Steady source) (hsource : Stops source) :
    ∃ n, p.Ahead source n := by
  obtain ⟨complaints, hw⟩ := h.faithful
  cases heof : (produced source p.window.stream.calls).find? Token.isEof with
  | none =>
      obtain ⟨stop, hle, hstop⟩ := hsource _ (find?_produced_eq_none.mp heof)
      refine ⟨_, stop, hstop, ?_, Nat.le_add_left _ p.absolute⟩
      intro hlt
      exact absurd hlt (Nat.not_lt.mpr hle)
  | some t =>
      obtain ⟨stop, -, ht⟩ := mem_produced.mp (List.mem_of_find?_eq_some heof)
      refine ⟨_, stop, ?_, fun _ => ⟨t, ht⟩, Nat.le_add_left _ p.absolute⟩
      intro t' ht'
      obtain rfl : t = t' := Except.ok.inj (ht.symm.trans ht')
      exact List.find?_some heof

/-- Where the parse has gone on, as many tokens fewer are ahead. -/
theorem Parser.Ahead.heard (h : p.Ahead source n)
    (hheard : Heard source p.window.stream.calls none q.window.stream.calls) {m : Nat}
    (hle : p.absolute + n ≤ q.absolute + m) : q.Ahead source m := by
  obtain ⟨stop, hstop, hcalled, hcount⟩ := h
  refine ⟨stop, hstop, ?_, Nat.le_trans hcount hle⟩
  intro hlt
  cases hheard with
  | tokens _ hok =>
      rcases Nat.lt_or_ge stop p.window.stream.calls with hbefore | hafter
      · exact hcalled hbefore
      · exact hok stop hafter hlt

/-- An ordinary token that is current is one of those ahead. -/
theorem Parser.Ahead.pos (h : p.Ahead source n) {t : Token κ}
    (ht : tokenAt? (produced source p.window.stream.calls) p.absolute = some t)
    (hordinary : t.isEof = false) : 0 < n := by
  obtain ⟨stop, hstop, hcalled, hcount⟩ := h
  -- with no token left to come, the current one would stand at the end of the input or behind it
  by_contra hzero
  have hbehind : (produced source stop).length ≤ p.absolute := by omega
  have hfirst : (produced source p.window.stream.calls).findIdx Token.isEof ≤ p.absolute := by
    rcases Nat.lt_or_ge stop p.window.stream.calls with hlt | hge
    · -- the end of the input has been answered, and stands behind what came before it
      obtain ⟨last, hlast⟩ := hcalled hlt
      have hbegins := produced_isPrefix source hlt
      rw [Nat.succ_eq_add_one, produced_succ_of_ok hlast] at hbegins
      have hidx : (produced source stop ++ [last]).findIdx Token.isEof <
          (produced source stop ++ [last]).length :=
        List.findIdx_lt_length_of_exists
          ⟨last, List.mem_append_right _ (List.mem_singleton_self last), hstop last hlast⟩
      rw [hbegins.findIdx_eq_of_findIdx_lt_length hidx]
      rw [List.length_append, List.length_singleton] at hidx
      omega
    · have hle := (produced_isPrefix source hge).length_le
      have hidx : (produced source p.window.stream.calls).findIdx Token.isEof ≤ _ :=
        List.findIdx_le_length
      omega
  rw [isEof_of_tokenAt? ht hfirst] at hordinary
  exact nomatch hordinary

end Ahead

/-! ## Outcomes -/

/-- A jump takes no fuel. -/
theorem Parser.jump_ne_outOfFuel (span : Span) (p : Parser σ κ) :
    (Parser.jump span p).1 ≠ .error .outOfFuel := by
  rcases Parser.jump_cases span p with ⟨-, -, hjump⟩ | ⟨cause, hjump⟩
  · rw [hjump]
    exact fun heq => nomatch heq
  · rw [hjump]
    exact fun heq => nomatch heq

/-- The fuel was enough, and if `sure`, no rule of use was broken. -/
structure Concludes (sure : Prop) (r : Except (Halt (ParseError κ)) α) : Prop where
  fuelled : r ≠ .error .outOfFuel
  settled : sure → isSettled r = true

namespace Concludes

variable {sure : Prop}

/-- What has settled has had fuel and has broken no rule of use. -/
theorem of_isSettled {r : Except (Halt (ParseError κ)) α} (h : isSettled r = true) :
    Concludes sure r := by
  refine ⟨?_, fun _ => h⟩
  rintro rfl
  exact nomatch h

/-- What a computation ends with ends what follows it, too. -/
theorem error {e : Halt (ParseError κ)} (h : Concludes sure (.error e : Except _ α)) :
    Concludes sure (.error e : Except _ β) := by
  constructor
  · intro heq
    cases heq
    exact h.fuelled rfl
  · intro hsure
    have hset := h.settled hsure
    cases e with
    | failed error => rfl
    | fault cause => exact nomatch hset
    | outOfFuel => exact nomatch hset

/-- The second part has to conclude from where the first one has led, if that has led to a value. -/
theorem bind {m : Parsing σ κ α} {f : α → Parsing σ κ β} {p : Parser σ κ}
    (hm : Concludes sure (m p).1)
    (hf : ∀ a q, m p = (.ok a, q) → Concludes sure (f a q).1) : Concludes sure ((m >>= f) p).1 := by
  rcases hr : m p with ⟨e | a, q⟩
  · rw [hr] at hm
    rw [Run.bind_of_error hr]
    exact hm.error
  · rw [Run.bind_of_ok hr]
    exact hf a q hr

/-- A conclusion does not depend on whether the answer is kept. -/
theorem discard {m : Parsing σ κ α} {p : Parser σ κ} (h : Concludes sure (m p).1) :
    Concludes sure ((Functor.discard m : Parsing σ κ PUnit) p).1 :=
  bind h fun _ _ _ => of_isSettled rfl

/-- A verdict concludes as its rule does. -/
theorem verdict {r : Except (Halt (ParseError κ)) Unit} (h : Concludes sure r) :
    Concludes sure (Packrat.verdict r) := by
  constructor
  · intro heq
    rcases r with ⟨⟨_ | _ | _⟩ | _ | _⟩ | _
    case error.outOfFuel => exact h.fuelled rfl
    all_goals exact nomatch heq
  · intro hsure
    rw [isSettled_verdict]
    exact h.settled hsure

end Concludes

section Operations

variable [TokenStream σ κ] [DecidableEq κ] [TokenKind κ] {sure : Prop}

/-- A look at a moderate depth breaks no rule of use. -/
theorem concludes_peek {depth : Nat} (hdepth : 2 * depth < wordLimit) (p : Parser σ κ) :
    Concludes sure (Parser.peek depth p).1 := by
  rcases Window.peek_spec depth p.window with ⟨t, w, h, -⟩ | ⟨e, w, h, -⟩ | ⟨hover, -⟩
  · rw [show Parser.peek depth p = _ from Parser.onWindow_ok h]
    exact .of_isSettled rfl
  · rw [show Parser.peek depth p = _ from Parser.onWindow_error h]
    exact .of_isSettled rfl
  · exact absurd (Window.le_of_overflowsAt hover) (Nat.not_le.mpr hdepth)

/-- The kind of a token takes no fuel, like the token. -/
theorem concludes_peekKind {depth : Nat} (hdepth : 2 * depth < wordLimit) (p : Parser σ κ) :
    Concludes sure (Parser.peekKind depth p).1 :=
  (concludes_peek hdepth p).bind fun _ _ _ => .of_isSettled rfl

/-- Neither does a check. -/
theorem concludes_check (k : κ) (p : Parser σ κ) : Concludes sure (Parser.check k p).1 :=
  (concludes_peekKind (by decide) p).bind fun _ _ _ => .of_isSettled rfl

/-- Nor does the sight of the current token. -/
theorem concludes_sight (p : Parser σ κ) : Concludes sure (Parser.sight p).1 :=
  (concludes_peek (by decide) p).bind fun _ _ _ => .of_isSettled rfl

/-- Nor does a check with a step or a complaint behind it. -/
theorem concludes_expect (k : κ) (p : Parser σ κ) : Concludes sure (Parser.expect k p).1 := by
  refine (concludes_check k p).bind ?_
  intro matched q _
  cases matched with
  | true =>
      show Concludes sure (Parser.advance q).1
      rcases Parser.advance_spec q with ⟨w, h, -⟩ | ⟨e, w, h, -⟩
      · rw [h]
        exact .of_isSettled rfl
      · rw [h]
        exact .of_isSettled rfl
  | false => exact (concludes_sight q).bind fun _ _ _ => .of_isSettled rfl

/-- The current token, as far as the calls that have been made tell. -/
theorem check_current {source : σ} {p q : Parser (Metered σ) κ} (hp : p.Steady source) {k : κ}
    (h : Parser.check k p = (.ok true, q)) :
    ∃ t, TokenStream.tokenAt? (TokenStream.produced source q.window.stream.calls) q.absolute =
      some t ∧ t.kind = k := by
  obtain ⟨kind, q₁, hkind, hq⟩ := Run.bind_eq_ok h
  obtain ⟨t, q₂, hpeek, hq₁⟩ := Run.bind_eq_ok hkind
  obtain ⟨hmatched, rfl⟩ := Prod.mk.inj hq
  obtain ⟨hkind', rfl⟩ := Prod.mk.inj hq₁
  -- a check that succeeds has looked, and what it has seen is held at the cursor
  rcases Window.peek_spec 0 p.window with ⟨t', w, hw, hg, ht⟩ | ⟨e, w, hw, -⟩ | ⟨-, hw⟩
  · obtain ⟨n, hfaithful⟩ := (((carries_peek 0).of_eq hp hpeek).1 rfl).faithful
    obtain ⟨htoken, rfl⟩ := Prod.mk.inj (hpeek.symm.trans (Parser.onWindow_ok hw))
    obtain rfl := Except.ok.inj htoken
    refine ⟨t, ?_, ?_⟩
    · refine hfaithful.held _ t ?_
      show w.tokens[w.cursor]? = some t
      rw [hg.cursor]
      exact ht
    · rw [Except.ok.inj hkind']
      exact of_decide_eq_true (Except.ok.inj hmatched)
  · exact nomatch congrArg Prod.fst (hpeek.symm.trans (Parser.onWindow_error hw))
  · exact nomatch congrArg Prod.fst (hpeek.symm.trans (Parser.onWindow_error hw))

/-- A step that succeeds goes on by one token, whether the window is let go behind it or not. -/
theorem absolute_of_advance {p q : Parser σ κ} (h : Parser.advance p = (.ok (), q)) :
    q.absolute = p.absolute + 1 := by
  rcases Parser.advance_spec p with ⟨w, hw, hg, -⟩ | ⟨e, w, hw, -⟩
  · obtain rfl : (p.stepped w).tidied = q := congrArg Prod.snd (hw.symm.trans h)
    have hstepped : (p.stepped w).absolute = p.absolute + 1 := by
      show w.retired + (p.window.cursor + 1) = p.window.retired + p.window.cursor + 1
      rw [hg.retired, Nat.add_assoc]
    rcases (p.stepped w).tidied_cases with ⟨-, -, heq⟩ | heq
    · rw [heq]
      exact (Window.absolute_truncate _).trans hstepped
    · rw [heq]
      exact hstepped
  · exact nomatch congrArg Prod.fst (hw.symm.trans h)

end Operations

/-! ## Parsers that near the end -/

section Nearing

variable [TokenStream σ κ] [DecidableEq κ] [TokenKind κ] {source : σ} {names : String → Prop}
  {sure : Prop} {rules : ν → Expr κ ν}

/-- A steady parser with at most `n` ordinary tokens ahead.  If `sure`, the spans under the names
    fit. -/
structure Parser.Nearing (source : σ) (names : String → Prop) (sure : Prop) (n : Nat)
    (p : Parser (Metered σ) κ) : Prop where
  steady : p.Steady source
  fits : sure → p.Fits names
  ahead : p.Ahead source n

/-- What a quiet evaluation does to the place, to the layout and to the spans. -/
def Abides (source : σ) (names : String → Prop) {α : Type} (m : Parsing (Metered σ) κ α) : Prop :=
  Carries (Parser.Steady source) (Parser.Moves source) m ∧
    Carries (Parser.Fitting source names) (fun _ _ _ => True) m

/-- Both halves are compositional: what moves the parser, and what becomes of the spans. -/
theorem compositional_abides (rules : ν → Expr κ ν) (source : σ) (names : String → Prop) :
    Compositional rules (Expr.Quiet rules) (Abides source names) := by
  have hm := compositional_moves rules source
  have hf := compositional_fitting rules names source
  constructor
  case parts => exact Expr.Quiet.part
  case pure => exact fun a => ⟨hm.pure a, hf.pure a⟩
  case outOfFuel => exact ⟨hm.outOfFuel, hf.outOfFuel⟩
  case fail => exact fun e he => ⟨hm.fail e he, hf.fail e he⟩
  case bind => exact fun h h' => ⟨hm.bind h.1 fun a => (h' a).1, hf.bind h.2 fun a => (h' a).2⟩
  case place => exact fun f => ⟨hm.place f, hf.place f⟩
  case peek => exact fun depth => ⟨hm.peek depth, hf.peek depth⟩
  case advance => exact ⟨hm.advance, hf.advance⟩
  case mark => exact fun h => ⟨hm.mark h, hf.mark (h.quietUnder names)⟩
  case release =>
    exact fun restore h => ⟨hm.release restore h, hf.release restore (h.quietUnder names)⟩
  case speculate => exact fun h => ⟨hm.speculate h.1, hf.speculate h.2⟩
  case memoize =>
    exact fun fuel h hbody =>
      ⟨hm.memoize fuel h hbody.1, hf.memoize fuel (h.quietUnder names) hbody.2⟩

namespace Parser.Nearing

variable {n : Nat} {p q : Parser (Metered σ) κ}

/-- A mark takes nothing from what is ahead. -/
theorem marked (h : p.Nearing source names sure n) : p.marked.Nearing source names sure n :=
  ⟨h.steady.marked, h.fits, h.ahead⟩

/-- And neither does a question to the table. -/
theorem asked (h : p.Nearing source names sure n) (rule : String) :
    (p.asked rule).Nearing source names sure n :=
  ⟨h.steady.asked rule, fun hsure => (h.fits hsure).asked rule, h.ahead⟩

/-- A run that ends with a value or with a complaint about a token leads to such a parser, with
    fewer tokens ahead if the place has changed. -/
theorem step (h : p.Nearing source names sure n) {m : Parsing (Metered σ) κ α}
    (hm : Abides source names m) {r : Except (Halt (ParseError κ)) α} (hr : m p = (r, q))
    (hending : ending r = .settled) {n' : Nat} (hle : p.absolute + n ≤ q.absolute + n') :
    q.Nearing source names sure n' := by
  have hset : isSettled r = true := by
    rw [isSettled_iff_ending, hending]
    exact fun heq => nomatch heq
  obtain ⟨hsteady, ⟨hlistened, -⟩, -⟩ := hm.1.of_eq h.steady hr
  rw [hending] at hlistened
  refine ⟨hsteady hset, ?_, h.ahead.heard hlistened hle⟩
  intro hsure
  exact ((hm.2.of_eq ⟨h.steady, h.fits hsure⟩ hr).1 hset).2

/-- At any rate there are not more. -/
theorem run (h : p.Nearing source names sure n) {m : Parsing (Metered σ) κ α}
    (hm : Abides source names m) {r : Except (Halt (ParseError κ)) α} (hr : m p = (r, q))
    (hending : ending r = .settled) : q.Nearing source names sure n := by
  refine h.step hm hr hending (Nat.add_le_add_right ?_ n)
  obtain ⟨-, ⟨-, honward⟩, -⟩ := hm.1.of_eq h.steady hr
  refine (honward ?_).absolute
  rw [hending]
  exact fun heq => nomatch heq

/-- Passing over an ordinary token leaves fewer of them. -/
theorem expect (h : p.Nearing source names sure n) {k : κ} (hk : k ≠ TokenKind.eof)
    (hr : Parser.expect k p = (.ok (), q)) : ∃ m < n, q.Nearing source names sure m := by
  have hcomp := compositional_abides (fun _ : Unit => Expr.done) source names
  obtain ⟨matched, p₁, hcheck, hrest⟩ := Run.bind_eq_ok (m := Parser.check k) hr
  cases matched with
  | false =>
      obtain ⟨_, _, -, hfail⟩ := Run.bind_eq_ok (m := Parser.sight) hrest
      exact nomatch hfail
  | true =>
      have hp₁ := h.run (hcomp.check k) hcheck rfl
      obtain ⟨t, hcurrent, hkind⟩ := check_current h.steady hcheck
      have hordinary : t.isEof = false := by
        rw [Token.isEof, hkind]
        exact beq_eq_false_iff_ne.mpr hk
      have hpos := hp₁.ahead.pos hcurrent hordinary
      have habsolute := absolute_of_advance hrest
      refine ⟨n - 1, Nat.sub_one_lt_of_lt hpos, ?_⟩
      exact hp₁.step hcomp.advance hrest rfl (by omega)

end Parser.Nearing

/-! ## Fuel that is enough -/

variable {fuel n : Nat}

/-- With this fuel the expression comes to an end from every parser with at most `n` ordinary tokens
    ahead. -/
def Expr.Halts (rules : ν → Expr κ ν) (source : σ) (names : String → Prop) (sure : Prop)
    (fuel n : Nat) (e : Expr κ ν) : Prop :=
  ∀ p : Parser (Metered σ) κ, p.Nearing source names sure n →
    Concludes sure (Expr.eval rules fuel e p).1

/-- Whenever the expression matches, fewer ordinary tokens are ahead. -/
def Expr.Gains (rules : ν → Expr κ ν) (source : σ) (names : String → Prop) (sure : Prop)
    (e : Expr κ ν) : Prop :=
  ∀ ⦃fuel n : Nat⦄ ⦃p q : Parser (Metered σ) κ⦄ ⦃v : Value κ⦄, p.Nearing source names sure n →
    Expr.eval rules fuel e p = (.ok v, q) → ∃ m < n, q.Nearing source names sure m

namespace Expr

/-- An expected token that is not the end of the input is an ordinary one, and it is behind the
    cursor then. -/
theorem gains_expect {k : κ} (hk : k ≠ TokenKind.eof) :
    Gains rules source names sure (.expect k) := by
  intro fuel n p q v hp hr
  cases fuel with
  | zero => exact nomatch hr
  | succ fuel =>
      obtain ⟨⟨⟩, q₁, hexpect, hpure⟩ := Run.bind_eq_ok (m := Parser.expect k) hr
      obtain rfl : q₁ = q := congrArg Prod.snd hpure
      exact hp.expect hk hexpect

/-- If the first part gains, the second may do what it likes, as long as it does not go back. -/
theorem gains_seq {first second : Expr κ ν} (hfirst : Gains rules source names sure first)
    (hsecond : second.Quiet rules) : Gains rules source names sure (.seq first second) := by
  intro fuel n p q v hp hr
  have hcomp := compositional_abides rules source names
  cases fuel with
  | zero => exact nomatch hr
  | succ fuel =>
      obtain ⟨_, p₁, hrun, hrest⟩ :=
        Run.bind_eq_ok (m := Functor.discard (Expr.eval rules fuel first)) hr
      obtain ⟨_, p₂, hrun', hpure⟩ :=
        Run.bind_eq_ok (m := Functor.discard (Expr.eval rules fuel second)) hrest
      obtain rfl : p₂ = q := congrArg Prod.snd hpure
      obtain ⟨_, hrun⟩ := Run.discard_eq_ok hrun
      obtain ⟨_, hrun'⟩ := Run.discard_eq_ok hrun'
      obtain ⟨m, hm, hp₁⟩ := hfirst hp hrun
      exact ⟨m, hm, hp₁.run (hcomp.eval fuel hsecond) hrun' rfl⟩

/-- Nothing to do is done. -/
theorem halts_done : Halts rules source names sure (fuel + 1) n .done :=
  fun _ _ => .of_isSettled rfl

/-- An expected token is there or not; either way it takes one step. -/
theorem halts_expect (k : κ) : Halts rules source names sure (fuel + 1) n (.expect k) :=
  fun p _ => (concludes_expect k p).bind fun _ _ _ => .of_isSettled rfl

/-- A call takes one step more than the rule. -/
theorem halts_call {name : ν} (h : Halts rules source names sure fuel n (rules name)) :
    Halts rules source names sure (fuel + 1) n (.call name) := h

/-- The second part is run from where the first one ends. -/
theorem halts_seq_of {first second : Expr κ ν} (hfirst : Halts rules source names sure fuel n first)
    (hsecond : ∀ {p q v}, p.Nearing source names sure n →
      Expr.eval rules fuel first p = (.ok v, q) →
      Concludes sure (Expr.eval rules fuel second q).1) :
    Halts rules source names sure (fuel + 1) n (.seq first second) := by
  intro p hp
  refine (hfirst p hp).discard.bind ?_
  intro _ q hrun
  obtain ⟨_, hrun⟩ := Run.discard_eq_ok hrun
  refine (hsecond hp hrun).discard.bind ?_
  intro _ _ _
  exact .of_isSettled rfl

/-- Both parts halt with the same fuel, the second from wherever the first leads. -/
theorem halts_seq {first second : Expr κ ν} (hquiet : first.Quiet rules)
    (hfirst : Halts rules source names sure fuel n first)
    (hsecond : Halts rules source names sure fuel n second) :
    Halts rules source names sure (fuel + 1) n (.seq first second) := by
  have hcomp := compositional_abides rules source names
  refine halts_seq_of hfirst ?_
  intro p q v hp hrun
  exact hsecond q (hp.run (hcomp.eval fuel hquiet) hrun rfl)

/-- Behind a gain the second part needs to come to an end only for fewer tokens. -/
theorem halts_seq_of_gains {first second : Expr κ ν}
    (hgains : Gains rules source names sure first)
    (hfirst : Halts rules source names sure fuel n first)
    (hsecond : ∀ m < n, Halts rules source names sure fuel m second) :
    Halts rules source names sure (fuel + 1) n (.seq first second) := by
  refine halts_seq_of hfirst ?_
  intro p q v hp hrun
  obtain ⟨m, hm, hq⟩ := hgains hp hrun
  exact hsecond m hm q hq

/-- The look that decides is a near one, and either branch halts. -/
theorem halts_cond {k : κ} {depth : Nat} {yes no : Expr κ ν} (hdepth : 2 * depth < wordLimit)
    (hyes : Halts rules source names sure fuel n yes)
    (hno : Halts rules source names sure fuel n no) :
    Halts rules source names sure (fuel + 1) n (.cond k depth yes no) := by
  intro p hp
  have hcomp := compositional_abides rules source names
  refine (concludes_peekKind hdepth p).bind ?_
  intro kind q hkind
  have hq := hp.run (hcomp.peekKind depth) hkind rfl
  by_cases hk : kind = k
  · rw [if_pos hk]
    exact hyes q hq
  · rw [if_neg hk]
    exact hno q hq

/-- A loop whose body gains comes to an end if the rest of it does, for fewer tokens. -/
theorem halts_loop {k : κ} {body : Expr κ ν} (hgains : Gains rules source names sure body)
    (hbody : Halts rules source names sure fuel n body)
    (hagain : ∀ m < n, Halts rules source names sure fuel m (.loop k body)) :
    Halts rules source names sure (fuel + 1) n (.loop k body) := by
  intro p hp
  have hcomp := compositional_abides rules source names
  refine (concludes_check k p).bind ?_
  intro matched q hcheck
  have hq := hp.run (hcomp.check k) hcheck rfl
  cases matched with
  | false => exact .of_isSettled rfl
  | true =>
      rw [if_pos rfl]
      refine (hbody q hq).discard.bind ?_
      intro _ q' hrun
      obtain ⟨_, hrun⟩ := Run.discard_eq_ok hrun
      obtain ⟨m, hm, hq'⟩ := hgains hq hrun
      exact hagain m hm q' hq'

/-- A span that is found is jumped over, and a body without bare marks has not gone back when its
    success is recorded. -/
theorem halts_memo {name : String} {body : Expr κ ν} (hname : names name)
    (hquiet : body.Quiet rules) (hbody : Halts rules source names sure fuel n body) :
    Halts rules source names sure (fuel + 1) n (.memo name body) := by
  intro p hp
  have hcomp := compositional_moves rules source
  have hmoves := hcomp.discard (hcomp.eval fuel hquiet)
  suffices hmemo : Concludes sure
      (Parser.memoize name (Functor.discard (Expr.eval rules fuel body)) p).1 from
    hmemo.bind fun _ _ _ => .of_isSettled rfl
  -- as the code decides; the jump needs the span to fit, and the recording a body that moved on
  cases hon : p.options.memoize with
  | false =>
      rw [Parser.memoize_of_off hon]
      exact (hbody p hp).discard
  | true =>
      cases hfind : p.memo.find? name p.absolute with
      | some span =>
          constructor
          · rw [Parser.memoize_of_found hon hfind]
            exact Parser.jump_ne_outOfFuel span _
          · intro hsure
            rw [(hp.fits hsure).memoize_of_found hname hon hfind]
            rfl
      | none =>
          have hasked := hp.asked name
          have hconcludes := (hbody _ hasked).discard
          rw [Parser.memoize_of_miss hon hfind]
          rcases hr : Functor.discard (Expr.eval rules fuel body) (p.asked name) with ⟨e | ⟨⟩, q⟩
          · rw [hr] at hconcludes
            rw [Parser.runAndRecord_of_error hr]
            exact hconcludes
          · have hforward := (hmoves.of_eq hasked.steady hr).2.2 fun heq => nomatch heq
            rw [Parser.runAndRecord_of_ok hforward hr]
            exact .of_isSettled rfl

/-- Each alternative halts when it is speculated on, and afterwards the parser is as near to the end
    as before.  So the next one halts, too, and so does the one that is run for good. -/
theorem concludes_chooseFrom {name : String} {alternatives : List (Parsing (Metered σ) κ Unit)}
    (habides : ∀ m ∈ alternatives, Abides source names m)
    (hhalts : ∀ m ∈ alternatives, ∀ p, p.Nearing source names sure n → Concludes sure (m p).1)
    (furthest : Option (ParseError κ)) {p : Parser (Metered σ) κ}
    (hp : p.Nearing source names sure n) :
    Concludes sure (Parser.chooseFrom name furthest alternatives p).1 := by
  have hcomp := compositional_abides (fun _ : Unit => Expr.done) source names
  -- on the alternatives: a refused one leaves as many tokens ahead as before
  induction alternatives generalizing furthest p with
  | nil =>
      refine (concludes_sight p).bind ?_
      intro _ _ _
      exact .of_isSettled rfl
  | cons m rest ih =>
      have hm := habides m List.mem_cons_self
      have hspeculate : Concludes sure (Parser.speculate m p).1 := by
        obtain ⟨q, hs, -⟩ := speculate_steady hm.1 hp.steady
        rw [hs]
        exact (hhalts m List.mem_cons_self _ hp.marked).verdict
      refine hspeculate.bind ?_
      intro outcome q hs
      have hq := hp.run (hcomp.speculate hm) hs rfl
      cases outcome with
      | none => exact hhalts m List.mem_cons_self q hq
      | some e =>
          refine ih ?_ ?_ _ hq
          · intro m' hm'
            exact habides m' (List.mem_cons_of_mem _ hm')
          · intro m' hm'
            exact hhalts m' (List.mem_cons_of_mem _ hm')

/-- A decision takes one step more than its alternatives. -/
theorem halts_choose {name : String} {alternatives : List (Expr κ ν)}
    (hquiet : ∀ e ∈ alternatives, e.Quiet rules)
    (h : ∀ e ∈ alternatives, Halts rules source names sure fuel n e) :
    Halts rules source names sure (fuel + 1) n (.choose name alternatives) := by
  intro p hp
  have hcomp := compositional_abides rules source names
  suffices hchoose : Concludes sure (Parser.choose name
      (alternatives.map fun e => Functor.discard (Expr.eval rules fuel e)) p).1 from
    hchoose.bind fun _ _ _ => .of_isSettled rfl
  refine concludes_chooseFrom ?_ ?_ none hp
  · intro m hm
    obtain ⟨e, he, rfl⟩ := List.mem_map.mp hm
    exact hcomp.discard (hcomp.eval fuel (hquiet e he))
  · intro m hm q hq
    obtain ⟨e, he, rfl⟩ := List.mem_map.mp hm
    exact (h e he q hq).discard

end Expr

end Nearing

end Packrat
