import Mathlib.Control.Monad.Basic
import Packrat.CharStream
import Packrat.Proofs.Simulation

/-! # The memo table cannot be seen

    A session with the memo table and one without it both follow the tape, so they
    answer every operation alike: with the same outcome, at the same position, with
    the same marks, and after the same calls into the stream.  One of them comes to
    an end exactly when the other does.

    There is one way to see the difference.  A parser that has jumped over a span
    still holds its tokens, while one that has run over them may have let them go;
    with an enormous depth the index of a token leaves the 64-bit range in the first
    and stays inside it in the second. -/

namespace Packrat

variable {σ κ ν : Type}

/-- What can be observed of an operation on a parser over a metered stream. -/
structure Reply (κ : Type) where
  outcome : Except (Halt (ParseError κ)) (Value κ)
  position : Nat
  marks : Nat
  pulled : Nat
  calls : Nat

def Reply.ofParser (o : Except (Halt (ParseError κ)) (Value κ) × Parser (Metered σ) κ) : Reply κ :=
  ⟨o.1, o.2.absolute, o.2.marks.depth, o.2.window.pulled, o.2.window.stream.calls⟩

def Reply.ofTape (o : Except (Halt (ParseError κ)) (Value κ) × Tape (Metered σ) κ) : Reply κ :=
  ⟨o.1, o.2.position, o.2.marks.length, o.2.pulled, o.2.stream.calls⟩

variable [TokenStream σ κ] [DecidableEq κ] [TokenKind κ]

/-- With enough fuel the session on `p` runs through all operations and gives these replies. -/
def Answers (rules : ν → Expr κ ν) (ops : List (Expr κ ν)) (p : Parser (Metered σ) κ)
    (replies : List (Reply κ)) : Prop :=
  ∃ fuel, (∀ o ∈ Expr.session rules fuel ops p, isSettled o.1 = true) ∧
    (Expr.session rules fuel ops p).map Reply.ofParser = replies

/-- The session on `p` comes to an end. -/
def Terminates (rules : ν → Expr κ ν) (ops : List (Expr κ ν)) (p : Parser (Metered σ) κ) : Prop :=
  ∃ replies, Answers rules ops p replies

/-- The session on `p` breaks off because the index of a token leaves the 64-bit range. -/
def Overflows (rules : ν → Expr κ ν) (ops : List (Expr κ ν)) (p : Parser σ κ) : Prop :=
  ∃ fuel, ∃ o ∈ Expr.session rules fuel ops p, o.1 = .error (.fault .lookaheadOverflow)

/-! ## Sessions step by step -/

namespace Run

variable {S ε α : Type}

theorem session_cons {m : Run S ε α} {ms : List (Run S ε α)} {s s' : S}
    {r : Except (Halt ε) α} (h : m s = (r, s')) (hr : isSettled r = true) :
    session (m :: ms) s = (r, s') :: session ms s' := by
  rw [session, h, if_pos hr]

/-- A session that is run through goes through its first operation. -/
theorem settled_of_session_cons {m : Run S ε α} {ms : List (Run S ε α)} {s s' : S}
    {r : Except (Halt ε) α} (h : m s = (r, s'))
    (hall : ∀ o ∈ session (m :: ms) s, isSettled o.1 = true) :
    isSettled r = true ∧ ∀ o ∈ session ms s', isSettled o.1 = true := by
  have hr : isSettled r = true := by
    refine hall (r, s') ?_
    rw [session, h]
    exact List.mem_cons_self
  rw [session_cons h hr] at hall
  exact ⟨hr, fun o ho => hall o (List.mem_cons_of_mem _ ho)⟩

end Run

/-- A session on the tape that is run through is the same with more fuel. -/
theorem Tape.session_eq_of_le (rules : ν → Expr κ ν) {k k' : Nat} (hk : k ≤ k')
    {ops : List (Expr κ ν)} {t : Tape σ κ}
    (h : ∀ o ∈ Tape.session rules k ops t, isSettled o.1 = true) :
    Tape.session rules k' ops t = Tape.session rules k ops t := by
  induction ops generalizing t with
  | nil => rfl
  | cons e es ih =>
      rcases hr : Tape.eval rules k e t with ⟨r, u⟩
      obtain ⟨hset, hrest⟩ := Run.settled_of_session_cons hr h
      have hr' := (Tape.eval_rising rules e).eq_of_le hr hset hk
      calc Tape.session rules k' (e :: es) t
          = (r, u) :: Tape.session rules k' es u := Run.session_cons hr' hset
        _ = (r, u) :: Tape.session rules k es u := by rw [ih hrest]
        _ = Tape.session rules k (e :: es) t := (Run.session_cons hr hset).symm

section

variable {d : Discipline κ ν} {rules : ν → Expr κ ν}

omit [TokenStream σ κ] in
/-- In step, a parser and a tape look the same. -/
theorem Mirrors.reply_eq [TokenStream (Metered σ) κ] {p : Parser (Metered σ) κ}
    {t : Tape (Metered σ) κ} (h : Mirrors d rules p t)
    (r : Except (Halt (ParseError κ)) (Value κ)) :
    Reply.ofTape (r, t) = Reply.ofParser (r, p) := by
  have hmarks : t.marks.length = p.marks.depth := by
    rw [← h.marks, List.length_map]
    rfl
  show Reply.mk r t.position t.marks.length t.pulled t.stream.calls
    = Reply.mk r p.window.absolute p.marks.depth p.window.pulled p.window.stream.calls
  rw [hmarks, h.window.absolute, h.window.pulled, h.window.stream]

/-- What a parser answers the tape answers, with some fuel. -/
theorem session_to_tape (hrules : d.Governs rules) (hfun : d.Functional) (fuel : Nat)
    {ops : List (Expr κ ν)} (hops : ∀ e ∈ ops, Lawful d true e) {p : Parser (Metered σ) κ}
    {t : Tape (Metered σ) κ} (hp : Mirrors d rules p t)
    (h : ∀ o ∈ Expr.session rules fuel ops p, isSettled o.1 = true) :
    ∃ k, (∀ o ∈ Tape.session rules k ops t, isSettled o.1 = true) ∧
      (Tape.session rules k ops t).map Reply.ofTape
        = (Expr.session rules fuel ops p).map Reply.ofParser := by
  induction ops generalizing p t with
  | nil => exact ⟨0, (fun _ ho => nomatch ho), rfl⟩
  | cons e es ih =>
      rcases hr : Expr.eval rules fuel e p with ⟨r, q⟩
      obtain ⟨hset, hrest⟩ := Run.settled_of_session_cons hr h
      have htracked := (eval_follows hrules hfun fuel (hops e List.mem_cons_self)).tracked p t hp
      rw [hr] at htracked
      cases htracked with
      | starved _ => exact nomatch hset
      | overflow => exact nomatch hset
      | @settled _ _ k u _ hk hq =>
          obtain ⟨k', hall, hreplies⟩ :=
            ih (fun e he => hops e (List.mem_cons_of_mem _ he)) hq hrest
          -- enough fuel for the first operation and for the rest
          have hk₁ := (Tape.eval_rising rules e).eq_of_le hk hset (Nat.le_max_left k k')
          have hk₂ := Tape.session_eq_of_le rules (Nat.le_max_right k k') hall
          have hcons : Tape.session rules (max k k') (e :: es) t
              = (r, u) :: Tape.session rules k' es u :=
            (Run.session_cons hk₁ hset).trans (congrArg _ hk₂)
          refine ⟨max k k', ?_, ?_⟩
          · rw [hcons]
            intro o ho
            rcases List.mem_cons.mp ho with rfl | ho'
            · exact hset
            · exact hall o ho'
          · have hsession : Expr.session rules fuel (e :: es) p
                = (r, q) :: Expr.session rules fuel es q := Run.session_cons hr hset
            rw [hcons, hsession, List.map_cons, List.map_cons, hreplies, hq.reply_eq r]

/-- What the tape answers a parser answers with the same fuel, unless an index leaves the 64-bit
    range. -/
theorem session_of_tape (hrules : d.Governs rules) (hfun : d.Functional) (fuel : Nat)
    {ops : List (Expr κ ν)} (hops : ∀ e ∈ ops, Lawful d true e) {p : Parser σ κ}
    {t : Tape σ κ} (hp : Mirrors d rules p t)
    (h : ∀ o ∈ Tape.session rules fuel ops t, isSettled o.1 = true) :
    (∃ o ∈ Expr.session rules fuel ops p, o.1 = .error (.fault .lookaheadOverflow)) ∨
      ∀ o ∈ Expr.session rules fuel ops p, isSettled o.1 = true := by
  induction ops generalizing p t with
  | nil => exact Or.inr fun _ ho => nomatch ho
  | cons e es ih =>
      rcases hr : Tape.eval rules fuel e t with ⟨r, u⟩
      obtain ⟨hset, hrest⟩ := Run.settled_of_session_cons hr h
      have hfollows := eval_follows (σ := σ) hrules hfun fuel (hops e List.mem_cons_self)
      have htracked := hfollows.tracked p t hp
      rcases hp' : Expr.eval rules fuel e p with ⟨r', q⟩
      rw [hp'] at htracked
      -- the parser needs no more fuel than the tape
      rcases htracked.of_settled hfollows.rising hr hset with rfl | ⟨rfl, hq⟩
      · refine Or.inl ⟨(.error (.fault .lookaheadOverflow), q), ?_, rfl⟩
        rw [Expr.session, List.map_cons, Run.session, hp']
        exact List.mem_cons_self
      · rw [show Expr.session rules fuel (e :: es) p = _ from Run.session_cons hp' hset]
        rcases ih (fun e he => hops e (List.mem_cons_of_mem _ he)) hq hrest with
          ⟨o, ho, hover⟩ | hall
        · exact Or.inl ⟨o, List.mem_cons_of_mem _ ho, hover⟩
        · refine Or.inr fun o ho => ?_
          rcases List.mem_cons.mp ho with rfl | ho'
          · exact hset
          · exact hall o ho'

/-- Two sessions on one tape that are run through give the same replies. -/
theorem Tape.replies_unique {ops : List (Expr κ ν)} {t : Tape (Metered σ) κ} {k k' : Nat}
    (h : ∀ o ∈ Tape.session rules k ops t, isSettled o.1 = true)
    (h' : ∀ o ∈ Tape.session rules k' ops t, isSettled o.1 = true) :
    Tape.session rules k ops t = Tape.session rules k' ops t := by
  rcases Nat.le_total k k' with hle | hle
  · exact (Tape.session_eq_of_le rules hle h).symm
  · exact Tape.session_eq_of_le rules hle h'

/-- An index leaves the 64-bit range only at a depth that large. -/
theorem deep_of_overflows (hrules : d.Governs rules) {ops : List (Expr κ ν)}
    (hops : ∀ e ∈ ops, Lawful d true e) {p : Parser σ κ} (hp : p.Sound)
    (h : Overflows rules ops p) : d.Deep := by
  obtain ⟨fuel, o, ho, hover⟩ := h
  -- up to the operation that breaks off, the parser stays sound
  induction ops generalizing p with
  | nil => exact nomatch ho
  | cons e es ih =>
      have hkeeps := eval_orderly hrules fuel (hops e List.mem_cons_self) p hp
      rw [Expr.session, List.map_cons, Run.session] at ho
      rcases List.mem_cons.mp ho with rfl | ho'
      · exact (hkeeps.harmless _ hover).2
      · cases hset : isSettled (Expr.eval rules fuel e p).1 with
        | true =>
            rw [if_pos hset] at ho'
            exact ih (fun e he => hops e (List.mem_cons_of_mem _ he)) hkeeps.sound ho'
        | false =>
            rw [if_neg (hset ▸ Bool.false_ne_true)] at ho'
            exact nomatch ho'

/-- Two parsers in step with one tape: what one of them answers the other answers, or it breaks
    off. -/
theorem answers_of_mirrors (hrules : d.Governs rules) (hfun : d.Functional)
    {ops : List (Expr κ ν)} (hops : ∀ e ∈ ops, Lawful d true e) {p q : Parser (Metered σ) κ}
    {t : Tape (Metered σ) κ} (hp : Mirrors d rules p t) (hq : Mirrors d rules q t)
    (hover : ¬ Overflows rules ops q) {replies : List (Reply κ)} (h : Answers rules ops p replies) :
    Answers rules ops q replies ∧
      ∀ replies', Answers rules ops q replies' → replies = replies' := by
  obtain ⟨fuel, hset, rfl⟩ := h
  obtain ⟨k, hk, hreplies⟩ := session_to_tape hrules hfun fuel hops hp hset
  -- any session on `q` that is run through gives the replies of the tape
  have hsame : ∀ fuel', (∀ o ∈ Expr.session rules fuel' ops q, isSettled o.1 = true) →
      (Expr.session rules fuel ops p).map Reply.ofParser
        = (Expr.session rules fuel' ops q).map Reply.ofParser := by
    intro fuel' hset'
    obtain ⟨k', hk', hreplies'⟩ := session_to_tape hrules hfun fuel' hops hq hset'
    rw [← hreplies, ← hreplies', Tape.replies_unique hk hk']
  constructor
  · rcases session_of_tape hrules hfun k hops hq hk with hbroken | hset'
    · exact absurd ⟨k, hbroken⟩ hover
    · exact ⟨k, hset', (hsame k hset').symm⟩
  · rintro _ ⟨fuel', hset', rfl⟩
    exact hsame fuel' hset'

end

/-! ## Transparency -/

/-- **Memoization is transparent**: unless an index leaves the 64-bit range, which takes a lookahead
    of half that range, a session with the memo table ends exactly when the one without it does, and
    both give the same replies. -/
theorem memo_transparent {d : Discipline κ ν} {rules : ν → Expr κ ν} (hrules : d.Governs rules)
    (hfun : d.Functional) {ops : List (Expr κ ν)} (hops : ∀ e ∈ ops, Lawful d true e)
    (stream : σ) (capacity capacity' : Nat) :
    let on : Parser (Metered σ) κ := .new (.new stream) ⟨true, capacity⟩
    let off : Parser (Metered σ) κ := .new (.new stream) ⟨false, capacity'⟩
    (Overflows rules ops on ∨ Overflows rules ops off → d.Deep) ∧
      (¬ Overflows rules ops on → ¬ Overflows rules ops off →
        (Terminates rules ops on ↔ Terminates rules ops off) ∧
        ∀ replies replies', Answers rules ops on replies → Answers rules ops off replies' →
          replies = replies') := by
  intro on off
  have hon : Mirrors d rules on (Tape.new (.new stream)) := mirrors_new _ _
  have hoff : Mirrors d rules off (Tape.new (.new stream)) := mirrors_new _ _
  constructor
  · rintro (h | h)
    · exact deep_of_overflows hrules hops hon.sound h
    · exact deep_of_overflows hrules hops hoff.sound h
  · intro hsafe hsafe'
    -- both parsers are in step with one tape, so it does not matter which comes first
    refine ⟨⟨?_, ?_⟩, ?_⟩
    · rintro ⟨replies, h⟩
      exact ⟨replies, (answers_of_mirrors hrules hfun hops hon hoff hsafe' h).1⟩
    · rintro ⟨replies, h⟩
      exact ⟨replies, (answers_of_mirrors hrules hfun hops hoff hon hsafe h).1⟩
    · intro replies replies' h h'
      exact (answers_of_mirrors hrules hfun hops hon hoff hsafe' h).2 replies' h'

/-- Two tokens are remembered, taken back and taken again, and the call behind them fails: with and
    without the memo table all of this looks the same. -/
theorem memo_transparent_pair :
    let rules : Unit → Expr Char Unit := fun _ => .seq .advance .advance
    let pair : Expr Char Unit := .memo "pair" (.call ())
    let ops := [.mark, pair, .release true, pair, .peek 0, .peek 1]
    ∃ replies,
      Answers rules ops (.new (.new (CharStream.ofText "ab?c")) ⟨true, 16⟩) replies ∧
      Answers rules ops (.new (.new (CharStream.ofText "ab?c")) ⟨false, 16⟩) replies := by
  intro rules pair ops
  let d : Discipline Char Unit :=
    ⟨fun _ => True, fun name body => name = "pair" ∧ body = .call (), fun depth => depth < 2⟩
  have hrules : d.Governs rules := fun _ _ _ => .seq .advance .advance
  have hfun : d.Functional := by
    rintro name body body' ⟨-, rfl⟩ ⟨-, rfl⟩
    rfl
  have hpair : Lawful d true pair := .memo ⟨rfl, rfl⟩ (.call fun _ => trivial)
  have hops : ∀ e ∈ ops, Lawful d true e := by
    simp only [ops, List.forall_mem_cons]
    exact ⟨.mark, hpair, .release, hpair, .peek (by decide), .peek (by decide),
      fun _ h => nomatch h⟩
  have hshallow : ¬ d.Deep := by
    rintro ⟨depth, hlt, hle⟩
    have hlt' : depth < 2 := hlt
    have hle' : 0x10000000000000000 ≤ 2 * depth := hle
    omega
  obtain ⟨hdeep, htransparent⟩ := memo_transparent hrules hfun hops (CharStream.ofText "ab?c") 16 16
  obtain ⟨hends, hsame⟩ := htransparent (fun h => hshallow (hdeep (Or.inl h)))
    (fun h => hshallow (hdeep (Or.inr h)))
  have hon : Answers rules ops (.new (.new (CharStream.ofText "ab?c")) ⟨true, 16⟩) _ :=
    ⟨4, by decide +kernel, rfl⟩
  obtain ⟨replies', hoff⟩ := hends.mp ⟨_, hon⟩
  refine ⟨replies', ?_, hoff⟩
  rw [← hsame _ _ hon hoff]
  exact hon

/-- **An enormous lookahead sees the memo table**: behind the pair the remembering parser still
    holds two tokens and the index leaves the 64-bit range, while the other one has let them go and
    gets to the lexical error. -/
theorem memo_seen_at_enormous_depth :
    let rules : Unit → Expr Char Unit := fun _ => .seq .advance .advance
    let pair : Expr Char Unit := .memo "pair" (.call ())
    let ops := [.mark, pair, .release true, pair, .peek (wordLimit - 2)]
    let outcomes (memoize : Bool) :=
      (Expr.session rules 4 ops (.new (Metered.new (CharStream.ofText "ab?")) ⟨memoize, 16⟩)).map
        (·.1)
    (∃ d : Discipline Char Unit, d.Governs rules ∧ d.Functional ∧ ∀ e ∈ ops, Lawful d true e) ∧
      (outcomes true)[4]? = some (.error (.fault .lookaheadOverflow)) ∧
      (outcomes false)[4]?
        = some (.error (.failed (.lexical (.invalidCharacter '?' ⟨1, 3, 2⟩)))) := by
  intro rules pair ops outcomes
  refine ⟨?_, by decide +kernel, by decide +kernel⟩
  let d : Discipline Char Unit :=
    ⟨fun _ => True, fun name body => name = "pair" ∧ body = .call (), fun _ => True⟩
  have hpair : Lawful d true pair := .memo ⟨rfl, rfl⟩ (.call fun _ => trivial)
  refine ⟨d, fun _ _ _ => .seq .advance .advance, ?_, ?_⟩
  · rintro name body body' ⟨-, rfl⟩ ⟨-, rfl⟩
    rfl
  · simp only [ops, List.forall_mem_cons]
    exact ⟨.mark, hpair, .release, hpair, .peek trivial, fun _ h => nomatch h⟩

end Packrat
