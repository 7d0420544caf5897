import Packrat.Proofs.Transparency

/-! # Letting tokens go cannot be seen

    Without the memo table a parser differs from the tape in one thing: it lets
    tokens go and counts anew from those that are left.  Here the two are run side
    by side with the same fuel.  They do the same in every step, whatever marks are
    set and released on the way, also inside an attempt or a choice: tokens go only
    when no mark is outstanding, so a mark always stands for the same token on both
    sides.

    What remains is the 64-bit range.  The index of a token counts from the first
    one that is still held, so an enormous lookahead may leave the range or stay in
    it according to what was let go before.  A session that breaks off in this way
    has been in step with the tape until then. -/

namespace Packrat

variable {σ κ ν α β : Type}

/-- The token at this depth is looked at in the expression, or in one that it refers to. -/
inductive Expr.LooksAt (rules : ν → Expr κ ν) : Expr κ ν → Nat → Prop where
  | peek {depth} : LooksAt rules (.peek depth) depth
  | peekKind {depth} : LooksAt rules (.peekKind depth) depth
  | attempt {body depth} : LooksAt rules body depth → LooksAt rules (.attempt body) depth
  | choose {name alternatives e depth} : e ∈ alternatives → LooksAt rules e depth →
      LooksAt rules (.choose name alternatives) depth
  | memo {name body depth} : LooksAt rules body depth → LooksAt rules (.memo name body) depth
  | seqFirst {first second depth} : LooksAt rules first depth →
      LooksAt rules (.seq first second) depth
  | seqSecond {first second depth} : LooksAt rules second depth →
      LooksAt rules (.seq first second) depth
  | cond {k yes no depth} : LooksAt rules (.cond k depth yes no) depth
  | condYes {k place yes no depth} : LooksAt rules yes depth →
      LooksAt rules (.cond k place yes no) depth
  | condNo {k place yes no depth} : LooksAt rules no depth →
      LooksAt rules (.cond k place yes no) depth
  | loop {k body depth} : LooksAt rules body depth → LooksAt rules (.loop k body) depth
  | trialGuard {guard yes no depth} : LooksAt rules guard depth →
      LooksAt rules (.trial guard yes no) depth
  | trialYes {guard yes no depth} : LooksAt rules yes depth →
      LooksAt rules (.trial guard yes no) depth
  | trialNo {guard yes no depth} : LooksAt rules no depth →
      LooksAt rules (.trial guard yes no) depth
  | call {name depth} : LooksAt rules (rules name) depth → LooksAt rules (.call name) depth

/-- Nothing is promised about what is remembered. -/
def Discipline.unmemoized : Discipline κ ν := ⟨fun _ => True, fun _ _ => False, fun _ => True⟩

variable [TokenStream σ κ] [DecidableEq κ] [TokenKind κ]

/-- The parser does without the memo table and is in step with the tape. -/
structure InStep (rules : ν → Expr κ ν) (p : Parser σ κ) (t : Tape σ κ) : Prop where
  off : p.options.memoize = false
  mirrors : Mirrors .unmemoized rules p t

/-- The two outcomes are the same and leave the parser in step, unless the index of a token at one
    of the depths in `P` leaves the 64-bit range. -/
inductive Paced (rules : ν → Expr κ ν) (P : Nat → Prop) :
    Except (Halt (ParseError κ)) α × Parser σ κ →
      Except (Halt (ParseError κ)) α × Tape σ κ → Prop where
  | even {r p t} : InStep rules p t → Paced rules P (r, p) (r, t)
  | overflow {depth p o} : P depth → p.window.overflowsAt depth = true →
      Paced rules P (.error (.fault .lookaheadOverflow), p) o

/-- Run side by side from a parser and a tape in step, the computations come to such outcomes. -/
def Lockstep (rules : ν → Expr κ ν) (P : Nat → Prop) (m : Parsing σ κ α)
    (M : Reading σ κ α) : Prop :=
  ∀ p t, InStep rules p t → Paced rules P (m p) (M t)

namespace Lockstep

variable {rules : ν → Expr κ ν} {P P' : Nat → Prop}

/-- More depths may be looked at than are. -/
theorem mono {m : Parsing σ κ α} {M : Reading σ κ α} (h : Lockstep rules P m M)
    (hP : ∀ depth, P depth → P' depth) : Lockstep rules P' m M := by
  intro p t hp
  have h₁ := h p t hp
  rcases hr : m p with ⟨r, q⟩
  rcases hR : M t with ⟨R, u⟩
  rw [hr, hR] at h₁
  cases h₁ with
  | even hq => exact .even hq
  | overflow hdepth ho => exact .overflow (hP _ hdepth) ho

/-- In step after the first part, both do the second. -/
theorem bind {m : Parsing σ κ α} {M : Reading σ κ α} {f : α → Parsing σ κ β}
    {F : α → Reading σ κ β} (hm : Lockstep rules P m M)
    (hf : ∀ a, Lockstep rules P (f a) (F a)) : Lockstep rules P (m >>= f) (M >>= F) := by
  intro p t hp
  have h₁ := hm p t hp
  rcases hr : m p with ⟨r, q⟩
  rcases hR : M t with ⟨R, u⟩
  rw [hr, hR] at h₁
  cases h₁ with
  | overflow hdepth ho =>
      rw [Run.bind_of_error hr]
      exact .overflow hdepth ho
  | even hq =>
      cases r with
      | ok a =>
          rw [Run.bind_of_ok hr, Run.bind_of_ok hR]
          exact hf a q u hq
      | error e =>
          rw [Run.bind_of_error hr, Run.bind_of_error hR]
          exact .even hq

/-- Settling keeps the two outcomes the same, and an overflow is no complaint that could be
    settled. -/
theorem settle {m : Parsing σ κ α} {M : Reading σ κ α} (h : Lockstep rules P m M) :
    Lockstep rules P m.settle M.settle := by
  intro p t hp
  have h₁ := h p t hp
  rcases hr : m p with ⟨r, q⟩
  rcases hR : M t with ⟨R, u⟩
  rw [hr, hR] at h₁
  cases h₁ with
  | overflow hdepth ho =>
      rw [Run.settle_of_fault hr]
      exact .overflow hdepth ho
  | even hq =>
      match r, hr, hR with
      | .ok a, hr, hR =>
          rw [Run.settle_of_ok hr, Run.settle_of_ok hR]
          exact .even hq
      | .error (.failed e), hr, hR =>
          rw [Run.settle_of_failed hr, Run.settle_of_failed hR]
          exact .even hq
      | .error (.fault c), hr, hR =>
          rw [Run.settle_of_fault hr, Run.settle_of_fault hR]
          exact .even hq
      | .error .outOfFuel, hr, hR =>
          rw [Run.settle_of_outOfFuel hr, Run.settle_of_outOfFuel hR]
          exact .even hq

/-- Both take the same branch. -/
theorem ite {c : Prop} [Decidable c] {m m' : Parsing σ κ α} {M M' : Reading σ κ α}
    (h : Lockstep rules P m M) (h' : Lockstep rules P m' M') :
    Lockstep rules P (if c then m else m') (if c then M else M') := by
  by_cases hc : c
  · rw [if_pos hc, if_pos hc]
    exact h
  · rw [if_neg hc, if_neg hc]
    exact h'

/-- An answer without a step keeps both in step. -/
theorem pure (a : α) :
    Lockstep rules P (Pure.pure a : Parsing σ κ α) (Pure.pure a : Reading σ κ α) :=
  fun _ _ hp => .even hp

/-- And so does a halt. -/
theorem halt (h : Halt (ParseError κ)) :
    Lockstep rules P (Run.halt h : Parsing σ κ α) (Run.halt h : Reading σ κ α) :=
  fun _ _ hp => .even hp

/-- Neither needs the answer. -/
theorem discard {m : Parsing σ κ α} {M : Reading σ κ α} (h : Lockstep rules P m M) :
    Lockstep rules P (Functor.discard m : Parsing σ κ PUnit)
      (Functor.discard M : Reading σ κ PUnit) :=
  h.bind fun _ => Lockstep.pure PUnit.unit

/-- A step that a parser and a tape in step take together. -/
theorem of_together {m : Parsing σ κ α} {M : Reading σ κ α}
    (h : ∀ p t, Mirrors .unmemoized rules p t → Together .unmemoized rules m M p t) :
    Lockstep rules P m M := by
  intro p t hp
  obtain ⟨r, q, t', hm, hM, -, hoptions, hq⟩ := h p t hp.mirrors
  rw [hm, hM]
  refine .even ⟨?_, hq⟩
  rw [hoptions]
  exact hp.off

/-- A mark is one step on either side. -/
theorem mark : Lockstep rules P (Parser.mark : Parsing σ κ Nat) Tape.mark :=
  of_together fun _ _ hp => hp.mark_step

/-- So is a release. -/
theorem release (restore : Bool) :
    Lockstep rules P (Parser.release restore : Parsing σ κ Unit) (Tape.release restore) :=
  of_together fun _ _ hp => hp.release_step restore

/-- And so is a step over a token. -/
theorem advance : Lockstep rules P (Parser.advance : Parsing σ κ Unit) Tape.advance :=
  of_together fun _ _ hp => hp.advance_step

/-- The only step in which the two can part. -/
theorem peek {depth : Nat} (hdepth : P depth) :
    Lockstep rules P (Parser.peek depth : Parsing σ κ (Token κ)) (Tape.peek depth) := by
  intro p t hp
  cases ho : p.window.overflowsAt depth with
  | true =>
      rw [Parser.peek_of_overflows ho]
      exact .overflow hdepth ho
  | false =>
      obtain ⟨r, q, t', hm, hM, -, hoptions, hq⟩ := hp.mirrors.peek_step ho
      rw [hm, hM]
      refine .even ⟨?_, hq⟩
      rw [hoptions]
      exact hp.off

/-- The current token is never too far away. -/
theorem peek_zero : Lockstep rules P (Parser.peek 0 : Parsing σ κ (Token κ)) (Tape.peek 0) := by
  intro p t hp
  have hzero : Lockstep rules (· = 0) (Parser.peek 0 : Parsing σ κ (Token κ)) (Tape.peek 0) :=
    peek rfl
  have h₁ := hzero p t hp
  rcases hr : Parser.peek 0 p with ⟨r, q⟩
  rcases hR : Tape.peek 0 t with ⟨R, u⟩
  rw [hr, hR] at h₁
  cases h₁ with
  | even hq => exact .even hq
  | overflow hdepth ho =>
      subst hdepth
      exact absurd (Window.le_of_overflowsAt ho) (by decide)

/-- A check looks at the current token.  The index of that one never leaves the range. -/
theorem check (k : κ) : Lockstep rules P (Parser.check k : Parsing σ κ Bool) (Tape.check k) :=
  (peek_zero.bind fun _ => Lockstep.pure _).bind fun _ => Lockstep.pure _

/-- Neither does that of a token which is shown. -/
theorem sight : Lockstep rules P (Parser.sight : Parsing σ κ (Sighting κ)) Tape.sight := by
  refine peek_zero.bind fun k => of_together fun p t hp => ?_
  refine ⟨.ok (.ofToken p.absolute k), p, t, rfl, ?_, rfl, rfl, hp⟩
  rw [Run.read_apply, ← hp.window.absolute]
  rfl

/-- Nor that of one which is expected. -/
theorem expect (k : κ) : Lockstep rules P (Parser.expect k : Parsing σ κ Unit) (Tape.expect k) :=
  (check k).bind fun _ => Lockstep.ite advance (sight.bind fun _ => Lockstep.halt _)

/-- A mark, the rule and a release are each in step. -/
theorem speculate {rule : Parsing σ κ Unit} {M : Reading σ κ Unit} (h : Lockstep rules P rule M) :
    Lockstep rules P (Parser.speculate rule) (Tape.speculate M) := by
  -- the rule may touch the marks: both sides have the same ones when it ends
  refine mark.bind fun _ => h.settle.bind fun outcome => (release true).bind fun _ => ?_
  match outcome with
  | .ok () => exact Lockstep.pure none
  | .error e => exact Lockstep.ite (Lockstep.pure (some e)) (Lockstep.halt _)

/-- An attempt is a speculation. -/
theorem attempt {rule : Parsing σ κ Unit} {M : Reading σ κ Unit} (h : Lockstep rules P rule M) :
    Lockstep rules P (Parser.attempt rule) (Tape.attempt M) :=
  (speculate h).bind fun _ => Lockstep.pure _

/-- The alternatives have the same verdicts on both sides, one after the other. -/
theorem chooseFrom (name : String) {es : List (Expr κ ν)} {f : Expr κ ν → Parsing σ κ Unit}
    {F : Expr κ ν → Reading σ κ Unit} (h : ∀ e ∈ es, Lockstep rules P (f e) (F e))
    (furthest : Option (ParseError κ)) :
    Lockstep rules P (Parser.chooseFrom name furthest (es.map f))
      (Tape.chooseFrom name furthest (es.map F)) := by
  induction es generalizing furthest with
  | nil => exact sight.bind fun _ => Lockstep.halt _
  | cons e es ih =>
      refine (speculate (h e List.mem_cons_self)).bind ?_
      intro outcome
      cases outcome with
      | none => exact h e List.mem_cons_self
      | some error => exact ih (fun e' he' => h e' (List.mem_cons_of_mem _ he')) _

/-- Without the memo table a memoized rule is its body on both sides. -/
theorem memoize (name : String) {body : Parsing σ κ Unit} {M : Reading σ κ Unit}
    (h : Lockstep rules P body M) : Lockstep rules P (Parser.memoize name body) M := by
  intro p t hp
  rw [Parser.memoize_of_off hp.off]
  exact h p t hp

end Lockstep

open Lockstep in
/-- **Every expression is in lockstep with the tape**, with the same fuel on both sides and with
    marks wherever the expression likes to have them. -/
theorem eval_lockstep (rules : ν → Expr κ ν) (fuel : Nat) (e : Expr κ ν) :
    Lockstep (σ := σ) rules (e.LooksAt rules) (Expr.eval rules fuel e)
      (Tape.eval rules fuel e) := by
  induction fuel generalizing e with
  | zero => exact Lockstep.halt _
  | succ fuel ih =>
      -- what a part looks at, the whole looks at
      have hpart : ∀ e', (∀ depth, e'.LooksAt rules depth → e.LooksAt rules depth) →
          Lockstep (σ := σ) rules (e.LooksAt rules) (Expr.eval rules fuel e')
            (Tape.eval rules fuel e') := fun e' h => (ih e').mono h
      cases e with
      | done => exact Lockstep.pure _
      | peek depth => exact (peek .peek).bind fun _ => Lockstep.pure _
      | peekKind depth =>
          exact ((peek .peekKind).bind fun _ => Lockstep.pure _).bind fun _ => Lockstep.pure _
      | check k => exact (check k).bind fun _ => Lockstep.pure _
      | expect k => exact (expect k).bind fun _ => Lockstep.pure _
      | advance => exact advance.bind fun _ => Lockstep.pure _
      | mark => exact mark.bind fun _ => Lockstep.pure _
      | release restore => exact (release restore).bind fun _ => Lockstep.pure _
      | attempt body =>
          have hbody := hpart body fun _ => .attempt
          exact (attempt hbody.discard).bind fun _ => Lockstep.pure _
      | choose name alternatives =>
          refine (chooseFrom name (fun e he => ?_) none).bind fun _ => Lockstep.pure _
          exact (hpart e fun _ => .choose he).discard
      | memo name body =>
          have hbody := hpart body fun _ => .memo
          exact (memoize name hbody.discard).bind fun _ => Lockstep.pure _
      | seq first second =>
          have hfirst := hpart first fun _ => .seqFirst
          have hsecond := hpart second fun _ => .seqSecond
          exact hfirst.discard.bind fun _ => hsecond.discard.bind fun _ => Lockstep.pure _
      | cond k depth yes no =>
          have hyes := hpart yes fun _ => .condYes
          have hno := hpart no fun _ => .condNo
          exact ((peek .cond).bind fun _ => Lockstep.pure _).bind fun _ => Lockstep.ite hyes hno
      | loop k body =>
          have hbody := hpart body fun _ => .loop
          refine (check k).bind fun _ => Lockstep.ite ?_ (Lockstep.pure _)
          exact hbody.discard.bind fun _ => ih (.loop k body)
      | trial guard yes no =>
          have hguard := hpart guard fun _ => .trialGuard
          have hyes := hpart yes fun _ => .trialYes
          have hno := hpart no fun _ => .trialNo
          exact (attempt hguard.discard).bind fun _ => Lockstep.ite hyes hno
      | call name => exact hpart (rules name) fun _ => .call

/-! ## Sessions -/

/-- The session breaks off at a parser `q` where the index of the token at `depth` leaves the 64-bit
    range; `before` is what it has answered until then. -/
structure BreaksOffAt (rules : ν → Expr κ ν) (ops : List (Expr κ ν))
    (session before : List (Except (Halt (ParseError κ)) (Value κ) × Parser σ κ))
    (q : Parser σ κ) (depth : Nat) : Prop where
  session_eq : session = before ++ [(.error (.fault .lookaheadOverflow), q)]
  looked : ∃ e ∈ ops, e.LooksAt rules depth
  enormous : wordLimit ≤ 2 * depth
  leaves : wordLimit ≤ q.window.cursor + depth + 1

/-- From a parser and a tape in step, the operations are answered alike one after the other. -/
theorem session_lockstep (rules : ν → Expr κ ν) (fuel : Nat) (ops : List (Expr κ ν))
    {p : Parser (Metered σ) κ} {t : Tape (Metered σ) κ} (hp : InStep rules p t) :
    (Expr.session rules fuel ops p).map Reply.ofParser
        = (Tape.session rules fuel ops t).map Reply.ofTape ∨
      ∃ before q depth, BreaksOffAt rules ops (Expr.session rules fuel ops p) before q depth ∧
        before.map Reply.ofParser <+: (Tape.session rules fuel ops t).map Reply.ofTape := by
  induction ops generalizing p t with
  | nil => exact Or.inl rfl
  | cons e es ih =>
      have hstep := eval_lockstep rules fuel e p t hp
      rcases hr : Expr.eval rules fuel e p with ⟨r, q⟩
      rcases hR : Tape.eval rules fuel e t with ⟨R, u⟩
      rw [hr, hR] at hstep
      cases hstep with
      | @overflow depth _ _ hdepth ho =>
          obtain ⟨henormous, hleaves⟩ := of_decide_eq_true ho
          refine Or.inr ⟨[], q, depth, ⟨?_, ⟨e, List.mem_cons_self, hdepth⟩, henormous, hleaves⟩,
            List.nil_prefix⟩
          rw [Expr.session, List.map_cons, Run.session, hr]
          rfl
      | even hq =>
          cases hset : isSettled r with
          | false =>
              -- exhausted fuel ends both sessions
              have hnot : ¬ isSettled r = true := hset ▸ Bool.false_ne_true
              refine Or.inl ?_
              rw [Expr.session, Tape.session, List.map_cons, List.map_cons, Run.session,
                Run.session, hr, hR, if_neg hnot, if_neg hnot, List.map_singleton,
                List.map_singleton, hq.mirrors.reply_eq r]
          | true =>
              have hsession : Expr.session rules fuel (e :: es) p
                  = (r, q) :: Expr.session rules fuel es q := Run.session_cons hr hset
              have htape : Tape.session rules fuel (e :: es) t
                  = (r, u) :: Tape.session rules fuel es u := Run.session_cons hR hset
              rw [hsession, htape, List.map_cons, List.map_cons, hq.mirrors.reply_eq r]
              rcases ih hq with heq | ⟨before, q', depth, hbreaks, hpre⟩
              · rw [heq]
                exact Or.inl rfl
              · obtain ⟨e', he', hlooks⟩ := hbreaks.looked
                refine Or.inr ⟨(r, q) :: before, q', depth, ⟨?_, ?_, hbreaks.enormous,
                  hbreaks.leaves⟩, List.cons_prefix_cons.mpr ⟨rfl, hpre⟩⟩
                · rw [hbreaks.session_eq]
                  rfl
                · exact ⟨e', List.mem_cons_of_mem _ he', hlooks⟩

/-- **Letting tokens go is invisible**: over any stream, for any operations and with any fuel, a
    parser without the memo table answers as the tape does, with the same outcomes at the same
    positions, with as many marks and after as many calls.  The only way out is the index of a token
    that leaves the 64-bit range, which takes a lookahead of half that range; then the answers until
    that moment are the same. -/
theorem truncation_invisible (rules : ν → Expr κ ν) (ops : List (Expr κ ν)) (stream : σ)
    (capacity fuel : Nat) :
    let session := Expr.session rules fuel ops (.new (Metered.new stream) ⟨false, capacity⟩)
    let replies := (Tape.session rules fuel ops (.new (Metered.new stream))).map Reply.ofTape
    session.map Reply.ofParser = replies ∨
      ∃ before q depth, BreaksOffAt rules ops session before q depth ∧
        before.map Reply.ofParser <+: replies := by
  intro session replies
  have hnew : InStep (ν := ν) rules (.new (Metered.new stream) ⟨false, capacity⟩)
      (.new (Metered.new stream)) := ⟨rfl, mirrors_new _ _⟩
  exact session_lockstep rules fuel ops hnew

/-- **An enormous lookahead sees what was let go**: with and without a mark around them, two steps
    lead the tape to the same state, and looking ahead from it runs into the lexical error.  The
    parser that has let the two tokens go runs into it, too; in the one that still holds them the
    index leaves the 64-bit range. -/
theorem truncation_seen_at_enormous_depth :
    let rules : Unit → Expr Char Unit := fun _ => .done
    let held : List (Expr Char Unit) := [.mark, .advance, .advance, .release false]
    let gone : List (Expr Char Unit) := [.advance, .advance]
    let look : Expr Char Unit := .peek (wordLimit - 2)
    let parsed (ops : List (Expr Char Unit)) := (Expr.session rules 1 ops
      (.new (Metered.new (CharStream.ofText "ab?")) ⟨false, 16⟩)).getLast?.map (·.1)
    let read (ops : List (Expr Char Unit)) := (Tape.session rules 1 ops
      (.new (Metered.new (CharStream.ofText "ab?")))).getLast?
    (read held).map (·.2) = (read gone).map (·.2) ∧
      (read (held ++ [look])).map (·.1)
        = some (.error (.failed (.lexical (.invalidCharacter '?' ⟨1, 3, 2⟩)))) ∧
      parsed (gone ++ [look])
        = some (.error (.failed (.lexical (.invalidCharacter '?' ⟨1, 3, 2⟩)))) ∧
      parsed (held ++ [look]) = some (.error (.fault .lookaheadOverflow)) := by
  intro rules held gone look parsed read
  exact ⟨by decide +kernel, by decide +kernel, by decide +kernel, by decide +kernel⟩

end Packrat
