import Mathlib.Logic.Relation
import Packrat.CharStream
import Packrat.Proofs.Orderly

/-! # What holds at every moment of a parse

    The evaluation of an expression runs other expressions on the way: bodies,
    alternatives, the parts of a sequence.  `Spawns` relates a run of an expression,
    a `Call`, to the calls it makes directly, each with the parser it starts from;
    its reflexive transitive closure reaches every moment of the evaluation at which
    something is about to be run.  `Occurs` extends this to the operations of a
    session.

    At each of these moments, and after each of these calls, the parser is sound.
    What an evaluation does, one of the calls inside it does, if it is nothing that
    looking and putting together can do (`HandedDown.of_spawned`).  So tokens are
    let go in calls of single operations only (`exists_atom_spawned`), never with a
    mark outstanding, and the memo table is empty afterwards. -/

namespace Packrat

variable {σ κ ν α β : Type}

/-- An expression that is run on a parser. -/
structure Call (σ κ ν : Type) where
  fuel : Nat
  expr : Expr κ ν
  parser : Parser σ κ

/-- The expression is a single operation. -/
def Expr.isAtom : Expr κ ν → Bool
  | .done | .peek _ | .peekKind _ | .check _ | .expect _ | .advance | .mark | .release _ => true
  | _ => false

variable [TokenStream σ κ] [DecidableEq κ] [TokenKind κ]

/-- What the call ends with. -/
def Call.outcome (rules : ν → Expr κ ν) (c : Call σ κ ν) :
    Except (Halt (ParseError κ)) (Value κ) × Parser σ κ :=
  Expr.eval rules c.fuel c.expr c.parser

/-- The call lets tokens go. -/
def Call.Truncates (rules : ν → Expr κ ν) (c : Call σ κ ν) : Prop :=
  (c.outcome rules).2.truncations ≠ c.parser.truncations

/-- A choice among the alternatives from the parser `p` runs the alternative `e` on `q`:
    speculatively, or for real after its speculation has matched, or in either way after earlier
    alternatives have not. -/
inductive Tries (rules : ν → Expr κ ν) (fuel : Nat) :
    List (Expr κ ν) → Parser σ κ → Expr κ ν → Parser σ κ → Prop where
  | speculation {e rest p} : Tries rules fuel (e :: rest) p e (Parser.mark p).2
  | chosen {e rest p q} :
      Parser.speculate (discard (Expr.eval rules fuel e)) p = (.ok none, q) →
      Tries rules fuel (e :: rest) p e q
  | next {e rest p error q e' q'} :
      Parser.speculate (discard (Expr.eval rules fuel e)) p = (.ok (some error), q) →
      Tries rules fuel rest q e' q' → Tries rules fuel (e :: rest) p e' q'

/-- The first call runs the second one directly. -/
inductive Spawns (rules : ν → Expr κ ν) : Call σ κ ν → Call σ κ ν → Prop where
  | attempt {n body p} : Spawns rules ⟨n + 1, .attempt body, p⟩ ⟨n, body, (Parser.mark p).2⟩
  | choose {n name alternatives p e q} : Tries rules n alternatives p e q →
      Spawns rules ⟨n + 1, .choose name alternatives, p⟩ ⟨n, e, q⟩
  | memoOff {n name body p} : p.options.memoize = false →
      Spawns rules ⟨n + 1, .memo name body, p⟩ ⟨n, body, p⟩
  | memoMiss {n name body p q} : p.options.memoize = true →
      Parser.consult name p = (.ok none, q) →
      Spawns rules ⟨n + 1, .memo name body, p⟩ ⟨n, body, q⟩
  | seqFirst {n first second p} : Spawns rules ⟨n + 1, .seq first second, p⟩ ⟨n, first, p⟩
  | seqSecond {n first second p v q} : Expr.eval rules n first p = (.ok v, q) →
      Spawns rules ⟨n + 1, .seq first second, p⟩ ⟨n, second, q⟩
  | condYes {n k depth yes no p q} : Parser.peekKind depth p = (.ok k, q) →
      Spawns rules ⟨n + 1, .cond k depth yes no, p⟩ ⟨n, yes, q⟩
  | condNo {n k depth yes no p k' q} : Parser.peekKind depth p = (.ok k', q) → k' ≠ k →
      Spawns rules ⟨n + 1, .cond k depth yes no, p⟩ ⟨n, no, q⟩
  | loopBody {n k body p q} : Parser.check k p = (.ok true, q) →
      Spawns rules ⟨n + 1, .loop k body, p⟩ ⟨n, body, q⟩
  | loopAgain {n k body p q v q'} : Parser.check k p = (.ok true, q) →
      Expr.eval rules n body q = (.ok v, q') →
      Spawns rules ⟨n + 1, .loop k body, p⟩ ⟨n, .loop k body, q'⟩
  | trialGuard {n guard yes no p} :
      Spawns rules ⟨n + 1, .trial guard yes no, p⟩ ⟨n, guard, (Parser.mark p).2⟩
  | trialYes {n guard yes no p q} :
      Parser.attempt (discard (Expr.eval rules n guard)) p = (.ok true, q) →
      Spawns rules ⟨n + 1, .trial guard yes no, p⟩ ⟨n, yes, q⟩
  | trialNo {n guard yes no p q} :
      Parser.attempt (discard (Expr.eval rules n guard)) p = (.ok false, q) →
      Spawns rules ⟨n + 1, .trial guard yes no, p⟩ ⟨n, no, q⟩
  | call {n name p} : Spawns rules ⟨n + 1, .call name, p⟩ ⟨n, rules name, p⟩

/-- The call is made while the operations are run one after the other. -/
inductive Occurs (rules : ν → Expr κ ν) (fuel : Nat) :
    List (Expr κ ν) → Parser σ κ → Call σ κ ν → Prop where
  | now {e es p c} : Relation.ReflTransGen (Spawns rules) ⟨fuel, e, p⟩ c →
      Occurs rules fuel (e :: es) p c
  | later {e es p c} : isSettled (Expr.eval rules fuel e p).1 = true →
      Occurs rules fuel es (Expr.eval rules fuel e p).2 c → Occurs rules fuel (e :: es) p c

/-! ## Sound at every moment -/

section Soundness

open Orderly

variable {d : Discipline κ ν} {rules : ν → Expr κ ν}

/-- An alternative that is tried is one of the alternatives, and it is tried on a sound parser. -/
theorem Tries.sound (hrules : d.Governs rules) {n : Nat} {alternatives : List (Expr κ ν)}
    {p q : Parser σ κ} {e : Expr κ ν} (h : Tries rules n alternatives p e q)
    (hlaw : ∀ e ∈ alternatives, Lawful d false e) (hp : p.Sound) :
    e ∈ alternatives ∧ q.Sound := by
  induction h with
  | speculation => exact ⟨List.mem_cons_self, hp.marked⟩
  | chosen hs =>
      have ho := eval_orderly (σ := σ) hrules n (hlaw _ List.mem_cons_self)
      exact ⟨List.mem_cons_self, sound_of_eq (speculate ho.discard) hp hs⟩
  | next hs _ ih =>
      have ho := eval_orderly (σ := σ) hrules n (hlaw _ List.mem_cons_self)
      have hq := sound_of_eq (speculate ho.discard) hp hs
      obtain ⟨hmem, hq'⟩ := ih (fun e he => hlaw e (List.mem_cons_of_mem _ he)) hq
      exact ⟨List.mem_cons_of_mem _ hmem, hq'⟩

/-- Lawful calls on sound parsers make lawful calls on sound parsers. -/
theorem Spawns.sound (hrules : d.Governs rules) {c c' : Call σ κ ν} (h : Spawns rules c c')
    {bare : Bool} (hlaw : Lawful d bare c.expr) (hp : c.parser.Sound) :
    (∃ bare', Lawful d bare' c'.expr) ∧ c'.parser.Sound := by
  cases h with
  | attempt =>
      cases hlaw with
      | attempt hb => exact ⟨⟨false, hb⟩, hp.marked⟩
  | choose ht =>
      cases hlaw with
      | choose hb =>
          obtain ⟨hmem, hq⟩ := ht.sound hrules hb hp
          exact ⟨⟨false, hb _ hmem⟩, hq⟩
  | memoOff _ =>
      cases hlaw with
      | memo _ hb => exact ⟨⟨false, hb⟩, hp⟩
  | memoMiss _ hq =>
      cases hlaw with
      | memo _ hb =>
          -- asking counts in the table and moves nothing
          obtain ⟨-, rfl⟩ := Prod.mk.inj hq
          exact ⟨⟨false, hb⟩, hp.asked _⟩
  | seqFirst =>
      cases hlaw with
      | seq ha _ => exact ⟨⟨bare, ha⟩, hp⟩
  | seqSecond hq =>
      cases hlaw with
      | seq ha hb =>
          exact ⟨⟨bare, hb⟩, sound_of_eq (eval_orderly hrules _ ha.loosen) hp hq⟩
  | condYes hq =>
      cases hlaw with
      | cond hd hy _ => exact ⟨⟨bare, hy⟩, sound_of_eq (peekKind hd) hp hq⟩
  | condNo hq _ =>
      cases hlaw with
      | cond hd _ hn => exact ⟨⟨bare, hn⟩, sound_of_eq (peekKind hd) hp hq⟩
  | loopBody hq =>
      cases hlaw with
      | loop hb => exact ⟨⟨bare, hb⟩, sound_of_eq (check (d := d) _) hp hq⟩
  | loopAgain hq hv =>
      cases hlaw with
      | loop hb =>
          have hq₁ := sound_of_eq (check (d := d) _) hp hq
          exact ⟨⟨bare, .loop hb⟩, sound_of_eq (eval_orderly hrules _ hb.loosen) hq₁ hv⟩
  | trialGuard =>
      cases hlaw with
      | trial hg _ _ => exact ⟨⟨false, hg⟩, hp.marked⟩
  | trialYes hq =>
      cases hlaw with
      | trial hg hy _ =>
          exact ⟨⟨bare, hy⟩, sound_of_eq (Orderly.attempt (eval_orderly hrules _ hg).discard) hp hq⟩
  | trialNo hq =>
      cases hlaw with
      | trial hg _ hn =>
          exact ⟨⟨bare, hn⟩, sound_of_eq (Orderly.attempt (eval_orderly hrules _ hg).discard) hp hq⟩
  | call =>
      cases hlaw with
      | call hq => exact ⟨⟨bare, hrules _ _ hq⟩, hp⟩

/-- So do the calls that they make, and so on. -/
theorem spawned_sound (hrules : d.Governs rules) {c c' : Call σ κ ν}
    (h : Relation.ReflTransGen (Spawns rules) c c') {bare : Bool}
    (hlaw : Lawful d bare c.expr) (hp : c.parser.Sound) :
    (∃ bare', Lawful d bare' c'.expr) ∧ c'.parser.Sound := by
  induction h with
  | refl => exact ⟨⟨bare, hlaw⟩, hp⟩
  | tail _ hstep ih =>
      obtain ⟨⟨bare', hlaw'⟩, hp'⟩ := ih
      exact hstep.sound hrules hlaw' hp'

/-- Every call of a session is a lawful one on a sound parser. -/
theorem Occurs.sound (hrules : d.Governs rules) {fuel : Nat} {ops : List (Expr κ ν)}
    {p : Parser σ κ} {c : Call σ κ ν} (h : Occurs rules fuel ops p c)
    (hops : ∀ e ∈ ops, Lawful d true e) (hp : p.Sound) :
    (∃ bare, Lawful d bare c.expr) ∧ c.parser.Sound := by
  induction h with
  | now hc => exact spawned_sound hrules hc (hops _ List.mem_cons_self) hp
  | later _ _ ih =>
      have ho := eval_orderly (σ := σ) hrules fuel (hops _ List.mem_cons_self)
      exact ih (fun e he => hops e (List.mem_cons_of_mem _ he)) (ho _ hp).sound

end Soundness

/-! ## What is handed down to the calls -/

section Blame

/-- What is said of a computation that starts from a parser is handed down to the parts that are
    run: it holds of a composition when it holds of the parts at the moments when they start, and of
    looking it holds anyway. -/
structure HandedDown (A : ∀ {α : Type}, Parsing σ κ α → Parser σ κ → Prop) : Prop where
  pure : ∀ {α : Type} (a : α) (p : Parser σ κ), A (Pure.pure a) p
  bind : ∀ {α β : Type} {m : Parsing σ κ α} {f : α → Parsing σ κ β} {p : Parser σ κ}, A m p →
    (∀ a q, m p = (.ok a, q) → A (f a) q) → A (m >>= f) p
  peek : ∀ depth p, A (Parser.peek depth) p
  attempt : ∀ {rule : Parsing σ κ Unit} {p : Parser σ κ}, A rule p.marked →
    A (Parser.attempt rule) p
  memoize : ∀ {name : String} {body : Parsing σ κ Unit} {p : Parser σ κ},
    (p.options.memoize = false → A body p) →
    (∀ q, p.options.memoize = true → Parser.consult name p = (.ok none, q) → A body q) →
    A (Parser.memoize name body) p

namespace HandedDown

variable {A : ∀ {α : Type}, Parsing σ κ α → Parser σ κ → Prop} {rules : ν → Expr κ ν}
  {n : Nat} {e : Expr κ ν} {p : Parser σ κ}

theorem bind_pure (h : HandedDown A) {m : Parsing σ κ α} {f : α → β} (hm : A m p) :
    A (m >>= fun a => Pure.pure (f a)) p :=
  h.bind hm fun _ q _ => h.pure _ q

theorem check (h : HandedDown A) (k : κ) (p : Parser σ κ) : A (Parser.check k) p :=
  h.bind_pure (h.bind_pure (h.peek 0 p))

/-- **It holds of an evaluation if it holds of the calls that are spawned.**  Single operations and
    the choice among alternatives are left to the property. -/
theorem of_spawned (h : HandedDown A)
    (hatom : e.isAtom = true → A (Expr.eval rules (n + 1) e) p)
    (hchoose : ∀ name alternatives, e = .choose name alternatives →
      A (Parser.chooseFrom name none
        (alternatives.map fun e => discard (Expr.eval rules n e))) p)
    (hsub : ∀ e' q, Spawns rules ⟨n + 1, e, p⟩ ⟨n, e', q⟩ → A (Expr.eval rules n e') q) :
    A (Expr.eval rules (n + 1) e) p := by
  cases e with
  | attempt body => exact h.bind_pure (h.attempt (h.bind_pure (hsub body _ .attempt)))
  | choose name alternatives => exact h.bind_pure (hchoose name alternatives rfl)
  | memo name body =>
      refine h.bind_pure (h.memoize ?_ ?_)
      · intro hoff
        exact h.bind_pure (hsub body p (.memoOff hoff))
      · intro q hon hq
        exact h.bind_pure (hsub body q (.memoMiss hon hq))
  | seq first second =>
      refine h.bind (h.bind_pure (hsub first p .seqFirst)) ?_
      intro _ q hq
      obtain ⟨v, hv⟩ := Run.discard_eq_ok hq
      exact h.bind_pure (h.bind_pure (hsub second q (.seqSecond hv)))
  | cond k depth yes no =>
      refine h.bind (h.bind_pure (h.peek depth p)) ?_
      intro k' q hq
      by_cases hk : k' = k
      · rw [if_pos hk]
        rw [hk] at hq
        exact hsub yes q (.condYes hq)
      · rw [if_neg hk]
        exact hsub no q (.condNo hq hk)
  | loop k body =>
      refine h.bind (h.check k p) ?_
      intro more q hq
      cases more with
      | true =>
          refine h.bind (h.bind_pure (hsub body q (.loopBody hq))) ?_
          intro _ q' hq'
          obtain ⟨v, hv⟩ := Run.discard_eq_ok hq'
          exact hsub (.loop k body) q' (.loopAgain hq hv)
      | false => exact h.pure _ q
  | trial guard yes no =>
      refine h.bind (h.attempt (h.bind_pure (hsub guard _ .trialGuard))) ?_
      intro matched q hq
      cases matched with
      | true => exact hsub yes q (.trialYes hq)
      | false => exact hsub no q (.trialNo hq)
  | call name => exact hsub (rules name) p .call
  | _ => exact hatom rfl

end HandedDown

end Blame

/-! ## Where tokens are let go -/

section Truncation

omit [TokenStream σ κ] [DecidableEq κ] [TokenKind κ]

/-- If the computation lets tokens go, there is the reason `P` for it. -/
def Accounted (P : Prop) (m : Parsing σ κ α) (p : Parser σ κ) : Prop :=
  (m p).2.truncations ≠ p.truncations → P

theorem Accounted.of_eq {P : Prop} {m : Parsing σ κ α} {p : Parser σ κ}
    (h : (m p).2.truncations = p.truncations) : Accounted P m p :=
  fun hne => absurd h hne

/-- Accounts of one computation and of the next make up the account of both. -/
theorem Accounted.bind {P : Prop} {m : Parsing σ κ α} {f : α → Parsing σ κ β} {p : Parser σ κ}
    (hm : Accounted P m p) (hf : ∀ a q, m p = (.ok a, q) → Accounted P (f a) q) :
    Accounted P (m >>= f) p := by
  intro hne
  rcases hr : m p with ⟨r, q⟩
  rw [Accounted, hr] at hm
  by_cases hq : q.truncations = p.truncations
  · cases r with
    | ok a =>
        rw [Run.bind_of_ok hr] at hne
        refine hf a q hr ?_
        rw [hq]
        exact hne
    | error e =>
        rw [Run.bind_of_error hr] at hne
        exact absurd hq hne
  · exact hm hq

theorem Accounted.bind_pure {P : Prop} {m : Parsing σ κ α} {f : α → β} {p : Parser σ κ}
    (hm : Accounted P m p) : Accounted P (m >>= fun a => pure (f a)) p :=
  hm.bind fun _ _ _ => Accounted.of_eq rfl

/-- What is done on the window counts no truncation. -/
theorem truncations_onWindow (m : Run (Window σ κ) LexError α) (p : Parser σ κ) :
    (Parser.onWindow m p).2.truncations = p.truncations := by
  rcases hm : m p.window with ⟨r, w⟩
  cases r with
  | ok a => rw [Parser.onWindow_ok hm]
  | error e => rw [Parser.onWindow_error hm]

/-- A release does not truncate either. -/
theorem truncations_release (restore : Bool) (p : Parser σ κ) :
    (Parser.release restore p).2.truncations = p.truncations := by
  rcases hpop : p.marks.pop with ⟨_ | c, cs⟩
  · have hrelease : Parser.release restore p = (.ok (), p) := by
      rw [Parser.release, hpop]
    rw [hrelease]
  · cases restore with
    | false =>
        have hrelease : Parser.release false p = (.ok (), { p with marks := cs }) := by
          rw [Parser.release, hpop]
          rfl
        rw [hrelease]
    | true =>
        have hrelease : Parser.release true p
            = Parser.onWindow (Window.seek c) { p with marks := cs } := by
          rw [Parser.release, hpop]
          rfl
        rw [hrelease]
        exact truncations_onWindow _ _

/-- A speculation is accounted for if the rule is, from behind the mark. -/
theorem Accounted.speculate {P : Prop} {rule : Parsing σ κ Unit} {p : Parser σ κ}
    (h : Accounted P rule p.marked) : Accounted P (Parser.speculate rule) p := by
  refine Accounted.bind (Accounted.of_eq rfl) ?_
  intro depth q hq
  obtain rfl : p.marked = q := congrArg Prod.snd hq
  refine Accounted.bind ?_ ?_
  · -- settling an outcome leaves the parser as it is
    intro hne
    rw [Run.snd_settle] at hne
    exact h hne
  · intro outcome q _
    refine Accounted.bind (Accounted.of_eq (truncations_release true q)) ?_
    intro _ q' _
    refine Accounted.of_eq ?_
    match outcome with
    | .ok () => rfl
    | .error e =>
        show ((if e.isMismatch then pure (some e) else Run.fail e :
          Parsing σ κ (Option (ParseError κ))) q').2.truncations = q'.truncations
        by_cases he : e.isMismatch = true
        · rw [if_pos he]
          rfl
        · rw [if_neg he]
          rfl

/-- And so is an attempt. -/
theorem Accounted.attempt {P : Prop} {rule : Parsing σ κ Unit} {p : Parser σ κ}
    (h : Accounted P rule p.marked) : Accounted P (Parser.attempt rule) p :=
  h.speculate.bind_pure

/-- A memoized rule lets tokens go only in its body. -/
theorem Accounted.memoize {P : Prop} {name : String} {body : Parsing σ κ Unit} {p : Parser σ κ}
    (hoff : p.options.memoize = false → Accounted P body p)
    (hmiss : ∀ q, p.options.memoize = true → Parser.consult name p = (.ok none, q) →
      Accounted P body q) :
    Accounted P (Parser.memoize name body) p := by
  refine Accounted.bind (Accounted.of_eq rfl) ?_
  intro on q hq
  obtain ⟨hon, rfl⟩ := Prod.mk.inj hq
  cases on with
  | false => exact hoff (Except.ok.inj hon)
  | true =>
      refine Accounted.bind (Accounted.of_eq rfl) ?_
      intro found q hq
      cases found with
      | none =>
          -- the place and the cursor are read, then the body runs, then the span is stored
          refine Accounted.bind (Accounted.of_eq rfl) ?_
          intro position q₁ hq₁
          obtain rfl : q = q₁ := congrArg Prod.snd hq₁
          refine Accounted.bind (Accounted.of_eq rfl) ?_
          intro start q₂ hq₂
          obtain rfl : q = q₂ := congrArg Prod.snd hq₂
          refine (hmiss q (Except.ok.inj hon) hq).bind ?_
          intro _ q₃ _
          refine Accounted.of_eq ?_
          rw [Parser.record]
          split
          · split <;> rfl
          · rfl
      | some span =>
          -- a jump moves the cursor only
          refine Accounted.bind (Accounted.of_eq rfl) ?_
          intro cursor q₁ _
          by_cases hs : span.start = cursor
          · rw [if_pos hs]
            exact Accounted.of_eq (truncations_onWindow _ _)
          · rw [if_neg hs]
            exact Accounted.of_eq rfl

variable [TokenStream σ κ] [DecidableEq κ] [TokenKind κ]

theorem Accounted.peek {P : Prop} (depth : Nat) (p : Parser σ κ) :
    Accounted P (Parser.peek depth) p :=
  Accounted.of_eq (truncations_onWindow _ _)

theorem Accounted.sight {P : Prop} (p : Parser σ κ) : Accounted P Parser.sight p :=
  (Accounted.peek 0 p).bind fun _ _ _ => Accounted.of_eq rfl

/-- Being accounted for is handed down from the operations to everything made of them. -/
theorem accounted_handedDown (P : Prop) :
    HandedDown (Accounted P : ∀ {α : Type}, Parsing σ κ α → Parser σ κ → Prop) where
  pure _ _ := Accounted.of_eq rfl
  bind := Accounted.bind
  peek := Accounted.peek
  attempt := Accounted.attempt
  memoize := Accounted.memoize

/-- A choice lets tokens go only in the alternatives that it tries. -/
theorem Accounted.chooseFrom {P : Prop} {rules : ν → Expr κ ν} {n : Nat} (name : String)
    {alternatives : List (Expr κ ν)} (furthest : Option (ParseError κ)) {p : Parser σ κ}
    (h : ∀ e q, Tries rules n alternatives p e q →
      Accounted P (discard (Expr.eval rules n e)) q) :
    Accounted P (Parser.chooseFrom name furthest
      (alternatives.map fun e => discard (Expr.eval rules n e))) p := by
  induction alternatives generalizing furthest p with
  | nil => exact (Accounted.sight p).bind fun _ _ _ => Accounted.of_eq rfl
  | cons e rest ih =>
      refine (h e p.marked .speculation).speculate.bind ?_
      intro outcome q hq
      cases outcome with
      | none => exact h e q (.chosen hq)
      | some error => exact ih _ (fun e' q' ht => h e' q' (.next hq ht))

/-- **Only single operations let tokens go**: when a call does, some call of a single operation that
    it leads to does. -/
theorem exists_atom_spawned (rules : ν → Expr κ ν) (c : Call σ κ ν) (h : c.Truncates rules) :
    ∃ c', Relation.ReflTransGen (Spawns rules) c c' ∧ c'.expr.isAtom = true ∧
      c'.Truncates rules := by
  obtain ⟨fuel, e, p⟩ := c
  induction fuel generalizing e p with
  | zero => exact absurd rfl h
  | succ n ih =>
      -- the reason is handed on from the call that is spawned
      have hsub : ∀ e' q, Spawns rules ⟨n + 1, e, p⟩ ⟨n, e', q⟩ →
          Accounted (∃ c', Relation.ReflTransGen (Spawns rules) ⟨n + 1, e, p⟩ c' ∧
            c'.expr.isAtom = true ∧ c'.Truncates rules) (Expr.eval rules n e') q := by
        intro e' q hs hne
        obtain ⟨c', hc', hatom, ht⟩ := ih e' q hne
        exact ⟨c', hc'.head hs, hatom, ht⟩
      by_cases hatom : e.isAtom = true
      · exact ⟨_, .refl, hatom, h⟩
      · refine (accounted_handedDown _).of_spawned (fun hop => absurd hop hatom) ?_ hsub h
        rintro name alternatives rfl
        exact Accounted.chooseFrom name none fun e q ht => (hsub e q (.choose ht)).bind_pure

/-- When moving on lets tokens go, no mark is outstanding, and what the memo table knew goes with
    them. -/
theorem advance_truncates {p : Parser σ κ} (hp : p.Sound)
    (h : (Parser.advance p).2.truncations ≠ p.truncations) :
    p.marks.cursors = [] ∧ (Parser.advance p).2.memo.isEmpty = true := by
  rcases Parser.advance_spec p with ⟨w, ha, hg, hs⟩ | ⟨e, w, ha, hg⟩
  · -- tokens go only when the window is drained and no mark is set
    rw [ha] at h ⊢
    rcases Parser.tidied_cases (p.stepped w) with ⟨hdrained, hnone, heq⟩ | heq
    · rw [heq]
      exact ⟨hnone, Memo.isEmpty_of_not_holds
        (Parser.not_holds_truncate (hp.stepped hg hs) hdrained)⟩
    · rw [heq] at h
      exact absurd rfl h
  · rw [ha] at h
    exact absurd rfl h

/-- So it is when a token of a kind is required: looking at the token before moving on changes
    neither the marks nor the order of the indices. -/
theorem expect_truncates {k : κ} {p : Parser σ κ} (hp : p.Sound)
    (h : (Parser.expect k p).2.truncations ≠ p.truncations) :
    p.marks.cursors = [] ∧ (Parser.expect k p).2.memo.isEmpty = true := by
  rcases Parser.check_spec k p with ⟨matched, w, hc, hg⟩ | ⟨e, w, hc, hg⟩
  · -- the parser with the token let in, as a parser of its own
    obtain ⟨q, hq⟩ : ∃ q, q = { p with window := w } := ⟨_, rfl⟩
    have hsound : q.Sound := hq ▸ hp.grows hg
    have hmarks : q.marks = p.marks := by rw [hq]
    have htrunc : q.truncations = p.truncations := by rw [hq]
    rw [← hq] at hc
    rw [show Parser.expect k p = _ from Run.bind_of_ok hc] at h ⊢
    rw [← hmarks]
    rw [← htrunc] at h
    cases matched with
    | true => exact advance_truncates hsound h
    | false => exact (Accounted.sight q).bind (fun _ _ _ => Accounted.of_eq rfl) h
  · rw [show Parser.expect k p = _ from Run.bind_of_error hc] at h
    exact absurd rfl h

/-- Single operations let tokens go only without marks, and leave an empty memo table then. -/
theorem atom_truncates {rules : ν → Expr κ ν} {c : Call σ κ ν} (hp : c.parser.Sound)
    (hatom : c.expr.isAtom = true) (h : c.Truncates rules) :
    c.parser.marks.cursors = [] ∧ (c.outcome rules).2.memo.isEmpty = true := by
  obtain ⟨fuel, e, p⟩ := c
  -- wrapping the result into a value leaves the parser as it is
  have hsnd : ∀ {α : Type} (m : Parsing σ κ α) (f : α → Value κ) (q : Parser σ κ),
      ((m >>= fun a => pure (f a)) q).2 = (m q).2 := by
    intro α m f q
    rcases hm : m q with ⟨_ | a, q'⟩
    · rw [Run.bind_of_error hm]
    · rw [Run.bind_of_ok hm]
      rfl
  cases fuel with
  | zero => exact absurd rfl h
  | succ n =>
      cases e with
      | done => exact absurd rfl h
      | peek depth => exact (Accounted.peek depth p).bind_pure h
      | peekKind depth => exact (Accounted.peek depth p).bind_pure.bind_pure h
      | check k => exact ((accounted_handedDown _).check k p).bind_pure h
      | expect k =>
          have heq : (Call.outcome rules ⟨n + 1, .expect k, p⟩).2 = (Parser.expect k p).2 :=
            hsnd (Parser.expect k) (fun _ => .nothing) p
          rw [Call.Truncates, heq] at h
          rw [heq]
          exact expect_truncates hp h
      | advance =>
          have heq : (Call.outcome rules ⟨n + 1, .advance, p⟩).2 = (Parser.advance p).2 :=
            hsnd Parser.advance (fun _ => .nothing) p
          rw [Call.Truncates, heq] at h
          rw [heq]
          exact advance_truncates hp h
      | mark => exact absurd rfl h
      | release restore =>
          exact (Accounted.of_eq (truncations_release restore p)).bind_pure h
      | _ => exact nomatch hatom

end Truncation

/-! ## The invariant -/

/-- **The representation invariant**: at every call of a session on a fresh parser the indices fit
    together before and after.  A single operation that lets tokens go does so without marks and
    leaves an empty memo table, any other call does so only through such an operation, and the only
    rule of use that can be broken is the one on the depth of a lookahead. -/
theorem session_invariant {d : Discipline κ ν} {rules : ν → Expr κ ν} (hrules : d.Governs rules)
    {ops : List (Expr κ ν)} (hops : ∀ e ∈ ops, Lawful d true e) (stream : σ) (options : Options)
    (fuel : Nat) {c : Call σ κ ν} (hc : Occurs rules fuel ops (Parser.new stream options) c) :
    c.parser.Sound ∧ (c.outcome rules).2.Sound ∧
      (c.expr.isAtom = true → c.Truncates rules →
        c.parser.marks.cursors = [] ∧ (c.outcome rules).2.memo.isEmpty = true) ∧
      (c.Truncates rules → ∃ c', Relation.ReflTransGen (Spawns rules) c c' ∧
        c'.expr.isAtom = true ∧ c'.Truncates rules) ∧
      ∀ cause, (c.outcome rules).1 = .error (.fault cause) → cause = .lookaheadOverflow := by
  obtain ⟨⟨bare, hlaw⟩, hp⟩ := hc.sound hrules hops (Parser.sound_new stream options)
  have hk := eval_orderly hrules c.fuel hlaw c.parser hp
  refine ⟨hp, hk.sound, atom_truncates hp, exists_atom_spawned rules c, ?_⟩
  intro cause hcause
  exact (hk.harmless cause hcause).1

/-- A pair of tokens is remembered inside a speculation and jumped over outside of it; the step
    behind it lets the whole layout go, and the entry with it. -/
theorem session_invariant_step :
    let rules : Unit → Expr Char Unit := fun _ => .seq .advance .advance
    let pair : Expr Char Unit := .memo "pair" (.call ())
    ∃ c : Call CharStream Char Unit,
      Occurs rules 5 [.mark, pair, .release true, pair, .advance]
        (Parser.new (.ofText "abc") {}) c ∧
      c.Truncates rules ∧ c.parser.memo.isEmpty = false ∧ c.parser.Sound ∧
      c.parser.marks.cursors = [] ∧ (c.outcome rules).2.memo.isEmpty = true := by
  intro rules pair
  have hc : Occurs (σ := CharStream) rules 5 [.mark, pair, .release true, pair, .advance]
      (Parser.new (.ofText "abc") {}) _ :=
    .later (by decide +kernel) (.later (by decide +kernel) (.later (by decide +kernel)
      (.later (by decide +kernel) (.now .refl))))
  let d : Discipline Char Unit := ⟨fun _ => True, fun _ _ => True, fun _ => True⟩
  have hrules : d.Governs rules := fun _ _ _ => .seq .advance .advance
  have hpair : Lawful d true pair := .memo trivial (.call fun _ => trivial)
  have hops : ∀ e ∈ [.mark, pair, .release true, pair, .advance], Lawful d true e := by
    simp only [List.forall_mem_cons]
    exact ⟨.mark, hpair, .release, hpair, .advance, fun _ h => nomatch h⟩
  obtain ⟨hsound, -, htrunc, -, -⟩ := session_invariant hrules hops _ _ 5 hc
  refine ⟨_, hc, ?_⟩
  suffices ht : Call.Truncates rules _ from ⟨ht, by decide +kernel, hsound, htrunc rfl ht⟩
  show _ ≠ _
  decide +kernel

end Packrat
