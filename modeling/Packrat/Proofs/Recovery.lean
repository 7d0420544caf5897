import Packrat.Proofs.Steady

/-! # Only mismatches can be recovered from

    An attempt and a choice try something else when a rule ends with a mismatch.
    Every other end of a rule is the end of everything around it: a lexical error is
    the answer to the last call that was made into the stream, and an exhausted
    decision ends the expression it stands in, whatever attempts, choices and
    memoized rules are around it.

    On the way out the marks are taken back.  That cannot fail on a steady parser,
    so the halt arrives as it was raised, also in programs that meddle with the
    marks. -/

namespace Packrat

open TokenStream

variable {σ κ ν α β : Type}

/-- Nothing is tried after this: all but mismatches. -/
def Halt.isFatal : Halt (ParseError κ) → Bool
  | .failed e => !e.isMismatch
  | .fault _ => true
  | .outOfFuel => true

theorem verdict_of_fatal {h : Halt (ParseError κ)} (hfatal : h.isFatal = true) :
    verdict (.error h) = .error h := by
  rcases h with ⟨_ | _ | _⟩ | _ | _
  · rfl
  · exact nomatch hfatal
  · rfl
  · rfl
  · rfl

/-- A speculation halts as its rule does, and not with a mismatch. -/
theorem isFatal_of_verdict {r : Except (Halt (ParseError κ)) Unit} {h : Halt (ParseError κ)}
    (hr : verdict r = .error h) : h.isFatal = true := by
  match r, hr with
  | .error (.failed (.lexical _)), hr
  | .error (.failed (.exhausted _ _ _)), hr
  | .error (.fault _), hr
  | .error .outOfFuel, hr => rw [← Except.error.inj hr]; rfl

/-- The computation halts with `h` when it is run on `p`. -/
def HaltsOn (h : Halt (ParseError κ)) (m : Parsing σ κ α) (p : Parser σ κ) : Prop :=
  (m p).1 = .error h

namespace HaltsOn

variable {h : Halt (ParseError κ)}

/-- What halts the first part halts the whole. -/
theorem bind {m : Parsing σ κ α} {f : α → Parsing σ κ β} {p : Parser σ κ}
    (hm : HaltsOn h m p) : HaltsOn h (m >>= f) p := by
  rcases hr : m p with ⟨r, q⟩
  rw [HaltsOn, hr] at hm
  obtain rfl : r = .error h := hm
  rw [HaltsOn, Run.bind_of_error hr]

/-- What halts the second part halts the whole, too, if the first one answers. -/
theorem bind_of_ok {m : Parsing σ κ α} {f : α → Parsing σ κ β} {p q : Parser σ κ} {a : α}
    (hm : m p = (.ok a, q)) (hf : HaltsOn h (f a) q) : HaltsOn h (m >>= f) p := by
  rw [HaltsOn, Run.bind_of_ok hm]
  exact hf

/-- Without a memo table the body runs, and halts it. -/
theorem memoize_of_off {name : String} {body : Parsing σ κ Unit} {p : Parser σ κ}
    (hoff : p.options.memoize = false) (hb : HaltsOn h body p) :
    HaltsOn h (Parser.memoize name body) p := by
  rw [HaltsOn, Parser.memoize_of_off hoff]
  exact hb

/-- With one, the body runs if nothing is noted. -/
theorem memoize_of_miss {name : String} {body : Parsing σ κ Unit} {p q : Parser σ κ}
    (hon : p.options.memoize = true) (hq : Parser.consult name p = (.ok none, q))
    (hb : HaltsOn h body q) : HaltsOn h (Parser.memoize name body) p := by
  have hmiss : Parser.memoize name body p = Parser.runAndRecord name body q := by
    rw [Parser.memoize, Run.read_bind, hon]
    exact Run.bind_of_ok hq
  rw [HaltsOn, hmiss]
  exact HaltsOn.bind_of_ok rfl (HaltsOn.bind_of_ok rfl hb.bind)

end HaltsOn

section Escape

variable [TokenStream σ κ] [DecidableEq κ] [TokenKind κ] {rules : ν → Expr κ ν} {source : σ}
  {h : Halt (ParseError κ)}

/-- A speculation hands on what it cannot recover from. -/
theorem HaltsOn.speculate (hfatal : h.isFatal = true) {fuel : Nat} {e : Expr κ ν}
    {p : Parser (Metered σ) κ} (hp : p.Steady source)
    (hr : HaltsOn h (Expr.eval rules fuel e) p.marked) :
    HaltsOn h (Parser.speculate (discard (Expr.eval rules fuel e))) p := by
  obtain ⟨q, hs, -⟩ := speculate_eval rules fuel e hp
  rw [HaltsOn, hs, hr]
  exact verdict_of_fatal hfatal

/-- A choice hands on what an alternative cannot be recovered from, both when the alternative is
    speculated on and when it is run for real. -/
theorem Tries.haltsOn (hfatal : h.isFatal = true) {n : Nat} {alternatives : List (Expr κ ν)}
    {p q : Parser (Metered σ) κ} {e : Expr κ ν} (ht : Tries rules n alternatives p e q)
    (hp : p.Steady source) (he : HaltsOn h (Expr.eval rules n e) q) (name : String)
    (furthest : Option (ParseError κ)) :
    HaltsOn h (Parser.chooseFrom name furthest
      (alternatives.map fun e => discard (Expr.eval rules n e))) p := by
  induction ht generalizing furthest with
  | speculation => exact (HaltsOn.speculate hfatal hp he).bind
  | chosen hs => exact .bind_of_ok hs he.bind
  | @next e _ _ _ _ _ _ hs _ ih =>
      have hcomp := compositional_steady rules source
      have hspeculate := hcomp.speculate (hcomp.discard (hcomp.eval n (e := e) trivial))
      exact .bind_of_ok hs (ih ((hspeculate.of_eq hp hs).1 rfl) he _)

/-- What a call cannot recover from is what it halts with. -/
theorem Spawns.haltsOn (hfatal : h.isFatal = true) {c c' : Call (Metered σ) κ ν}
    (hs : Spawns rules c c') (hp : c.parser.Steady source)
    (hc' : (c'.outcome rules).1 = .error h) : (c.outcome rules).1 = .error h := by
  have he : HaltsOn h (Expr.eval rules c'.fuel c'.expr) c'.parser := hc'
  show HaltsOn h (Expr.eval rules c.fuel c.expr) c.parser
  -- one case for each way in which a call makes another: in all of them it waits for the answer
  cases hs with
  | attempt => exact (HaltsOn.speculate hfatal hp he).bind.bind
  | choose ht => exact (ht.haltsOn hfatal hp he _ none).bind
  | memoOff hoff => exact (HaltsOn.memoize_of_off hoff he.bind).bind
  | memoMiss hon hq => exact (HaltsOn.memoize_of_miss hon hq he.bind).bind
  | seqFirst => exact he.bind.bind
  | seqSecond hq => exact .bind_of_ok (Run.discard_of_ok hq) he.bind.bind
  | condYes hq =>
      refine .bind_of_ok hq ?_
      rw [if_pos rfl]
      exact he
  | condNo hq hne =>
      refine .bind_of_ok hq ?_
      rw [if_neg hne]
      exact he
  | loopBody hq => exact .bind_of_ok hq he.bind.bind
  | loopAgain hq hv => exact .bind_of_ok hq (.bind_of_ok (Run.discard_of_ok hv) he)
  | trialGuard => exact (HaltsOn.speculate hfatal hp he).bind.bind
  | trialYes hq => exact .bind_of_ok hq he
  | trialNo hq => exact .bind_of_ok hq he
  | call => exact he

/-- So it is through any number of calls. -/
theorem spawned_haltsOn (hfatal : h.isFatal = true) {c c' : Call (Metered σ) κ ν}
    (hs : Relation.ReflTransGen (Spawns rules) c c') (hp : c.parser.Steady source)
    (hc' : (c'.outcome rules).1 = .error h) : (c.outcome rules).1 = .error h := by
  induction hs using Relation.ReflTransGen.head_induction_on with
  | refl => exact hc'
  | head hstep _ ih =>
      refine hstep.haltsOn hfatal hp (ih ?_)
      exact (hstep.carried (compositional_steady rules source) persists_steady trivial hp).2.1

/-- **Only mismatches can be recovered from.**  From any parser that can be reached, with marks set
    and released wherever the program likes, the calls that an evaluation makes are answered with
    tokens, except that the last one may be answered with a lexical error; then the evaluation ends
    with that error, and with a lexical error in no other case.  An exhausted decision anywhere
    inside is how the whole evaluation ends. -/
theorem only_mismatches_recovered {p q : Parser (Metered σ) κ}
    (hp : Reachable rules (fun _ => True) source p) {fuel : Nat} {e : Expr κ ν}
    {r : Except (Halt (ParseError κ)) (Value κ)} (heval : Expr.eval rules fuel e p = (r, q)) :
    p.window.stream.stream = after source p.window.stream.calls ∧
      (isSettled r = true → q.window.stream.stream = after source q.window.stream.calls) ∧
      p.window.stream.calls ≤ q.window.stream.calls ∧
      (∀ i lex, p.window.stream.calls ≤ i → i < q.window.stream.calls →
        answer source i = .error lex →
        i + 1 = q.window.stream.calls ∧ r = .error (.failed (.lexical lex))) ∧
      (∀ lex, r = .error (.failed (.lexical lex)) →
        ∃ i, p.window.stream.calls ≤ i ∧ i + 1 = q.window.stream.calls ∧
          answer source i = .error lex) ∧
      ∀ c name seen furthest, Relation.ReflTransGen (Spawns rules) ⟨fuel, e, p⟩ c →
        (c.outcome rules).1 = .error (.failed (.exhausted name seen furthest)) →
        r = .error (.failed (.exhausted name seen furthest)) := by
  have hsteady := hp.steady
  obtain ⟨hq, hheard⟩ :=
    ((compositional_steady rules source).eval fuel (e := e) trivial).of_eq hsteady heval
  -- the calls into the source are accounted for by what the parse has heard from it
  refine ⟨hsteady.stream, fun hset => (hq hset).stream, hheard.le, ?_, ?_, ?_⟩
  · intro i lex hle hlt hanswer
    obtain ⟨hlast, hcomplaint⟩ := hheard.last hle hlt hanswer
    exact ⟨hlast, eq_of_complaint hcomplaint⟩
  · intro lex hr
    rw [hr] at hheard
    exact hheard.raised
  · intro c name seen furthest hc hout
    have hr := spawned_haltsOn rfl hc hsteady hout
    rw [Call.outcome, heval] at hr
    exact hr

end Escape

/-- The decision `inner` is remembered, inside a choice with another alternative, inside an attempt,
    and still ends all of them.  The look that is taken next fails at the third token, inside a
    choice that has another alternative as well. -/
theorem only_mismatches_recovered_nested :
    let rules : Unit → Expr Char Unit := fun _ =>
      .choose "inner" [.seq .advance (.expect 'x'), .expect 'y']
    let outer : Expr Char Unit := .attempt (.choose "outer" [.memo "inner" (.call ()), .done])
    let next : Expr Char Unit := .choose "next" [.peek 2, .done]
    let source := CharStream.ofText "ab?"
    let start : Parser (Metered CharStream) Char := .new (.new source) {}
    let exhausted : ParseError Char := .exhausted "inner" ⟨'a', "a", 0, ⟨1, 1, 0⟩⟩
      (some (.mismatch 'x' ⟨'b', "b", 1, ⟨1, 2, 1⟩⟩))
    (Expr.eval rules 8 outer start).1 = .error (.failed exhausted) ∧
      ∃ i, 2 ≤ i ∧
        i + 1 = (Expr.eval rules 8 next (Expr.eval rules 8 outer start).2).2.window.stream.calls ∧
        answer source i = .error (.invalidCharacter '?' ⟨1, 3, 2⟩) := by
  intro rules outer next source start exhausted
  have hstart : Reachable rules (fun _ => True) source start := .new {}
  have hinner : Relation.ReflTransGen (Spawns rules) ⟨8, outer, start⟩ _ :=
    (((Relation.ReflTransGen.single .attempt).tail (.choose .speculation)).tail
      (.memoMiss rfl rfl)).tail .call
  obtain ⟨-, -, -, -, -, hescape⟩ :=
    only_mismatches_recovered hstart (Prod.eta (Expr.eval rules 8 outer start)).symm
  have hfirst : (Expr.eval rules 8 outer start).1 = .error (.failed exhausted) :=
    hescape _ "inner" _ _ hinner (by decide +kernel)
  have hnext : Reachable rules (fun _ => True) source _ :=
    hstart.after 8 trivial (by decide +kernel : isSettled (Expr.eval rules 8 outer start).1 = true)
  obtain ⟨-, -, -, -, hraised, -⟩ :=
    only_mismatches_recovered hnext (Prod.eta (Expr.eval rules 8 next _)).symm
  obtain ⟨i, hle, hlast, hanswer⟩ := hraised (.invalidCharacter '?' ⟨1, 3, 2⟩) (by decide +kernel)
  refine ⟨hfirst, i, ?_, hlast, hanswer⟩
  have hcalls : (Expr.eval rules 8 outer start).2.window.stream.calls = 2 := by decide +kernel
  rw [← hcalls]
  exact hle

end Packrat
