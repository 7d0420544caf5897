import Packrat.Proofs.Invariant

/-! # What passes from the parts of an evaluation to the whole

    Many properties of computations hold of an evaluation because they hold of the
    operations of a parser and are kept by sequence, speculation and memoization.
    `Compositional` lists what has to be shown of such a property and
    `Compositional.eval` is the one induction that follows from it.

    The properties used most are those of a single run: from parsers with an
    invariant the computation leads to parsers with the invariant, and a relation
    holds between the two (`Carries`).  They pass on to every moment inside an
    evaluation (`Spawns.carried`) and to every parser that can be reached at all,
    with marks set and released wherever the program likes (`Reachable`). -/

namespace Packrat

variable {σ κ ν α β : Type}

/-! ## What an expression is made of -/

/-- The second expression is a part of the first one, or what a name in it refers to. -/
inductive Expr.Part (rules : ν → Expr κ ν) : Expr κ ν → Expr κ ν → Prop where
  | attempt {body} : Part rules (.attempt body) body
  | choose {name alternatives e} : e ∈ alternatives → Part rules (.choose name alternatives) e
  | memo {name body} : Part rules (.memo name body) body
  | seqFirst {first second} : Part rules (.seq first second) first
  | seqSecond {first second} : Part rules (.seq first second) second
  | condYes {k depth yes no} : Part rules (.cond k depth yes no) yes
  | condNo {k depth yes no} : Part rules (.cond k depth yes no) no
  | loop {k body} : Part rules (.loop k body) body
  | trialGuard {guard yes no} : Part rules (.trial guard yes no) guard
  | trialYes {guard yes no} : Part rules (.trial guard yes no) yes
  | trialNo {guard yes no} : Part rules (.trial guard yes no) no
  | call {name} : Part rules (.call name) (rules name)

/-- The second expression occurs in the first one, at any depth and behind any names. -/
def Expr.Contains (rules : ν → Expr κ ν) : Expr κ ν → Expr κ ν → Prop :=
  Relation.ReflTransGen (Part rules)

/-- The expression sets and releases no marks of its own. -/
structure Expr.Quiet (rules : ν → Expr κ ν) (e : Expr κ ν) : Prop where
  mark : ¬ e.Contains rules .mark
  release : ∀ restore, ¬ e.Contains rules (.release restore)

/-- A part sets no marks that the whole does not set. -/
theorem Expr.Quiet.part {rules : ν → Expr κ ν} {e e' : Expr κ ν} (h : e.Quiet rules)
    (hpart : Expr.Part rules e e') : e'.Quiet rules :=
  ⟨fun hm => h.mark (hm.head hpart), fun restore hm => h.release restore (hm.head hpart)⟩

mutual

/-- No mark is set or released in the text of the expression. -/
def Expr.isQuiet : Expr κ ν → Bool
  | .mark | .release _ => false
  | .attempt body | .memo _ body | .loop _ body => body.isQuiet
  | .choose _ alternatives => Expr.areQuiet alternatives
  | .seq first second => first.isQuiet && second.isQuiet
  | .cond _ _ yes no => yes.isQuiet && no.isQuiet
  | .trial guard yes no => guard.isQuiet && (yes.isQuiet && no.isQuiet)
  | .done | .peek _ | .peekKind _ | .check _ | .expect _ | .advance | .call _ => true

/-- So it is with all the expressions. -/
def Expr.areQuiet : List (Expr κ ν) → Bool
  | [] => true
  | e :: es => e.isQuiet && Expr.areQuiet es

end

/-- A list of alternatives is quiet if each of them is. -/
theorem Expr.isQuiet_of_mem {e : Expr κ ν} {es : List (Expr κ ν)} (h : Expr.areQuiet es = true)
    (hmem : e ∈ es) : e.isQuiet = true := by
  induction es with
  | nil => exact nomatch hmem
  | cons e' es ih =>
      obtain ⟨he', hes⟩ := Bool.and_eq_true_iff.mp h
      rcases List.mem_cons.mp hmem with rfl | hin
      · exact he'
      · exact ih hes hin

/-- Whether an expression is quiet is seen in its text and in the text of the rules: no part of it
    sets a mark, wherever the parts come from. -/
theorem Expr.Part.isQuiet {rules : ν → Expr κ ν} {e e' : Expr κ ν} (h : Expr.Part rules e e')
    (hrules : ∀ name, (rules name).isQuiet = true) (he : e.isQuiet = true) :
    e'.isQuiet = true := by
  cases h with
  | attempt | memo | loop => exact he
  | choose hmem => exact Expr.isQuiet_of_mem he hmem
  | seqFirst | condYes | trialGuard => exact (Bool.and_eq_true_iff.mp he).1
  | seqSecond | condNo => exact (Bool.and_eq_true_iff.mp he).2
  | trialYes => exact (Bool.and_eq_true_iff.mp (Bool.and_eq_true_iff.mp he).2).1
  | trialNo => exact (Bool.and_eq_true_iff.mp (Bool.and_eq_true_iff.mp he).2).2
  | call => exact hrules _

/-- An expression over a grammar in whose text marks do not occur is quiet. -/
theorem Expr.quiet_of_isQuiet {rules : ν → Expr κ ν} (hrules : ∀ name, (rules name).isQuiet = true)
    {e : Expr κ ν} (he : e.isQuiet = true) : e.Quiet rules := by
  have hcontains : ∀ e', e.Contains rules e' → e'.isQuiet = true := by
    intro e' hc
    induction hc with
    | refl => exact he
    | tail _ hpart ih => exact hpart.isQuiet hrules ih
  exact ⟨fun hc => (nomatch hcontains _ hc), fun _ hc => (nomatch hcontains _ hc)⟩

variable [TokenStream σ κ] [DecidableEq κ] [TokenKind κ]

/-! ## Compositional properties -/

/-- The property holds of the operations of a parser, as far as `allowed` expressions use them, and
    is kept by the ways in which computations are put together. -/
structure Compositional (rules : ν → Expr κ ν) (allowed : Expr κ ν → Prop)
    (Q : ∀ {α : Type}, Parsing σ κ α → Prop) : Prop where
  parts : ∀ {e e'}, allowed e → Expr.Part rules e e' → allowed e'
  pure : ∀ {α : Type} (a : α), Q (Pure.pure a)
  outOfFuel : ∀ {α : Type}, Q (Run.halt .outOfFuel : Parsing σ κ α)
  fail : ∀ {α : Type} (e : ParseError κ), (∀ lex, e ≠ .lexical lex) → Q (Run.fail e : Parsing σ κ α)
  bind : ∀ {α β : Type} {m : Parsing σ κ α} {f : α → Parsing σ κ β}, Q m → (∀ a, Q (f a)) →
    Q (m >>= f)
  place : ∀ {α : Type} (f : Nat → α), Q (Run.read fun p => f p.absolute)
  peek : ∀ depth, Q (Parser.peek depth)
  advance : Q Parser.advance
  mark : allowed .mark → Q Parser.mark
  release : ∀ restore, allowed (.release restore) → Q (Parser.release restore)
  speculate : ∀ {rule}, Q rule → Q (Parser.speculate rule)
  memoize : ∀ {name body} (fuel : Nat), allowed (.memo name body) →
    Q (Expr.eval rules fuel body) →
    Q (Parser.memoize name (discard (Expr.eval rules fuel body)))

namespace Compositional

variable {rules : ν → Expr κ ν} {allowed : Expr κ ν → Prop}
  {Q : ∀ {α : Type}, Parsing σ κ α → Prop}

/-- Forgetting an answer is a bind. -/
theorem discard (h : Compositional rules allowed Q) {m : Parsing σ κ α} (hm : Q m) :
    Q (Functor.discard m : Parsing σ κ PUnit) :=
  h.bind hm fun _ => h.pure PUnit.unit

/-- The kind of a token is read off the token. -/
theorem peekKind (h : Compositional rules allowed Q) (depth : Nat) : Q (Parser.peekKind depth) :=
  h.bind (h.peek depth) fun _ => h.pure _

/-- A check is a look and a comparison. -/
theorem check (h : Compositional rules allowed Q) (k : κ) : Q (Parser.check k) :=
  h.bind (h.peekKind 0) fun _ => h.pure _

/-- A sight is a look and the position. -/
theorem sight (h : Compositional rules allowed Q) : Q Parser.sight :=
  h.bind (h.peek 0) fun t => h.place fun position => Sighting.ofToken position t

/-- Either branch has the property, and so has the choice between them. -/
theorem ite (_ : Compositional rules allowed Q) {c : Prop} [Decidable c] {m m' : Parsing σ κ α}
    (hm : Q m) (hm' : Q m') : Q (if c then m else m') := by
  by_cases hc : c
  · rw [if_pos hc]
    exact hm
  · rw [if_neg hc]
    exact hm'

/-- An expected token is checked for, and then passed or complained about; that complaint is no
    lexical one. -/
theorem expect (h : Compositional rules allowed Q) (k : κ) : Q (Parser.expect k) :=
  h.bind (h.check k) fun _ => h.ite h.advance
    (h.bind h.sight fun _ => h.fail _ fun _ heq => nomatch heq)

/-- An attempt is a speculation. -/
theorem attempt (h : Compositional rules allowed Q) {rule : Parsing σ κ Unit} (hr : Q rule) :
    Q (Parser.attempt rule) :=
  h.bind (h.speculate hr) fun _ => h.pure _

/-- A decision speculates on the alternatives one by one and runs the first that matches.  Without
    one it complains, and that complaint is no lexical one either. -/
theorem chooseFrom (h : Compositional rules allowed Q) (name : String)
    {alternatives : List (Parsing σ κ Unit)} (ha : ∀ m ∈ alternatives, Q m)
    (furthest : Option (ParseError κ)) : Q (Parser.chooseFrom name furthest alternatives) := by
  induction alternatives generalizing furthest with
  | nil => exact h.bind h.sight fun _ => h.fail _ fun _ heq => nomatch heq
  | cons m rest ih =>
      refine h.bind (h.speculate (ha m List.mem_cons_self)) ?_
      intro outcome
      cases outcome with
      | none => exact ha m List.mem_cons_self
      | some e => exact ih (fun m' hm' => ha m' (List.mem_cons_of_mem _ hm')) _

/-- **A compositional property holds of every evaluation** of an allowed expression. -/
theorem eval (h : Compositional rules allowed Q) (fuel : Nat) {e : Expr κ ν} (he : allowed e) :
    Q (Expr.eval rules fuel e) := by
  -- on the fuel: every part of an expression runs with less of it, and so does a loop again
  induction fuel generalizing e with
  | zero => exact h.outOfFuel
  | succ fuel ih =>
      have hpart : ∀ {e'}, Expr.Part rules e e' → Q (Expr.eval rules fuel e') :=
        fun hp => ih (h.parts he hp)
      cases e with
      | done => exact h.pure _
      | peek depth => exact h.bind (h.peek depth) fun _ => h.pure _
      | peekKind depth => exact h.bind (h.peekKind depth) fun _ => h.pure _
      | check k => exact h.bind (h.check k) fun _ => h.pure _
      | expect k => exact h.bind (h.expect k) fun _ => h.pure _
      | advance => exact h.bind h.advance fun _ => h.pure _
      | mark => exact h.bind (h.mark he) fun _ => h.pure _
      | release restore => exact h.bind (h.release restore he) fun _ => h.pure _
      | attempt body =>
          exact h.bind (h.attempt (h.discard (hpart .attempt))) fun _ => h.pure _
      | choose name alternatives =>
          refine h.bind (h.chooseFrom name ?_ none) fun _ => h.pure _
          intro m hm
          obtain ⟨e, hmem, rfl⟩ := List.mem_map.mp hm
          exact h.discard (hpart (.choose hmem))
      | memo name body =>
          exact h.bind (h.memoize fuel he (hpart .memo)) fun _ => h.pure _
      | seq first second =>
          exact h.bind (h.discard (hpart .seqFirst)) fun _ =>
            h.bind (h.discard (hpart .seqSecond)) fun _ => h.pure _
      | cond k depth yes no =>
          exact h.bind (h.peekKind depth) fun _ => h.ite (hpart .condYes) (hpart .condNo)
      | loop k body =>
          refine h.bind (h.check k) fun _ => h.ite ?_ (h.pure _)
          exact h.bind (h.discard (hpart .loop)) fun _ => ih he
      | trial guard yes no =>
          exact h.bind (h.attempt (h.discard (hpart .trialGuard))) fun _ =>
            h.ite (hpart .trialYes) (hpart .trialNo)
      | call name => exact hpart .call

end Compositional

/-! ## Properties of a single run -/

/-- How a run has ended, as far as the stream is concerned. -/
inductive Ending where
  /-- With a value, or with a complaint about a token. -/
  | settled
  /-- With a lexical error. -/
  | lexical (error : LexError)
  /-- With a broken rule of use, or without fuel. -/
  | broken

/-- How the outcome of a run looks from the stream. -/
def ending : Except (Halt (ParseError κ)) α → Ending
  | .ok _ => .settled
  | .error (.failed (.lexical e)) => .lexical e
  | .error (.failed (.mismatch _ _)) => .settled
  | .error (.failed (.exhausted _ _ _)) => .settled
  | .error (.fault _) => .broken
  | .error .outOfFuel => .broken

omit [DecidableEq κ] [TokenKind κ] in
/-- A run that is not broken off has settled. -/
theorem isSettled_iff_ending {r : Except (Halt (ParseError κ)) α} :
    isSettled r = true ↔ ending r ≠ .broken := by
  rcases r with ⟨⟨_ | _ | _⟩ | _ | _⟩ | _ <;> simp [isSettled, ending]

/-- From a parser in `I` the computation leads to one in `I`, if it settles, and `R` holds between
    the two, whatever the ending. -/
def Carries (I : Parser σ κ → Prop) (R : Parser σ κ → Ending → Parser σ κ → Prop)
    (m : Parsing σ κ α) : Prop :=
  ∀ p, I p → (isSettled (m p).1 = true → I (m p).2) ∧ R p (ending (m p).1) (m p).2

/-- Runs can be put one behind the other, as long as they settle. -/
structure Chains (R : Parser σ κ → Ending → Parser σ κ → Prop) : Prop where
  refl : ∀ p, R p .settled p
  broken : ∀ p, R p .broken p
  trans : ∀ {p q r x}, R p .settled q → R q x r → R p x r

namespace Carries

variable {I : Parser σ κ → Prop} {R : Parser σ κ → Ending → Parser σ κ → Prop}

omit [TokenStream σ κ] [DecidableEq κ] [TokenKind κ]

/-- What is carried, put in terms of one run and its outcome. -/
theorem of_eq {m : Parsing σ κ α} (h : Carries I R m) {p q : Parser σ κ}
    {r : Except (Halt (ParseError κ)) α} (hp : I p) (heq : m p = (r, q)) :
    (isSettled r = true → I q) ∧ R p (ending r) q := by
  have hm := h p hp
  rw [heq] at hm
  exact hm

/-- An answer without a step stays where it is. -/
theorem pure (hR : Chains R) (a : α) : Carries I R (Pure.pure a : Parsing σ κ α) :=
  fun p hp => ⟨fun _ => hp, hR.refl p⟩

/-- So does reading. -/
theorem read (hR : Chains R) (f : Parser σ κ → α) : Carries I R (Run.read f : Parsing σ κ α) :=
  fun p hp => ⟨fun _ => hp, hR.refl p⟩

/-- A run without fuel is broken off, and nothing need hold behind it. -/
theorem outOfFuel (hR : Chains R) : Carries I R (Run.halt .outOfFuel : Parsing σ κ α) :=
  fun p _ => ⟨(fun hset => nomatch hset), hR.broken p⟩

/-- A complaint that is not the lexer's settles a run that has not moved. -/
theorem fail (hR : Chains R) {e : ParseError κ} (he : ∀ lex, e ≠ .lexical lex) :
    Carries I R (Run.fail e : Parsing σ κ α) := by
  intro p hp
  refine ⟨fun _ => hp, ?_⟩
  cases e with
  | lexical lex => exact absurd rfl (he lex)
  | mismatch _ _ => exact hR.refl p
  | exhausted _ _ _ => exact hR.refl p

/-- The second part starts where the first has settled.  Where the first has not, the run ends as
    the first does. -/
theorem bind (hR : Chains R) {m : Parsing σ κ α} {f : α → Parsing σ κ β} (hm : Carries I R m)
    (hf : ∀ a, Carries I R (f a)) : Carries I R (m >>= f) := by
  intro p hp
  rcases hr : m p with ⟨r, q⟩
  obtain ⟨hq, hpq⟩ := hm.of_eq hp hr
  -- the invariant is known to hold behind settled outcomes only
  match r, hr with
  | .ok a, hr =>
      rw [Run.bind_of_ok hr]
      obtain ⟨hq', hqr⟩ := hf a q (hq rfl)
      exact ⟨hq', hR.trans hpq hqr⟩
  | .error (.failed (.lexical _)), hr
  | .error (.failed (.mismatch _ _)), hr
  | .error (.failed (.exhausted _ _ _)), hr =>
      rw [Run.bind_of_error hr]
      exact ⟨fun _ => hq rfl, hpq⟩
  | .error (.fault _), hr
  | .error .outOfFuel, hr =>
      rw [Run.bind_of_error hr]
      exact ⟨(fun hset => nomatch hset), hpq⟩

end Carries

/-- What is left to show when the property is one of a single run. -/
theorem Compositional.of_carries {rules : ν → Expr κ ν} {allowed : Expr κ ν → Prop}
    {I : Parser σ κ → Prop} {R : Parser σ κ → Ending → Parser σ κ → Prop} (hR : Chains R)
    (parts : ∀ {e e'}, allowed e → Expr.Part rules e e' → allowed e')
    (peek : ∀ depth, Carries I R (Parser.peek depth)) (advance : Carries I R Parser.advance)
    (mark : allowed .mark → Carries I R Parser.mark)
    (release : ∀ restore, allowed (.release restore) → Carries I R (Parser.release restore))
    (speculate : ∀ {rule}, Carries I R rule → Carries I R (Parser.speculate rule))
    (memoize : ∀ {name body} (fuel : Nat), allowed (.memo name body) →
      Carries I R (Expr.eval rules fuel body) →
      Carries I R (Parser.memoize name (Functor.discard (Expr.eval rules fuel body)))) :
    Compositional rules allowed (fun m => Carries I R m) where
  parts := parts
  pure := Carries.pure hR
  outOfFuel := Carries.outOfFuel hR
  fail _ he := Carries.fail hR he
  bind := Carries.bind hR
  place f := Carries.read hR fun p => f p.absolute
  peek := peek
  advance := advance
  mark := mark
  release := release
  speculate := speculate
  memoize := memoize

/-! ## Inside an evaluation -/

section Inside

variable {rules : ν → Expr κ ν} {allowed : Expr κ ν → Prop} {I : Parser σ κ → Prop}
  {R : Parser σ κ → Ending → Parser σ κ → Prop} {T : Parser σ κ → Parser σ κ → Prop}

/-- The relation `T` holds across runs in `R`, new marks and questions to the memo table. -/
structure Persists (I : Parser σ κ → Prop) (R : Parser σ κ → Ending → Parser σ κ → Prop)
    (T : Parser σ κ → Parser σ κ → Prop) : Prop where
  refl : ∀ p, T p p
  trans : ∀ {p q r}, T p q → T q r → T p r
  run : ∀ {p q}, R p .settled q → T p q
  marked : ∀ p, I p → I p.marked ∧ T p p.marked
  asked : ∀ name p, I p → I (p.asked name) ∧ T p (p.asked name)

omit [TokenStream σ κ] [DecidableEq κ] [TokenKind κ] in
/-- After a run that ends with a value the property holds, and so does the relation. -/
theorem Persists.of_eq (hT : Persists I R T) {m : Parsing σ κ α} (hm : Carries I R m)
    {p q : Parser σ κ} {a : α} (hp : I p) (heq : m p = (.ok a, q)) : I q ∧ T p q := by
  obtain ⟨hq, hpq⟩ := hm.of_eq hp heq
  exact ⟨hq rfl, hT.run hpq⟩

/-- An alternative that is tried is one of those that were given, and the tries before it have led
    to a parser with the property. -/
theorem Tries.carried (h : Compositional rules allowed (fun m => Carries I R m))
    (hT : Persists I R T) {n : Nat} {alternatives : List (Expr κ ν)} {p q : Parser σ κ}
    {e : Expr κ ν} (ht : Tries rules n alternatives p e q) (ha : ∀ e ∈ alternatives, allowed e)
    (hp : I p) : e ∈ alternatives ∧ I q ∧ T p q := by
  induction ht with
  | @speculation _ _ p => exact ⟨List.mem_cons_self, hT.marked p hp⟩
  | chosen hs =>
      have hm := h.speculate (h.discard (h.eval n (ha _ List.mem_cons_self)))
      exact ⟨List.mem_cons_self, hT.of_eq hm hp hs⟩
  | next hs _ ih =>
      have hm := h.speculate (h.discard (h.eval n (ha _ List.mem_cons_self)))
      obtain ⟨hq, hpq⟩ := hT.of_eq hm hp hs
      obtain ⟨hmem, hq', hqq'⟩ := ih (fun e he => ha e (List.mem_cons_of_mem _ he)) hq
      exact ⟨List.mem_cons_of_mem _ hmem, hq', hT.trans hpq hqq'⟩

/-- What a call runs directly is allowed, and it is run on a parser in the invariant. -/
theorem Spawns.carried (h : Compositional rules allowed (fun m => Carries I R m))
    (hT : Persists I R T) {c c' : Call σ κ ν} (hs : Spawns rules c c') (he : allowed c.expr)
    (hp : I c.parser) : allowed c'.expr ∧ I c'.parser ∧ T c.parser c'.parser := by
  cases hs with
  | attempt => exact ⟨h.parts he .attempt, hT.marked _ hp⟩
  | choose ht =>
      have ha : ∀ e ∈ _, allowed e := fun e hmem => h.parts he (.choose hmem)
      obtain ⟨hmem, hq⟩ := ht.carried h hT ha hp
      exact ⟨ha _ hmem, hq⟩
  | memoOff _ => exact ⟨h.parts he .memo, hp, hT.refl _⟩
  | memoMiss _ hq =>
      obtain ⟨-, rfl⟩ := Prod.mk.inj hq
      exact ⟨h.parts he .memo, hT.asked _ _ hp⟩
  | seqFirst => exact ⟨h.parts he .seqFirst, hp, hT.refl _⟩
  | seqSecond hq =>
      exact ⟨h.parts he .seqSecond, hT.of_eq (h.eval _ (h.parts he .seqFirst)) hp hq⟩
  | condYes hq => exact ⟨h.parts he .condYes, hT.of_eq (h.peekKind _) hp hq⟩
  | condNo hq _ => exact ⟨h.parts he .condNo, hT.of_eq (h.peekKind _) hp hq⟩
  | loopBody hq => exact ⟨h.parts he .loop, hT.of_eq (h.check _) hp hq⟩
  -- what is run again begins behind the check and one run of the body
  | loopAgain hq hv =>
      obtain ⟨hq₁, hpq⟩ := hT.of_eq (h.check _) hp hq
      obtain ⟨hq₂, hqq⟩ := hT.of_eq (h.eval _ (h.parts he .loop)) hq₁ hv
      exact ⟨he, hq₂, hT.trans hpq hqq⟩
  | trialGuard => exact ⟨h.parts he .trialGuard, hT.marked _ hp⟩
  | @trialYes n _ _ _ _ _ hq =>
      have hm := h.attempt (h.discard (h.eval n (h.parts he .trialGuard)))
      exact ⟨h.parts he .trialYes, hT.of_eq hm hp hq⟩
  | @trialNo n _ _ _ _ _ hq =>
      have hm := h.attempt (h.discard (h.eval n (h.parts he .trialGuard)))
      exact ⟨h.parts he .trialNo, hT.of_eq hm hp hq⟩
  | call => exact ⟨h.parts he .call, hp, hT.refl _⟩

/-- So it is with what these calls run, and so on. -/
theorem spawned_carried (h : Compositional rules allowed (fun m => Carries I R m))
    (hT : Persists I R T) {c c' : Call σ κ ν} (hs : Relation.ReflTransGen (Spawns rules) c c')
    (he : allowed c.expr) (hp : I c.parser) :
    allowed c'.expr ∧ I c'.parser ∧ T c.parser c'.parser := by
  induction hs with
  | refl => exact ⟨he, hp, hT.refl _⟩
  | tail _ hstep ih =>
      obtain ⟨he', hp', hcc'⟩ := ih
      obtain ⟨he'', hp'', hcc''⟩ := hstep.carried h hT he' hp'
      exact ⟨he'', hp'', hT.trans hcc' hcc''⟩

end Inside

/-! ## Parsers that can be reached -/

/-- The parser is met in the course of a parse of `source`: a fresh parser is, so is every parser
    that a settled evaluation on such a parser leaves behind, and so is every parser that something
    is run on inside such an evaluation. -/
inductive Reachable (rules : ν → Expr κ ν) (allowed : Expr κ ν → Prop) (source : σ) :
    Parser (Metered σ) κ → Prop where
  | new (options : Options) : Reachable rules allowed source (.new (.new source) options)
  | after {p e} (fuel : Nat) : Reachable rules allowed source p → allowed e →
      isSettled (Expr.eval rules fuel e p).1 = true →
      Reachable rules allowed source (Expr.eval rules fuel e p).2
  | inside {p e c} (fuel : Nat) : Reachable rules allowed source p → allowed e →
      Relation.ReflTransGen (Spawns rules) ⟨fuel, e, p⟩ c → Reachable rules allowed source c.parser

/-- What is reached with allowed expressions is reached with expressions. -/
theorem Reachable.anyhow {rules : ν → Expr κ ν} {allowed : Expr κ ν → Prop} {source : σ}
    {p : Parser (Metered σ) κ} (h : Reachable rules allowed source p) :
    Reachable rules (fun _ => True) source p := by
  induction h with
  | new options => exact .new options
  | after fuel _ _ hset ih => exact .after fuel ih trivial hset
  | inside fuel _ _ hc ih => exact .inside fuel ih trivial hc

/-- **An invariant that evaluations carry holds of every parser that can be reached.** -/
theorem Reachable.invariant {rules : ν → Expr κ ν} {allowed : Expr κ ν → Prop} {source : σ}
    {I : Parser (Metered σ) κ → Prop}
    {R : Parser (Metered σ) κ → Ending → Parser (Metered σ) κ → Prop}
    (h : Compositional rules allowed (fun m => Carries I R m))
    (hI : Persists I R fun _ _ => True) (hnew : ∀ options, I (.new (.new source) options))
    {p : Parser (Metered σ) κ} (hp : Reachable rules allowed source p) : I p := by
  induction hp with
  | new options => exact hnew options
  | after fuel _ he hset ih => exact (h.eval fuel he _ ih).1 hset
  | inside fuel _ he hc ih => exact (spawned_carried h hI hc he ih).2.1

end Packrat
