import Packrat.Proofs.Lookahead
import Packrat.Proofs.Simulation

/-! # Tame expressions in untamed programs

    A program that sets marks inside the rules it remembers may leave spans in the
    memo table that mean nothing.  An expression without bare marks never asks for
    them, as long as every memo name stands for one body: two parsers that differ in
    such spans only are alike to it (`Alike`, `Blind`).

    So a parser can be in step with a tape up to likeness (`Trails`), and every
    parser that can be reached is, whatever the program did with its marks (`Led`),
    also with a tape of which something is known (`LedOn`).  From there a tame
    expression does on the parser what it does on the tape. -/

namespace Packrat

variable {σ κ ν α β : Type}

/-! ## One body for every memo name -/

/-- What is remembered in the expression under a name is the body of that name. -/
def Expr.Consistent (rules : ν → Expr κ ν) (bodies : String → Expr κ ν) (e : Expr κ ν) : Prop :=
  ∀ name body, e.Contains rules (.memo name body) → body = bodies name

/-- A part remembers nothing that the whole does not. -/
theorem Expr.Consistent.part {rules : ν → Expr κ ν} {bodies : String → Expr κ ν} {e e' : Expr κ ν}
    (h : e.Consistent rules bodies) (hpart : Expr.Part rules e e') : e'.Consistent rules bodies :=
  fun name body hc => h name body (hc.head hpart)

/-- It is enough to look at the expression itself and at its parts. -/
theorem Expr.Consistent.of_parts {rules : ν → Expr κ ν} {bodies : String → Expr κ ν} {e : Expr κ ν}
    (hself : ∀ name body, e = .memo name body → body = bodies name)
    (hparts : ∀ e', Expr.Part rules e e' → e'.Consistent rules bodies) :
    e.Consistent rules bodies := by
  intro name body hc
  rcases hc.cases_head with heq | ⟨e', hpart, hc'⟩
  · exact hself name body heq
  · exact hparts e' hpart name body hc'

/-- The expression sets no marks of its own, and its memo names have one body each. -/
structure Expr.Tame (rules : ν → Expr κ ν) (bodies : String → Expr κ ν) (e : Expr κ ν) :
    Prop where
  quiet : e.Quiet rules
  consistent : e.Consistent rules bodies

/-- Parts of a tame expression are tame. -/
theorem Expr.Tame.part {rules : ν → Expr κ ν} {bodies : String → Expr κ ν} {e e' : Expr κ ν}
    (h : e.Tame rules bodies) (hpart : Expr.Part rules e e') : e'.Tame rules bodies :=
  ⟨h.quiet.part hpart, h.consistent.part hpart⟩

section Discipline

variable (rules : ν → Expr κ ν) (bodies : String → Expr κ ν)

/-- What tame expressions promise. -/
def tameDiscipline : Discipline κ ν where
  quiet name := (rules name).Tame rules bodies
  memo name body := body = bodies name ∧ body.Tame rules bodies
  depth _ := True

open Classical in
/-- The tame part of a grammar. -/
noncomputable def tamed (name : ν) : Expr κ ν :=
  if (rules name).Tame rules bodies then rules name else .done

/-- Names have one body each. -/
theorem functional_tameDiscipline : (tameDiscipline rules bodies).Functional := by
  rintro name body body' ⟨rfl, -⟩ ⟨rfl, -⟩
  rfl

variable {rules bodies}

/-- A tame expression keeps to that discipline.  The discipline is made of tameness, so this only
    follows the expression down to its parts. -/
theorem Expr.Tame.lawful (e : Expr κ ν) (h : e.Tame rules bodies) :
    Lawful (tameDiscipline rules bodies) false e := by
  -- on the expression, with the calls left to what the discipline says of every rule
  match e with
  | .done => exact .done
  | .peek _ => exact .peek trivial
  | .peekKind _ => exact .peekKind trivial
  | .check _ => exact .check
  | .expect _ => exact .expect
  | .advance => exact .advance
  -- marks and releases do not occur, and everything else hands the property to its parts
  | .mark => exact absurd .refl h.quiet.mark
  | .release restore => exact absurd .refl (h.quiet.release restore)
  | .attempt body => exact .attempt (lawful body (h.part .attempt))
  | .choose _ alternatives =>
      exact .choose fun e hmem => lawful e (h.part (.choose hmem))
  | .memo name body =>
      have hbody := h.part .memo
      exact .memo ⟨h.consistent name body .refl, hbody⟩ (lawful body hbody)
  | .seq first second =>
      exact .seq (lawful first (h.part .seqFirst)) (lawful second (h.part .seqSecond))
  | .cond _ _ yes no =>
      exact .cond trivial (lawful yes (h.part .condYes)) (lawful no (h.part .condNo))
  | .loop _ body => exact .loop (lawful body (h.part .loop))
  | .trial guard yes no =>
      exact .trial (lawful guard (h.part .trialGuard)) (lawful yes (h.part .trialYes))
        (lawful no (h.part .trialNo))
  | .call _ => exact .call fun _ => h.part .call

/-- In the tame part of a grammar all rules do, for those that are not tame have nothing left to
    do. -/
theorem governs_tamed : (tameDiscipline rules bodies).Governs (tamed rules bodies) := by
  intro bare name _
  rw [tamed]
  split
  · next h => exact h.lawful.anywhere
  · exact .done

end Discipline

section Disciplined

variable {d : Discipline κ ν} {rules : ν → Expr κ ν}

open Classical in
/-- The bodies that a discipline gives to its memo names.  A name without one gets an expression
    that is not tame. -/
noncomputable def Discipline.bodies (d : Discipline κ ν) (name : String) : Expr κ ν :=
  if h : ∃ body, d.memo name body then h.choose else .mark

/-- A functional discipline knows one body, and that is the one which is found. -/
theorem Discipline.bodies_eq (hfun : d.Functional) {name : String} {body : Expr κ ν}
    (h : d.memo name body) : d.bodies name = body := by
  have hsome : ∃ body, d.memo name body := ⟨body, h⟩
  rw [bodies, dif_pos hsome]
  exact hfun name _ _ hsome.choose_spec h

/-- A body that is tame has been given to the name. -/
theorem Discipline.exists_memo {name : String} {bodies : String → Expr κ ν}
    (h : (d.bodies name).Tame rules bodies) : ∃ body, d.memo name body := by
  by_contra hnone
  rw [Discipline.bodies, dif_neg hnone] at h
  exact h.quiet.mark .refl

/-- What a discipline asks of an expression it asks of its parts. -/
theorem Lawful.part (hrules : d.Governs rules) {bare : Bool} {e e' : Expr κ ν}
    (h : Lawful d bare e) (hpart : Expr.Part rules e e') : Lawful d bare e' := by
  cases h with
  | attempt hb => cases hpart; exact hb.anywhere
  | choose hb => cases hpart with | choose hmem => exact (hb _ hmem).anywhere
  | memo _ hb => cases hpart; exact hb.anywhere
  | seq ha hb =>
      cases hpart with
      | seqFirst => exact ha
      | seqSecond => exact hb
  | cond _ hy hn =>
      cases hpart with
      | condYes => exact hy
      | condNo => exact hn
  | loop hb => cases hpart; exact hb
  | trial hg hy hn =>
      cases hpart with
      | trialGuard => exact hg.anywhere
      | trialYes => exact hy
      | trialNo => exact hn
  | call hq => cases hpart; exact hrules bare _ hq
  | _ => exact nomatch hpart

/-- And of all that they contain, rule by rule. -/
theorem Lawful.contains (hrules : d.Governs rules) {bare : Bool} {e e' : Expr κ ν}
    (h : Lawful d bare e) (hc : e.Contains rules e') : Lawful d bare e' := by
  induction hc with
  | refl => exact h
  | tail _ hpart ih => exact ih.part hrules hpart

/-- What a program promises a name is all that is remembered under it. -/
theorem Lawful.memo_of_contains (hrules : d.Governs rules) {bare : Bool} {e body : Expr κ ν}
    {name : String} (h : Lawful d bare e) (hc : e.Contains rules (.memo name body)) :
    d.memo name body := by
  cases h.contains hrules hc with
  | memo hm _ => exact hm

/-- **Lawful expressions without bare marks are tame.** -/
theorem Lawful.tame (hrules : d.Governs rules) (hfun : d.Functional) {e : Expr κ ν}
    (h : Lawful d false e) : e.Tame rules d.bodies where
  quiet := ⟨fun hc => (nomatch h.contains hrules hc), fun _ hc => (nomatch h.contains hrules hc)⟩
  consistent _ _ hc := (Discipline.bodies_eq hfun (h.memo_of_contains hrules hc)).symm

end Disciplined

section Congruence

variable [TokenStream σ κ] [DecidableEq κ] [TokenKind κ]

/-- An evaluation sees no more of a grammar than the names it can get to. -/
theorem Expr.eval_congr {rules rules' : ν → Expr κ ν} {allowed : Expr κ ν → Prop}
    (hparts : ∀ {e e'}, allowed e → Expr.Part rules e e' → allowed e')
    (hcall : ∀ name, allowed (.call name) → rules' name = rules name) (fuel : Nat)
    {e : Expr κ ν} (he : allowed e) :
    (Expr.eval rules' fuel e : Parsing σ κ (Value κ)) = Expr.eval rules fuel e := by
  -- on the fuel: what is allowed leads to what is allowed, and there the rules agree
  induction fuel generalizing e with
  | zero => rfl
  | succ fuel ih =>
      have hpart : ∀ {e'}, Expr.Part rules e e' →
          (Expr.eval rules' fuel e' : Parsing σ κ (Value κ)) = Expr.eval rules fuel e' :=
        fun hp => ih (hparts he hp)
      cases e with
      | attempt body => rw [Expr.eval, Expr.eval, hpart .attempt]
      | choose name alternatives =>
          have hall : alternatives.map (fun e => discard (Expr.eval rules' fuel e))
              = alternatives.map fun e => (discard (Expr.eval rules fuel e) : Parsing σ κ Unit) :=
            List.map_congr_left fun e hmem => by rw [hpart (.choose hmem)]
          rw [Expr.eval, Expr.eval, hall]
      | memo name body => rw [Expr.eval, Expr.eval, hpart .memo]
      | seq first second => rw [Expr.eval, Expr.eval, hpart .seqFirst, hpart .seqSecond]
      | cond k depth yes no => rw [Expr.eval, Expr.eval, hpart .condYes, hpart .condNo]
      | loop k body => rw [Expr.eval, Expr.eval, hpart .loop, ih he]
      | trial guard yes no =>
          rw [Expr.eval, Expr.eval, hpart .trialGuard, hpart .trialYes, hpart .trialNo]
      | call name => rw [Expr.eval, Expr.eval, hcall name he, hpart .call]
      | _ => rfl

/-- Tame expressions do not notice that the grammar is tamed. -/
theorem eval_tamed {rules : ν → Expr κ ν} {bodies : String → Expr κ ν} (fuel : Nat)
    {e : Expr κ ν} (he : e.Tame rules bodies) :
    (Expr.eval (tamed rules bodies) fuel e : Parsing σ κ (Value κ)) = Expr.eval rules fuel e :=
  Expr.eval_congr Expr.Tame.part (fun _ h => if_pos (h.part .call)) fuel he

end Congruence

/-! ## Parsers that are alike -/

/-- The parsers differ at most in what the memo table holds for names outside of `known`. -/
structure Alike (known : String → Prop) (p p' : Parser σ κ) : Prop where
  window : p'.window = p.window
  marks : p'.marks = p.marks
  options : p'.options = p.options
  truncations : p'.truncations = p.truncations
  memo : ∀ rule position, known rule →
    p'.memo.find? rule position = p.memo.find? rule position

namespace Alike

variable {known : String → Prop} {p p' : Parser σ κ}

/-- A parser is like itself. -/
theorem refl (p : Parser σ κ) : Alike known p p := ⟨rfl, rfl, rfl, rfl, fun _ _ _ => rfl⟩

/-- The cursor is not in the memo table. -/
theorem absolute (h : Alike known p p') : p'.absolute = p.absolute := by
  rw [Parser.absolute, h.window]
  rfl

/-- A new window, the same on both, is no difference. -/
theorem withWindow (h : Alike known p p') (w : Window σ κ) :
    Alike known { p with window := w } { p' with window := w } :=
  ⟨rfl, h.marks, h.options, h.truncations, h.memo⟩

/-- Nor are new marks. -/
theorem withMarks (h : Alike known p p') (marks : Marks) :
    Alike known { p with marks } { p' with marks } :=
  ⟨h.window, rfl, h.options, h.truncations, h.memo⟩

/-- Truncation drops the same entries on both sides, and says nothing about which were there. -/
theorem truncate (h : Alike known p p') : Alike known p.truncate p'.truncate := by
  refine ⟨congrArg Window.truncate h.window, h.marks, h.options,
    congrArg (· + 1) h.truncations, fun rule position hknown => ?_⟩
  show (p'.memo.dropBefore (p'.window.truncate.retired + 1)).find? rule position
    = (p.memo.dropBefore (p.window.truncate.retired + 1)).find? rule position
  rw [Memo.find?_dropBefore, Memo.find?_dropBefore, h.window, h.memo rule position hknown]

/-- Both are truncated or neither, for that is up to the window and the marks. -/
theorem tidied (h : Alike known p p') : Alike known p.tidied p'.tidied := by
  have hsame : (p'.window.isDrained && !p'.isSpeculating)
      = (p.window.isDrained && !p.isSpeculating) := by
    rw [Parser.isSpeculating, h.window, h.marks]
    rfl
  rw [Parser.tidied, Parser.tidied, hsame]
  split
  · exact h.truncate
  · exact h

/-- A question changes counters, and these may differ. -/
theorem asked (h : Alike known p p') (rule : String) :
    Alike known (p.asked rule) (p'.asked rule) :=
  ⟨h.window, h.marks, h.options, h.truncations, fun rule' position hknown => by
    rw [Parser.asked, Parser.asked, Memo.find?_lookup, Memo.find?_lookup]
    exact h.memo rule' position hknown⟩

/-- An entry that comes in on both sides is no difference. -/
theorem store (h : Alike known p p') (rule : String) (position : Nat) (span : Span) :
    Alike known { p with memo := p.memo.store rule position span }
      { p' with memo := p'.memo.store rule position span } := by
  refine ⟨h.window, h.marks, h.options, h.truncations, fun rule' position' hknown => ?_⟩
  by_cases heq : rule = rule' ∧ position = position'
  · obtain ⟨rfl, rfl⟩ := heq
    exact (Memo.find?_store_self ..).trans (Memo.find?_store_self ..).symm
  · rw [Memo.find?_store_of_ne _ _ heq, Memo.find?_store_of_ne _ _ heq]
    exact h.memo rule' position' hknown

end Alike

/-- The computation ends alike on parsers that are alike. -/
def Blind (known : String → Prop) (m : Parsing σ κ α) : Prop :=
  ∀ p p', Alike known p p' → (m p').1 = (m p).1 ∧ Alike known (m p).2 (m p').2

namespace Blind

variable {known : String → Prop}

/-- An answer without a step does not depend on the table. -/
theorem pure (a : α) : Blind known (Pure.pure a : Parsing σ κ α) := fun _ _ h => ⟨rfl, h⟩

/-- And neither does a halt. -/
theorem halt (h : Halt (ParseError κ)) : Blind known (Run.halt h : Parsing σ κ α) :=
  fun _ _ h => ⟨rfl, h⟩

/-- What is read must not depend on it. -/
theorem read {f : Parser σ κ → α} (hf : ∀ p p', Alike known p p' → f p' = f p) :
    Blind known (Run.read f : Parsing σ κ α) :=
  fun p p' h => ⟨congrArg Except.ok (hf p p' h), h⟩

/-- And what is changed must not carry a difference over. -/
theorem update {f : Parser σ κ → Parser σ κ}
    (hf : ∀ p p', Alike known p p' → Alike known (f p) (f p')) :
    Blind known (Run.update f : Parsing σ κ Unit) :=
  fun p p' h => ⟨rfl, hf p p' h⟩

/-- One blind computation behind another sees as little. -/
theorem bind {m : Parsing σ κ α} {f : α → Parsing σ κ β} (hm : Blind known m)
    (hf : ∀ a, Blind known (f a)) : Blind known (m >>= f) := by
  intro p p' h
  obtain ⟨hr, hq⟩ := hm p p' h
  rcases hp : m p with ⟨r, q⟩
  rcases hp' : m p' with ⟨r', q'⟩
  rw [hp, hp'] at hr hq
  obtain rfl : r' = r := hr
  cases r' with
  | ok a =>
      rw [Run.bind_of_ok hp, Run.bind_of_ok hp']
      exact hf a q q' hq
  | error e =>
      rw [Run.bind_of_error hp, Run.bind_of_error hp']
      exact ⟨rfl, hq⟩

/-- Complaints that are alike become answers that are alike. -/
theorem settle {m : Parsing σ κ α} (hm : Blind known m) : Blind known m.settle := by
  intro p p' h
  obtain ⟨hr, hq⟩ := hm p p' h
  rw [Run.snd_settle, Run.snd_settle]
  refine ⟨?_, hq⟩
  match hp : m p, hp' : m p' with
  | (.ok a, _), (r, _) =>
      rw [hp, hp'] at hr
      obtain rfl : r = .ok a := hr
      rw [Run.settle_of_ok hp, Run.settle_of_ok hp']
  | (.error (.failed e), _), (r, _) =>
      rw [hp, hp'] at hr
      obtain rfl : r = .error (.failed e) := hr
      rw [Run.settle_of_failed hp, Run.settle_of_failed hp']
  | (.error (.fault c), _), (r, _) =>
      rw [hp, hp'] at hr
      obtain rfl : r = .error (.fault c) := hr
      rw [Run.settle_of_fault hp, Run.settle_of_fault hp']
  | (.error .outOfFuel, _), (r, _) =>
      rw [hp, hp'] at hr
      obtain rfl : r = .error .outOfFuel := hr
      rw [Run.settle_of_outOfFuel hp, Run.settle_of_outOfFuel hp']

/-- The condition has been decided before, and both go the same way. -/
theorem ite {c : Prop} [Decidable c] {m m' : Parsing σ κ α} (hm : Blind known m)
    (hm' : Blind known m') : Blind known (if c then m else m') := by
  by_cases hc : c
  · rw [if_pos hc]
    exact hm
  · rw [if_neg hc]
    exact hm'

/-- The window is out of reach of the memo table. -/
theorem onWindow (m : Run (Window σ κ) LexError α) : Blind known (Parser.onWindow m) := by
  intro p p' h
  rcases hm : m p.window with ⟨e | a, w⟩
  · rw [Parser.onWindow_error hm, Parser.onWindow_error (h.window.symm ▸ hm)]
    exact ⟨rfl, h.withWindow w⟩
  · rw [Parser.onWindow_ok hm, Parser.onWindow_ok (h.window.symm ▸ hm)]
    exact ⟨rfl, h.withWindow w⟩

/-- A mark notes a place in the window. -/
theorem mark : Blind known (Parser.mark : Parsing σ κ Nat) := by
  refine (update fun p p' h => ?_).bind fun _ => read fun p p' h => congrArg Marks.depth h.marks
  refine ⟨h.window, ?_, h.options, h.truncations, h.memo⟩
  rw [h.marks, h.window]

/-- A release goes back to one. -/
theorem release (restore : Bool) : Blind known (Parser.release restore : Parsing σ κ Unit) := by
  intro p p' h
  rw [Parser.release, Parser.release, h.marks]
  rcases p.marks.pop with ⟨_ | c, cs⟩
  · exact ⟨rfl, h⟩
  · cases restore with
    | false => exact ⟨rfl, h.withMarks cs⟩
    | true => exact onWindow (Window.seek c) _ _ (h.withMarks cs)

/-- The mark, the rule and the release see as little as each of them. -/
theorem speculate {rule : Parsing σ κ Unit} (h : Blind known rule) :
    Blind known (Parser.speculate rule) := by
  refine mark.bind fun _ => h.settle.bind fun outcome => (release true).bind fun _ => ?_
  match outcome with
  | .ok () => exact pure none
  | .error e => exact ite (pure (some e)) (halt _)

/-- What is known of a name is asked for, used and recorded on both sides. -/
theorem memoize {name : String} {body : Parsing σ κ Unit} (hknown : known name)
    (h : Blind known body) : Blind known (Parser.memoize name body) := by
  -- the table is asked and told under a known name only, and the rest of the parser agrees
  have hconsult : Blind known (Parser.consult name : Parsing σ κ (Option Span)) := by
    intro p p' hp
    rw [Parser.consult_apply, Parser.consult_apply, hp.absolute, hp.memo name p.absolute hknown]
    exact ⟨rfl, hp.asked name⟩
  have hjump : ∀ span, Blind known (Parser.jump span : Parsing σ κ Unit) := fun span =>
    (read fun _ _ hp => congrArg Window.cursor hp.window).bind fun _ =>
      ite (onWindow _) (halt _)
  have hrecord : ∀ position start,
      Blind known (Parser.record name position start : Parsing σ κ Unit) := by
    intro position start p p' hp
    rw [Parser.record, Parser.record, hp.window]
    split
    · split
      · next span _ =>
          have hstored := hp.store name position span
          exact ⟨rfl, rfl, hstored.marks, hstored.options, hstored.truncations, hstored.memo⟩
      · exact ⟨rfl, hp⟩
    · exact ⟨rfl, hp⟩
  have hrun : Blind known (Parser.runAndRecord name body) :=
    (read fun _ _ hp => hp.absolute).bind fun position =>
      (read fun _ _ hp => congrArg Window.cursor hp.window).bind fun start =>
        h.bind fun _ => hrecord position start
  refine (read fun _ _ hp => congrArg Options.memoize hp.options).bind fun _ => ite ?_ h
  refine hconsult.bind fun found => ?_
  cases found with
  | none => exact hrun
  | some span => exact hjump span

variable [TokenStream σ κ] [DecidableEq κ] [TokenKind κ]

/-- Stepping past a token may truncate the window, and the table with it. -/
theorem advance : Blind known (Parser.advance : Parsing σ κ Unit) :=
  (onWindow _).bind fun _ => update fun _ _ h => h.tidied

end Blind

/-- **Tame expressions end alike on parsers that are alike.** -/
theorem compositional_blind [TokenStream σ κ] [DecidableEq κ] [TokenKind κ]
    (rules : ν → Expr κ ν) (bodies : String → Expr κ ν) :
    Compositional (σ := σ) rules (Expr.Tame rules bodies)
      (fun m => Blind (fun name => (bodies name).Tame rules bodies) m) where
  parts := Expr.Tame.part
  pure := Blind.pure
  outOfFuel := Blind.halt _
  fail _ _ := Blind.halt _
  bind := Blind.bind
  place f := Blind.read fun _ _ h => congrArg f h.absolute
  peek _ := Blind.onWindow _
  advance := Blind.advance
  mark h := absurd .refl h.quiet.mark
  release restore h := absurd .refl (h.quiet.release restore)
  speculate := Blind.speculate
  memoize {name body} _ h hbody := by
    have hknown : (bodies name).Tame rules bodies :=
      h.consistent name body .refl ▸ h.part .memo
    exact Blind.memoize hknown (hbody.bind fun _ => Blind.pure _)

/-! ## In step with a tape, up to likeness -/

section Trails

variable [TokenStream σ κ] [DecidableEq κ] [TokenKind κ] {rules : ν → Expr κ ν}
  {bodies : String → Expr κ ν}

/-- The parser is in step with a tape, as far as tame expressions can tell. -/
def Trails (rules : ν → Expr κ ν) (bodies : String → Expr κ ν) (p : Parser σ κ)
    (t : Tape σ κ) : Prop :=
  ∃ p', Alike (fun name => (bodies name).Tame rules bodies) p p' ∧
    Mirrors (tameDiscipline rules bodies) (tamed rules bodies) p' t

namespace Trails

variable {p q : Parser σ κ} {t : Tape σ κ}

/-- The parser stands where the tape does. -/
theorem absolute (h : Trails rules bodies p t) : p.absolute = t.position := by
  obtain ⟨p', halike, hmirrors⟩ := h
  exact halike.absolute.symm.trans hmirrors.window.absolute

/-- Both have asked the stream for the same. -/
theorem stream (h : Trails rules bodies p t) : p.window.stream = t.stream := by
  obtain ⟨p', halike, hmirrors⟩ := h
  rw [← halike.window]
  exact hmirrors.window.stream

/-- What ends alike on parsers that are alike, and does on a parser what it does on the tape, keeps
    the two in step. -/
theorem step {n : Nat} {m : Parsing σ κ α} {M : Nat → Reading σ κ α}
    {r : Except (Halt (ParseError κ)) α}
    (hblind : Blind (fun name => (bodies name).Tame rules bodies) m)
    (hfollows : Follows (tameDiscipline rules bodies) (tamed rules bodies) n m M)
    (h : Trails rules bodies p t) (hm : m p = (r, q)) (hr : isSettled r = true) :
    ∃ k u, M k t = (r, u) ∧ Trails rules bodies q u := by
  obtain ⟨p', halike, hmirrors⟩ := h
  have hends := hblind p p' halike
  have htracked := hfollows.tracked p' t hmirrors
  rcases hm' : m p' with ⟨r', q'⟩
  rw [hm, hm'] at hends
  obtain ⟨hsame, hq⟩ := hends
  obtain rfl : r' = r := hsame
  rw [hm'] at htracked
  cases htracked with
  -- without fuel, and behind a look that is too far, the answer is not settled
  | starved _ => exact nomatch hr
  | overflow => exact nomatch hr
  | @settled _ _ k u _ hk hq' => exact ⟨k, u, hk, q', hq, hq'⟩

/-- A tame expression does on the parser what it does on the tape. -/
theorem eval {fuel : Nat} {e : Expr κ ν} (he : e.Tame rules bodies)
    {r : Except (Halt (ParseError κ)) (Value κ)} (h : Trails rules bodies p t)
    (hm : Expr.eval rules fuel e p = (r, q)) (hr : isSettled r = true) :
    ∃ k u, Tape.eval (tamed rules bodies) k e t = (r, u) ∧ Trails rules bodies q u := by
  have hfollows := eval_follows (σ := σ) governs_tamed (functional_tameDiscipline rules bodies) fuel
    he.lawful
  rw [eval_tamed fuel he] at hfollows
  exact h.step ((compositional_blind rules bodies).eval fuel he) hfollows hm hr

/-- Where the tape comes to an end within the bound, so does the parser, if the expression does not
    look so far ahead that an index leaves the 64-bit range. -/
theorem eval_of_tape {fuel : Nat} {e : Expr κ ν} (he : e.Tame rules bodies)
    (hnear : ∀ p : Parser σ κ, p.Sound →
      (Expr.eval rules fuel e p).1 ≠ .error (.fault .lookaheadOverflow))
    (h : Trails rules bodies p t) {r : Except (Halt (ParseError κ)) (Value κ)} {u : Tape σ κ}
    (hM : Tape.eval (tamed rules bodies) fuel e t = (r, u)) (hr : isSettled r = true) :
    ∃ q, Expr.eval rules fuel e p = (r, q) ∧ Trails rules bodies q u := by
  obtain ⟨p', halike, hmirrors⟩ := h
  have hfollows := eval_follows (σ := σ) governs_tamed (functional_tameDiscipline rules bodies) fuel
    he.lawful
  have htracked := hfollows.tracked p' t hmirrors
  have hends := (compositional_blind rules bodies).eval fuel he p p' halike
  rw [eval_tamed fuel he] at htracked
  rcases hm : Expr.eval rules fuel e p with ⟨r₁, q⟩
  rcases hm' : Expr.eval rules fuel e p' with ⟨r₂, q'⟩
  rw [hm, hm'] at hends
  rw [hm'] at htracked
  obtain ⟨hsame, hq⟩ := hends
  obtain rfl : r₂ = r₁ := hsame
  -- the fault is the one outcome in which the tape does not answer for the parser
  rcases htracked.of_settled hfollows.rising hM hr with rfl | ⟨rfl, hq'⟩
  · exact absurd (congrArg Prod.fst hm') (hnear p' hmirrors.sound)
  · exact ⟨q, rfl, q', hq, hq'⟩

/-- A mark is put on both. -/
theorem marked (h : Trails rules bodies p t) : Trails rules bodies p.marked t.marked := by
  obtain ⟨p', halike, hmirrors⟩ := h
  refine ⟨p'.marked, ?_, hmirrors.marked⟩
  refine ⟨halike.window, ?_, halike.options, halike.truncations, halike.memo⟩
  rw [Parser.marked, Parser.marked, halike.marks, halike.window]

/-- A question that the parser asks its memo table does not concern the tape. -/
theorem asked (h : Trails rules bodies p t) (name : String) :
    Trails rules bodies (p.asked name) t := by
  obtain ⟨p', halike, hmirrors⟩ := h
  refine ⟨p', ⟨halike.window, halike.marks, halike.options, halike.truncations, ?_⟩, hmirrors⟩
  intro rule position hknown
  exact (halike.memo rule position hknown).trans (Memo.find?_lookup ..).symm

/-- The cursor may be moved to any token behind it. -/
theorem moveTo (h : Trails rules bodies p t) {cursor : Nat} (hge : p.window.cursor ≤ cursor)
    (hle : cursor ≤ p.window.size) :
    Trails rules bodies { p with window := { p.window with cursor } }
      (t.goto (p.window.retired + cursor)) := by
  obtain ⟨p', halike, hmirrors⟩ := h
  have hwindow := hmirrors.window
  have hsound := hmirrors.sound
  rw [← halike.window] at hge hle ⊢
  refine ⟨_, halike.withWindow _, ?_⟩
  refine hmirrors.reframe ?_ rfl rfl List.prefix_rfl (hsound.moveTo (fun c hc => ?_) hle)
  · exact ⟨hwindow.stream, hwindow.eof, hwindow.pulled, hwindow.retired_le, hwindow.tokens, rfl⟩
  · exact Nat.le_trans (hsound.marks_le c hc) hge

/-- What is recorded for a name that tame expressions do not use makes no difference. -/
theorem recorded (h : Trails rules bodies q t) {name : String}
    (hwild : ¬ (bodies name).Tame rules bodies) (p : Parser σ κ) :
    Trails rules bodies (p.recorded name q) t := by
  obtain ⟨q', halike, hmirrors⟩ := h
  rw [Parser.recorded]
  split
  · refine ⟨q', ⟨halike.window, halike.marks, halike.options, halike.truncations, ?_⟩, hmirrors⟩
    intro rule position hknown
    have hother : ¬ (name = rule ∧ p.absolute = position) := by
      rintro ⟨rfl, -⟩
      exact hwild hknown
    exact (halike.memo rule position hknown).trans (Memo.find?_store_of_ne _ _ hother).symm
  · exact ⟨q', halike, hmirrors⟩

end Trails

end Trails

/-! ## Every program leaves parsers in step -/

/-- The property is one of the tokens on the tape and the stream behind them: where the tape stands
    and what is marked on it do not matter. -/
def Tape.Unplaced (P : Tape σ κ → Prop) : Prop :=
  ∀ t position marks, P t → P { t with position, marks }

/-- A release moves the tape about, and such a property stays. -/
theorem Tape.Unplaced.release {P : Tape σ κ → Prop} (hP : Tape.Unplaced P) (restore : Bool)
    {t : Tape σ κ} (ht : P t) : P (Tape.release restore t).2 := by
  rw [Tape.release]
  split
  · exact ht
  · exact hP t _ _ ht

section Led

variable [TokenStream σ κ] [DecidableEq κ] [TokenKind κ] {rules : ν → Expr κ ν}
  {bodies : String → Expr κ ν} {source : σ} {P : Tape (Metered σ) κ → Prop}

/-- The parser is steady, and in step with some tape. -/
def Led (rules : ν → Expr κ ν) (bodies : String → Expr κ ν) (source : σ)
    (p : Parser (Metered σ) κ) : Prop :=
  p.Steady source ∧ ∃ t, Trails rules bodies p t

/-- The parser is steady, and in step with a tape that has the property. -/
def LedOn (P : Tape (Metered σ) κ → Prop) (rules : ν → Expr κ ν) (bodies : String → Expr κ ν)
    (source : σ) (p : Parser (Metered σ) κ) : Prop :=
  p.Steady source ∧ ∃ t, P t ∧ Trails rules bodies p t

/-- With nothing known of the tape this is no more than being led. -/
theorem ledOn_true :
    LedOn (fun _ => True) rules bodies source = Led rules bodies source := by
  funext p
  simp only [LedOn, Led, true_and]

/-- A release succeeds, and leads back to a tape of which the same is known. -/
theorem LedOn.release (hP : Tape.Unplaced P) {p : Parser (Metered σ) κ}
    (h : LedOn P rules bodies source p) :
    ∃ q, Parser.release true p = (.ok (), q) ∧ LedOn P rules bodies source q := by
  obtain ⟨hsteady, t, hPt, ht⟩ := h
  obtain ⟨q, hrelease, hq, -⟩ := hsteady.release true
  obtain ⟨_, u, heq, hu⟩ :=
    ht.step (Blind.release true) (Follows.release (n := 0) true) hrelease rfl
  have hPu := hP.release true hPt
  rw [heq] at hPu
  exact ⟨q, hrelease, hq, u, hPu, hu⟩

/-- So being led is a property that runs can be asked to keep. -/
theorem persists_ledOn (hP : Tape.Unplaced P) :
    Persists (LedOn P rules bodies source) (fun _ _ _ => True) fun _ _ => True where
  refl _ := trivial
  trans _ _ := trivial
  run _ := trivial
  marked _ hp :=
    ⟨⟨hp.1.marked, hp.2.imp' Tape.marked fun t ht => ⟨hP t _ _ ht.1, ht.2.marked⟩⟩, trivial⟩
  asked name _ hp :=
    ⟨⟨hp.1.asked name, hp.2.imp fun _ ht => ⟨ht.1, ht.2.asked name⟩⟩, trivial⟩

/-- What keeps parsers steady and follows the tape keeps parsers in step. -/
theorem carries_ledOn {n : Nat} {m : Parsing (Metered σ) κ α} {M : Nat → Reading (Metered σ) κ α}
    (hsteady : Carries (Parser.Steady source) (Parser.Listened source) m)
    (hblind : Blind (fun name => (bodies name).Tame rules bodies) m)
    (hfollows : Follows (tameDiscipline rules bodies) (tamed rules bodies) n m M)
    (hM : ∀ k t, P t → isSettled (M k t).1 = true → P (M k t).2) :
    Carries (LedOn P rules bodies source) (fun _ _ _ => True) m := by
  rintro p ⟨hp, t, hPt, ht⟩
  refine ⟨fun hset => ⟨(hsteady p hp).1 hset, ?_⟩, trivial⟩
  obtain ⟨k, u, heq, hu⟩ := ht.step hblind hfollows (Prod.eta _).symm hset
  have hPu := hM k t hPt
  rw [heq] at hPu
  exact ⟨u, hPu hset, hu⟩

/-- A rule that keeps it is rewound to a parser that has it. -/
theorem carries_speculate_ledOn (hP : Tape.Unplaced P) {rule : Parsing (Metered σ) κ Unit}
    (h : Carries (LedOn P rules bodies source) (fun _ _ _ => True) rule) :
    Carries (LedOn P rules bodies source) (fun _ _ _ => True) (Parser.speculate rule) := by
  intro p hp
  refine ⟨fun hset => ?_, trivial⟩
  rcases hr : rule p.marked with ⟨r, q⟩
  cases hsettled : isSettled r with
  | true =>
      obtain ⟨q', hrelease, hq'⟩ :=
        ((h.of_eq ((persists_ledOn hP).marked p hp).1 hr).1 hsettled).release hP
      rw [Parser.speculate_of_settled hr hsettled hrelease]
      exact hq'
  | false =>
      rw [Parser.speculate_of_unsettled hr hsettled, isSettled_verdict, hsettled] at hset
      exact nomatch hset

/-- A tame rule is followed on the tape, also when it is jumped over. -/
theorem carries_memoize_tame {name : String} {body : Expr κ ν} (fuel : Nat)
    (hname : body = bodies name) (hbody : body.Tame rules bodies)
    (hM : ∀ k t, P t → isSettled (Tape.eval (tamed rules bodies) k body t).1 = true →
      P (Tape.eval (tamed rules bodies) k body t).2) :
    Carries (LedOn P rules bodies source) (fun _ _ _ => True)
      (Parser.memoize name (discard (Expr.eval rules fuel body))) := by
  have hsteady := compositional_steady rules source
  have hblind := (compositional_blind (σ := Metered σ) rules bodies).eval fuel hbody
  have hfunctional := functional_tameDiscipline rules bodies
  have hfollows := Follows.memoize hfunctional ⟨hname, hbody⟩ governs_tamed hbody.lawful
    (eval_follows (σ := Metered σ) governs_tamed hfunctional fuel hbody.lawful)
  rw [eval_tamed fuel hbody] at hfollows
  refine carries_ledOn ?_ ?_ hfollows fun k t ht hset => ?_
  · exact carries_memoize name (hsteady.discard (hsteady.eval fuel trivial))
  · exact Blind.memoize (hname ▸ hbody) (hblind.bind fun _ => Blind.pure _)
  · rw [Run.discard_apply] at hset ⊢
    exact hM k t ht ((isSettled_map _ _).symm.trans hset)

/-- Any other rule leaves no spans that a tame expression would ask for. -/
theorem carries_memoize_wild (hP : Tape.Unplaced P) {name : String}
    {body : Parsing (Metered σ) κ Unit} (hwild : ¬ (bodies name).Tame rules bodies)
    (h : Carries (LedOn P rules bodies source) (fun _ _ _ => True) body) :
    Carries (LedOn P rules bodies source) (fun _ _ _ => True) (Parser.memoize name body) := by
  intro p hp
  refine ⟨fun hset => ?_, trivial⟩
  have hasked := ((persists_ledOn hP).asked name p hp).1
  have hcases := Parser.memoize_cases name body p
  rcases ho : Parser.memoize name body p with ⟨r, q'⟩
  rw [ho] at hcases hset
  cases hcases with
  | off _ hr => exact (h.of_eq hp hr).1 hset
  -- a jump takes the tape along; it stays on course wherever it stands
  | @hit span _ hfind hstart hstop =>
      obtain ⟨hsteady, t, hPt, ht⟩ := hasked
      have hge : p.window.cursor ≤ span.stop :=
        hstart ▸ hp.1.ordered name p.absolute span (Memo.holds_of_find? hfind)
      exact ⟨hsteady.moveTo hstop, _, hP t _ _ hPt, ht.moveTo hge hstop⟩
  | failed _ _ hr => exact (h.of_eq hasked hr).1 hset
  | ran _ _ hr hle =>
      obtain ⟨hsteady, t, hPt, ht⟩ := (h.of_eq hasked hr).1 rfl
      exact ⟨hsteady.recorded name hle, t, hPt, ht.recorded hwild p⟩
  | stale _ _ => exact nomatch hset
  | reversed _ _ _ => exact nomatch hset

/-- **What evaluations leave in step with a tape.**  The program may be over other names than the
    tame rules, and set and release marks where it likes; what it has to say is what becomes of the
    tape when it remembers a tame rule. -/
theorem compositional_ledOn {μ : Type} {program : μ → Expr κ μ} {allowed : Expr κ μ → Prop}
    (hP : Tape.Unplaced P) (hparts : ∀ {e e'}, allowed e → Expr.Part program e e' → allowed e')
    (hpeek : ∀ depth t, P t → isSettled (Tape.peek depth t).1 = true → P (Tape.peek depth t).2)
    (hadvance : ∀ t, P t → isSettled (Tape.advance t).1 = true → P (Tape.advance t).2)
    (hmemo : ∀ {name body} (fuel : Nat), allowed (.memo name body) →
      (bodies name).Tame rules bodies → Carries (LedOn P rules bodies source) (fun _ _ _ => True)
        (Parser.memoize name (discard (Expr.eval program fuel body)))) :
    Compositional program allowed
      (fun m => Carries (LedOn P rules bodies source) (fun _ _ _ => True) m) := by
  have hchains : Chains (fun _ _ _ => True : Parser (Metered σ) κ → _) :=
    ⟨fun _ => trivial, fun _ => trivial, fun _ _ => trivial⟩
  refine .of_carries hchains hparts ?_ ?_ ?_ ?_ (carries_speculate_ledOn hP) ?_
  · exact fun depth => carries_ledOn (n := 0) (carries_peek depth) (Blind.onWindow _)
      (.peek depth) fun _ => hpeek depth
  · exact carries_ledOn (n := 0) carries_advance Blind.advance .advance fun _ => hadvance
  · exact fun _ p hp => ⟨fun _ => ((persists_ledOn hP).marked p hp).1, trivial⟩
  · exact fun restore _ => carries_ledOn (n := 0) (carries_release restore) (Blind.release restore)
      (.release restore) fun _ t ht _ => hP.release restore ht
  · intro name body fuel h hbody
    -- bodies that are not tame leave the tape as it is, or move it somewhere else
    by_cases htame : (bodies name).Tame rules bodies
    · exact hmemo fuel h htame
    · exact carries_memoize_wild hP htame (hbody.bind hchains fun _ => .pure hchains _)

/-- **Every evaluation leaves parsers in step with a tape**, whatever marks are set and released in
    it, if the memo names have one body each. -/
theorem compositional_led (rules : ν → Expr κ ν) (bodies : String → Expr κ ν) (source : σ) :
    Compositional rules (Expr.Consistent rules bodies)
      (fun m => Carries (Led rules bodies source) (fun _ _ _ => True) m) := by
  rw [← ledOn_true]
  refine compositional_ledOn (fun _ _ _ _ => trivial) Expr.Consistent.part
    (fun _ _ _ _ => trivial) (fun _ _ _ => trivial) fun {name body} fuel h htame => ?_
  have hname : body = bodies name := h name body .refl
  exact carries_memoize_tame fuel hname (hname ▸ htame) fun _ _ _ _ => trivial

/-- **Every parser that can be reached is in step with a tape.** -/
theorem Reachable.led {p : Parser (Metered σ) κ}
    (h : Reachable rules (Expr.Consistent rules bodies) source p) : Led rules bodies source p := by
  have hcomp := compositional_led rules bodies source
  rw [← ledOn_true] at hcomp ⊢
  exact h.invariant hcomp (persists_ledOn fun _ _ _ _ => trivial) fun options =>
    ⟨steady_new source options, _, trivial, _, .refl _, mirrors_new _ options⟩

end Led

end Packrat
