import Packrat.Proofs.Tame
import Packrat.Proofs.Truthful

/-! # Choices are ordered and all-or-nothing

    A choice runs the alternative that it takes twice, first as lookahead and then
    for real.  The second run meets a fuller memo table, and without marks the
    window lets its tokens go under it.  Still it does what the first one did
    (`replay`): on the tape both are the same run from the same place, and the
    tokens that it needs are there.

    So a choice that comes to an end has either run the first alternative that
    matches, or it has failed without moving, and then not with a mismatch. -/

namespace Packrat

variable {σ κ ν α β : Type} [TokenStream σ κ] [DecidableEq κ] [TokenKind κ]
  {rules : ν → Expr κ ν} {bodies : String → Expr κ ν} {source : σ}

/-- **What matched as lookahead matches again**, ends at the same place and asks the stream for
    nothing. -/
theorem replay {e : Expr κ ν} (he : e.Tame rules bodies) {fuel : Nat}
    {p p' q q' : Parser (Metered σ) κ} {v : Value κ} {r : Except (Halt (ParseError κ)) (Value κ)}
    (hp : Led rules bodies source p) (hlook : Expr.eval rules fuel e p.marked = (.ok v, q))
    (hback : Parser.release true q = (.ok (), p'))
    (hrun : Expr.eval rules fuel e p' = (r, q')) (hr : isSettled r = true) :
    r = .ok v ∧ q'.absolute = q.absolute ∧ q'.window.stream = p'.window.stream := by
  obtain ⟨-, t, ht⟩ := hp
  -- the lookahead on the tape, and the tape taken back
  obtain ⟨k, u, hk, hu⟩ := ht.marked.eval he hlook rfl
  have hreplayed := eval_replayable governs_tamed k he.lawful t.marked
  rw [hk] at hreplayed
  obtain ⟨-, u', hu', hp'⟩ := hu.step (Blind.release true) (Follows.release (n := 0) true) hback rfl
  obtain rfl : t.rewound u = u' :=
    congrArg Prod.snd ((Tape.release_of_marks (hreplayed.marks rfl)).symm.trans hu')
  -- the real run on that tape
  obtain ⟨k', w, hk', hw⟩ := hp'.eval he hrun hr
  have hagain := hreplayed.again rfl (t.rewound u) List.prefix_rfl rfl
  have hrising := Tape.eval_rising (σ := Metered σ) (tamed rules bodies) e
  have hsame := (hrising.eq_of_le hk' hr (Nat.le_max_right k k')).symm.trans
    (hrising.eq_of_le hagain rfl (Nat.le_max_left k k'))
  obtain ⟨rfl, rfl⟩ := Prod.mk.inj hsame
  exact ⟨rfl, hw.absolute.trans hu.absolute.symm, hw.stream.trans hp'.stream.symm⟩

/-- A speculation that matches has run its rule to the end and gone back. -/
theorem speculate_matched {e : Expr κ ν} {fuel : Nat} {p p' : Parser (Metered σ) κ}
    (hp : p.Steady source)
    (h : Parser.speculate (discard (Expr.eval rules fuel e)) p = (.ok none, p')) :
    ∃ v q, Expr.eval rules fuel e p.marked = (.ok v, q) ∧
      Parser.release true q = (.ok (), p') := by
  obtain ⟨q', hs, hback⟩ := speculate_eval rules fuel e hp
  obtain ⟨-, rfl⟩ := Prod.mk.inj (hs.symm.trans h)
  rcases eval_of_speculate hp h with ⟨-, v, hv⟩ | ⟨k, seen, heq, -⟩
  · exact ⟨v, _, Prod.ext hv rfl, hback (by rw [hv]; rfl)⟩
  · exact nomatch heq

/-- How a choice comes to its end: it runs the first alternative that is not refused, or that one
    halts as lookahead, or all of them are refused. -/
theorem chooseFrom_cases {n : Nat} {name : String} {alternatives : List (Expr κ ν)}
    {p q : Parser σ κ} {r : Except (Halt (ParseError κ)) Unit} (best : Option (ParseError κ))
    (h : Parser.chooseFrom name best (alternatives.map fun e => discard (Expr.eval rules n e)) p
      = (r, q)) :
    (∃ before e after errors p₁ p₂, alternatives = before ++ e :: after ∧
        Refuses rules n before p errors p₁ ∧
        Parser.speculate (discard (Expr.eval rules n e)) p₁ = (.ok none, p₂) ∧
        (discard (Expr.eval rules n e) : Parsing σ κ Unit) p₂ = (r, q)) ∨
      (∃ before e after errors p₁ halt, alternatives = before ++ e :: after ∧
        Refuses rules n before p errors p₁ ∧
        Parser.speculate (discard (Expr.eval rules n e)) p₁ = (.error halt, q) ∧
        r = .error halt) ∨
      ∃ errors p₁, Refuses rules n alternatives p errors p₁ ∧
        (Parser.sight >>= fun seen =>
          Run.fail (.exhausted name seen (furthestOf best errors)) : Parsing σ κ Unit) p₁
          = (r, q) := by
  induction alternatives generalizing p best with
  | nil => exact Or.inr (Or.inr ⟨[], p, .none, h⟩)
  | cons e rest ih =>
      rcases hs : Parser.speculate (discard (Expr.eval rules n e)) p with ⟨halt | outcome, p₁⟩
      · obtain ⟨rfl, rfl⟩ := Prod.mk.inj ((Run.bind_of_error hs).symm.trans h)
        exact Or.inr (Or.inl ⟨[], e, rest, [], p, halt, rfl, .none, hs, rfl⟩)
      · have h' := (Run.bind_of_ok hs).symm.trans h
        cases outcome with
        | none => exact Or.inl ⟨[], e, rest, [], p, p₁, rfl, .none, hs, h'⟩
        | some error =>
            obtain ⟨k, seen, rfl⟩ := mismatch_of_speculate hs
            rcases ih _ h' with ⟨before, e', after, errors, p₂, p₃, rfl, hrefuses, hrest⟩ |
              ⟨before, e', after, errors, p₂, halt, rfl, hrefuses, hrest⟩ |
              ⟨errors, p₂, hrefuses, hrest⟩
            · exact Or.inl ⟨e :: before, e', after, _, p₂, p₃, rfl, .next hs hrefuses, hrest⟩
            · exact Or.inr (Or.inl ⟨e :: before, e', after, _, p₂, halt, rfl, .next hs hrefuses,
                hrest⟩)
            · exact Or.inr (Or.inr ⟨_, p₂, .next hs hrefuses, hrest⟩)

/-- Alternatives that are refused leave parsers in step. -/
theorem Refuses.led {n : Nat} {alternatives : List (Expr κ ν)} {p q : Parser (Metered σ) κ}
    {errors : List (κ × Sighting κ)} (h : Refuses rules n alternatives p errors q)
    (he : ∀ e ∈ alternatives, e.Consistent rules bodies) (hp : Led rules bodies source p) :
    Led rules bodies source q := by
  have hcomp := compositional_led rules bodies source
  induction h with
  | none => exact hp
  | next hs _ ih =>
      have hrun := hcomp.speculate (hcomp.discard (hcomp.eval n (he _ List.mem_cons_self)))
      exact ih (fun e hmem => he e (List.mem_cons_of_mem _ hmem)) ((hrun.of_eq hp hs).1 rfl)

/-- A speculation that halts with a complaint has not moved, and the complaint is not a mismatch. -/
theorem speculate_halts {e : Expr κ ν} (he : e.Quiet rules) {n : Nat} {p q : Parser (Metered σ) κ}
    {error : ParseError κ} (hp : p.Steady source)
    (h : Parser.speculate (discard (Expr.eval rules n e)) p = (.error (.failed error), q)) :
    error.isMismatch = false ∧ p.Stays q := by
  have hcomp := compositional_proceeds rules source
  obtain ⟨q', hs, -⟩ := speculate_eval rules n e hp
  have hfatal := isFatal_of_verdict (congrArg Prod.fst (hs.symm.trans h))
  exact ⟨by simpa [Halt.isFatal] using hfatal,
    (speculate_stays (hcomp.discard (hcomp.eval n he)) hp h rfl).1⟩

/-- An exhausted choice has not moved, and its complaint is not a mismatch. -/
theorem exhausted_halts {name : String} {furthest : Option (ParseError κ)} {p q : Parser σ κ}
    {error : ParseError κ}
    (h : (Parser.sight >>= fun seen => Run.fail (.exhausted name seen furthest) :
      Parsing σ κ Unit) p = (.error (.failed error), q)) :
    error.isMismatch = false ∧ p.Stays q := by
  have hstays := sight_stays p
  rcases hs : Parser.sight p with ⟨halt | seen, q'⟩
  · rw [hs] at hstays
    obtain ⟨hhalt, rfl⟩ := Prod.mk.inj ((Run.bind_of_error hs).symm.trans h)
    refine ⟨?_, hstays⟩
    cases error with
    | lexical _ => rfl
    | exhausted _ _ _ => rfl
    | mismatch k seen =>
        -- a look at the current token fails with a lexical error only
        have hhalts : HaltsOn (.failed (.mismatch k seen)) Parser.sight p := by
          rw [HaltsOn, hs, Except.error.inj hhalt]
        have hlexical : ¬ ∀ lex, ParseError.mismatch k seen ≠ .lexical lex :=
          Explained.sight (P := fun _ => False) _ hhalts
        refine absurd ?_ hlexical
        intro lex heq
        cases heq
  · rw [hs] at hstays
    obtain ⟨hfail, rfl⟩ := Prod.mk.inj ((Run.bind_of_ok hs).symm.trans h)
    obtain rfl := Halt.failed.inj (Except.error.inj hfail)
    exact ⟨rfl, hstays⟩

/-- **Choices are ordered, replayed and all-or-nothing.**  From any parser that can be reached, with
    the memo table or without it, a choice that comes to an end with a value has seen the
    alternatives before some alternative refused; that one matched as lookahead, and again for real,
    to the same place and without a call into the stream.  A choice that ends with a complaint is
    where it was, with its marks and its layout, and the complaint is not a mismatch. -/
theorem choose_all_or_nothing {p q : Parser (Metered σ) κ}
    (hp : Reachable rules (Expr.Consistent rules bodies) source p)
    {alternatives : List (Expr κ ν)} (hquiet : ∀ e ∈ alternatives, e.Quiet rules)
    (hconsistent : ∀ e ∈ alternatives, e.Consistent rules bodies) {name : String} {fuel : Nat}
    {r : Except (Halt (ParseError κ)) Unit} (hr : isSettled r = true)
    (h : Parser.choose name (alternatives.map fun e => discard (Expr.eval rules fuel e)) p
      = (r, q)) :
    (r = .ok () → ∃ before e after errors p₁ p₂ v q₁, alternatives = before ++ e :: after ∧
      Refuses rules fuel before p errors p₁ ∧
      Parser.speculate (discard (Expr.eval rules fuel e)) p₁ = (.ok none, p₂) ∧
      Expr.eval rules fuel e p₁.marked = (.ok v, q₁) ∧
      Expr.eval rules fuel e p₂ = (.ok v, q) ∧
      q.absolute = q₁.absolute ∧ q.window.stream = p₂.window.stream) ∧
    ∀ error, r = .error (.failed error) →
      error.isMismatch = false ∧ q.absolute = p.absolute ∧ q.marks = p.marks ∧
        q.window.retired = p.window.retired ∧ q.truncations = p.truncations := by
  have hled := hp.led
  have hstill : p.Stays q → q.absolute = p.absolute ∧ q.marks = p.marks ∧
      q.window.retired = p.window.retired ∧ q.truncations = p.truncations :=
    fun hstays => ⟨hstays.absolute, hstays.marks, hstays.retired, hstays.truncations⟩
  rcases chooseFrom_cases none h with
    ⟨before, e, after, errors, p₁, p₂, rfl, hrefuses, hs, hrun⟩ |
    ⟨before, e, after, errors, p₁, halt, rfl, hrefuses, hs, rfl⟩ | ⟨errors, p₁, hrefuses, hend⟩
  · have hmem : e ∈ before ++ e :: after := List.mem_append_right _ List.mem_cons_self
    have hled₁ := hrefuses.led (fun e hin => hconsistent e (List.mem_append_left _ hin)) hled
    obtain ⟨v, q₁, hlook, hback⟩ := speculate_matched hled₁.1 hs
    rw [Run.discard_apply] at hrun
    obtain ⟨rfl, hq⟩ := Prod.mk.inj hrun
    have hreal : Expr.eval rules fuel e p₂ = ((Expr.eval rules fuel e p₂).1, q) := Prod.ext rfl hq
    rw [isSettled_map] at hr
    obtain ⟨hok, hplace, hcalls⟩ :=
      replay ⟨hquiet e hmem, hconsistent e hmem⟩ hled₁ hlook hback hreal hr
    rw [hok] at hreal ⊢
    refine ⟨fun _ => ?_, fun _ herror => nomatch herror⟩
    exact ⟨before, e, after, errors, p₁, p₂, v, q₁, rfl, hrefuses, hs, hlook, hreal, hplace, hcalls⟩
  · refine ⟨(fun hok => nomatch hok), fun error herror => ?_⟩
    obtain rfl := Except.error.inj herror
    obtain ⟨hstays, hsteady⟩ :=
      hrefuses.stays (fun e hin => hquiet e (List.mem_append_left _ hin)) hled.1
    obtain ⟨hmismatch, hstays'⟩ :=
      speculate_halts (hquiet e (List.mem_append_right _ List.mem_cons_self)) hsteady hs
    exact ⟨hmismatch, hstill (hstays.trans hstays')⟩
  · obtain ⟨hstays, -⟩ := hrefuses.stays hquiet hled.1
    refine ⟨fun hok => ?_, fun error herror => ?_⟩
    · subst hok
      obtain ⟨seen, q', -, hfail⟩ := Run.bind_eq_ok hend
      exact nomatch congrArg Prod.fst hfail
    · subst herror
      obtain ⟨hmismatch, hstays'⟩ := exhausted_halts hend
      exact ⟨hmismatch, hstill (hstays.trans hstays')⟩

/-- Both alternatives start with the same remembered pair.  The second one matches; for real it
    jumps over the pair and lets the tokens go that it was looked up in. -/
theorem choose_all_or_nothing_pair :
    let rules : Unit → Expr Char Unit := fun _ => .seq .advance .advance
    let pairThen : Char → Expr Char Unit := fun k => .seq (.memo "pair" (.call ())) (.expect k)
    let source := CharStream.ofText "zabc"
    let p : Parser (Metered CharStream) Char :=
      (Expr.eval rules 9 .advance (.new (.new source) {})).2
    let o := Parser.choose "pick"
      (([pairThen 'x', pairThen 'c'] : List _).map fun e => discard (Expr.eval rules 9 e)) p
    p.absolute = 1 ∧ o.1 = .ok () ∧ o.2.absolute = 4 ∧ o.2.truncations = p.truncations + 1 ∧
      ∃ e v, ∃ p₁ p₂ q₁ : Parser (Metered CharStream) Char, e ∈ [pairThen 'x', pairThen 'c'] ∧
        Expr.eval rules 9 e p₁.marked = (.ok v, q₁) ∧ Expr.eval rules 9 e p₂ = (.ok v, o.2) ∧
        o.2.absolute = q₁.absolute ∧ o.2.window.stream = p₂.window.stream := by
  intro rules pairThen source p o
  let bodies : String → Expr Char Unit := fun _ => .call ()
  have hadvance : (Expr.advance : Expr Char Unit).Consistent rules bodies := .of_parts nofun nofun
  have hpair : (Expr.seq .advance .advance : Expr Char Unit).Consistent rules bodies :=
    .of_parts nofun (by rintro _ (_ | _) <;> exact hadvance)
  have hcall : (Expr.call ()).Consistent rules bodies :=
    .of_parts nofun (by rintro _ ⟨⟩; exact hpair)
  have hmemo : (Expr.memo "pair" (.call ())).Consistent rules bodies :=
    .of_parts (by rintro _ _ ⟨⟩; rfl) (by rintro _ ⟨⟩; exact hcall)
  have hthen : ∀ k, (pairThen k).Consistent rules bodies := by
    refine fun k => .of_parts nofun ?_
    rintro _ (_ | _)
    · exact hmemo
    · exact .of_parts nofun nofun
  have hquiet : ∀ e ∈ [pairThen 'x', pairThen 'c'], e.Quiet rules := by
    simp only [List.forall_mem_cons]
    exact ⟨Expr.quiet_of_isQuiet (fun _ => rfl) rfl, Expr.quiet_of_isQuiet (fun _ => rfl) rfl,
      fun _ h => nomatch h⟩
  have hconsistent : ∀ e ∈ [pairThen 'x', pairThen 'c'], e.Consistent rules bodies := by
    simp only [List.forall_mem_cons]
    exact ⟨hthen 'x', hthen 'c', fun _ h => nomatch h⟩
  have hp : Reachable rules (Expr.Consistent rules bodies) source p :=
    .after 9 (.new {}) hadvance (by decide +kernel)
  have hok : o.1 = .ok () := by decide +kernel
  obtain ⟨hchosen, -⟩ := choose_all_or_nothing hp hquiet hconsistent (by rw [hok]; rfl)
    (Prod.eta o).symm
  obtain ⟨before, e, after, errors, p₁, p₂, v, q₁, hsplit, -, -, hlook, hreal, hplace, hcalls⟩ :=
    hchosen hok
  refine ⟨by decide +kernel, hok, by decide +kernel, by decide +kernel, e, v, p₁, p₂, q₁, ?_, hlook,
    hreal, hplace, hcalls⟩
  rw [hsplit]
  exact List.mem_append_right before List.mem_cons_self

end Packrat
