import Packrat.Proofs.Lookahead

/-! # Errors tell the truth about the stream

    A mismatch is raised where a token of a kind is required, an exhausted decision
    where the last of its alternatives is refused, and both travel from there to the
    end of the evaluation as they are.  So it is enough to look at the call that
    raises an error (`raised_inside`): it runs on a parser that is not behind the
    place where the evaluation began, and what it sees there is what the stream
    shows.

    A decision keeps the first of the furthest mismatches of its alternatives
    (`IsFurthest`). -/

namespace Packrat

open TokenStream

variable {σ κ ν α β : Type}

/-! ## The furthest of several mismatches -/

/-- The furthest mismatch that is kept, when `best` was the furthest one before. -/
def furthestOf (best : Option (ParseError κ)) (errors : List (κ × Sighting κ)) :
    Option (ParseError κ) :=
  errors.foldl (fun best x => some (.further best (.mismatch x.1 x.2))) best

/-- The first among the mismatches of the greatest position. -/
def IsFurthest (errors : List (κ × Sighting κ)) (x : κ × Sighting κ) : Prop :=
  ∃ before after, errors = before ++ x :: after ∧
    (∀ y ∈ before, y.2.position < x.2.position) ∧ ∀ y ∈ after, y.2.position ≤ x.2.position

namespace IsFurthest

variable {errors : List (κ × Sighting κ)} {x : κ × Sighting κ}

/-- The furthest is one of the mismatches. -/
theorem mem (h : IsFurthest errors x) : x ∈ errors := by
  obtain ⟨before, after, rfl, -, -⟩ := h
  exact List.mem_append_right before List.mem_cons_self

/-- None of the others is further. -/
theorem le (h : IsFurthest errors x) {y : κ × Sighting κ} (hy : y ∈ errors) :
    y.2.position ≤ x.2.position := by
  obtain ⟨before, after, rfl, hbefore, hafter⟩ := h
  rcases List.mem_append.mp hy with hin | hin
  · exact Nat.le_of_lt (hbefore y hin)
  · rcases List.mem_cons.mp hin with rfl | hin'
    · exact Nat.le_refl _
    · exact hafter y hin'

/-- One more mismatch takes the place only if it got further. -/
theorem further (h : IsFurthest errors x) (y : κ × Sighting κ) :
    ∃ z, ParseError.further (some (.mismatch x.1 x.2)) (.mismatch y.1 y.2) = .mismatch z.1 z.2 ∧
      IsFurthest (errors ++ [y]) z := by
  by_cases hlt : x.2.position < y.2.position
  · refine ⟨y, if_pos hlt, errors, [], rfl, ?_, fun _ hz => nomatch hz⟩
    intro z hz
    exact Nat.lt_of_le_of_lt (h.le hz) hlt
  · obtain ⟨before, after, rfl, hbefore, hafter⟩ := h
    refine ⟨x, if_neg hlt, before, after ++ [y], List.append_assoc .., hbefore, ?_⟩
    intro z hz
    rcases List.mem_append.mp hz with hin | hin
    · exact hafter z hin
    · rw [List.mem_singleton.mp hin]
      exact Nat.not_lt.mp hlt

/-- With more mismatches behind it the furthest is found by going on from the one that was the
    furthest so far. -/
theorem furthestOf (h : IsFurthest errors x) (more : List (κ × Sighting κ)) :
    ∃ z, furthestOf (some (.mismatch x.1 x.2)) more = some (.mismatch z.1 z.2) ∧
      IsFurthest (errors ++ more) z := by
  induction more generalizing errors x with
  | nil => exact ⟨x, rfl, (List.append_nil errors).symm ▸ h⟩
  | cons y more ih =>
      obtain ⟨z, hz, hfurthest⟩ := h.further y
      obtain ⟨z', hz', hfurthest'⟩ := ih hfurthest
      refine ⟨z', ?_, ?_⟩
      · rw [← hz', ← hz]
        rfl
      · rw [← List.append_cons] at hfurthest'
        exact hfurthest'

end IsFurthest

/-- Of several mismatches the first of the furthest is kept. -/
theorem furthestOf_cons (x : κ × Sighting κ) (errors : List (κ × Sighting κ)) :
    ∃ z, furthestOf none (x :: errors) = some (.mismatch z.1 z.2) ∧
      IsFurthest (x :: errors) z := by
  have hfirst : IsFurthest [x] x :=
    ⟨[], [], rfl, (fun _ hy => nomatch hy), (fun _ hy => nomatch hy)⟩
  exact hfirst.furthestOf errors

/-! ## Where errors are raised -/

section Origin

/-- If the computation ends with a complaint about a token, there is the reason `P` for it. -/
def Explained (P : ParseError κ → Prop) (m : Parsing σ κ α) (p : Parser σ κ) : Prop :=
  ∀ e, HaltsOn (.failed e) m p → (∀ lex, e ≠ .lexical lex) → P e

namespace Explained

variable {P : ParseError κ → Prop} {p : Parser σ κ}

/-- A run that ends with a value makes no complaint to be explained. -/
theorem of_ok {m : Parsing σ κ α} {a : α} {q : Parser σ κ} (h : m p = (.ok a, q)) :
    Explained P m p := by
  intro e he
  rw [HaltsOn, h] at he
  cases he

/-- A complaint that is made has to be explained itself. -/
theorem of_fail {e : ParseError κ} (h : P e) : Explained P (Run.fail e : Parsing σ κ α) p := by
  intro e' he' _
  cases he'
  exact h

/-- The second part makes its complaints where the first has led. -/
theorem bind {m : Parsing σ κ α} {f : α → Parsing σ κ β} (hm : Explained P m p)
    (hf : ∀ a q, m p = (.ok a, q) → Explained P (f a) q) : Explained P (m >>= f) p := by
  intro e he hlex
  rcases hr : m p with ⟨h | a, q⟩
  · rw [HaltsOn, Run.bind_of_error hr] at he
    refine hm e ?_ hlex
    rw [HaltsOn, hr]
    exact congrArg Except.error (Except.error.inj he)
  · rw [HaltsOn, Run.bind_of_ok hr] at he
    exact hf a q hr e he hlex

/-- A function of the answer makes none. -/
theorem bind_pure {m : Parsing σ κ α} {f : α → β} (hm : Explained P m p) :
    Explained P (m >>= fun a => pure (f a)) p :=
  hm.bind fun _ _ _ => .of_ok rfl

/-- What goes wrong with the window is no complaint about a token. -/
theorem onWindow (m : Run (Window σ κ) LexError α) : Explained P (Parser.onWindow m) p := by
  intro e he hlex
  rcases hm : m p.window with ⟨h | a, w⟩
  · rw [HaltsOn, Parser.onWindow_error hm] at he
    cases h with
    | failed lex =>
        cases he
        exact absurd rfl (hlex lex)
    | fault _ => cases he
    | outOfFuel => cases he
  · exact of_ok (Parser.onWindow_ok hm) e he hlex

/-- A release fails for no reason that has to be explained. -/
theorem release (restore : Bool) : Explained P (Parser.release restore) p := by
  rcases hpop : p.marks.pop with ⟨_ | c, cs⟩
  · refine of_ok (a := ()) (q := p) ?_
    rw [Parser.release, hpop]
  · cases restore with
    | false =>
        refine of_ok (a := ()) (q := { p with marks := cs }) ?_
        rw [Parser.release, hpop]
        rfl
    | true =>
        have hrelease : Parser.release true p
            = Parser.onWindow (Window.seek c) { p with marks := cs } := by
          rw [Parser.release, hpop]
          rfl
        intro e he hlex
        rw [HaltsOn, hrelease] at he
        exact onWindow _ e he hlex

/-- A speculation hands on the complaints of its rule. -/
theorem speculate {rule : Parsing σ κ Unit} (h : Explained P rule p.marked) :
    Explained P (Parser.speculate rule) p := by
  refine bind (.of_ok (Parser.mark_apply p)) fun depth q hq => ?_
  obtain rfl : p.marked = q := congrArg Prod.snd hq
  rcases hr : rule p.marked with ⟨⟨e | c | _⟩ | _, q⟩
  · refine bind (.of_ok (Run.settle_of_failed hr)) fun outcome q' hq' => ?_
    rw [Run.settle_of_failed hr] at hq'
    obtain ⟨rfl, rfl⟩ : Except.error e = outcome ∧ q = q' :=
      ⟨Except.ok.inj (congrArg Prod.fst hq'), congrArg Prod.snd hq'⟩
    refine bind (release true) fun _ q'' _ => ?_
    show Explained P (if e.isMismatch then pure (some e) else Run.fail e) q''
    -- a mismatch is taken back and explains nothing; any other error goes on with its reason
    by_cases he : e.isMismatch = true
    · rw [if_pos he]
      exact .of_ok rfl
    · rw [if_neg he]
      intro e' he' hlex
      cases he'
      exact h e (congrArg Prod.fst hr) hlex
  · refine fun e he => ?_
    rw [HaltsOn, Run.bind_of_error (Run.settle_of_fault hr)] at he
    cases he
  · refine fun e he => ?_
    rw [HaltsOn, Run.bind_of_error (Run.settle_of_outOfFuel hr)] at he
    cases he
  · refine bind (.of_ok (Run.settle_of_ok hr)) fun outcome q' hq' => ?_
    rw [Run.settle_of_ok hr] at hq'
    obtain rfl : Except.ok () = outcome := Except.ok.inj (congrArg Prod.fst hq')
    exact bind (release true) fun _ _ _ => .of_ok rfl

/-- An attempt hands on what its rule complains about, except for a mismatch. -/
theorem attempt {rule : Parsing σ κ Unit} (h : Explained P rule p.marked) :
    Explained P (Parser.attempt rule) p :=
  h.speculate.bind_pure

/-- A memoized rule hands on the complaints of its body. -/
theorem memoize {name : String} {body : Parsing σ κ Unit}
    (hoff : p.options.memoize = false → Explained P body p)
    (hmiss : p.options.memoize = true → Parser.consult name p = (.ok none, p.asked name) →
      Explained P body (p.asked name)) :
    Explained P (Parser.memoize name body) p := by
  intro e he hlex
  have hcases := Parser.memoize_cases name body p
  rcases ho : Parser.memoize name body p with ⟨r, q⟩
  rw [HaltsOn, ho] at he
  obtain rfl : r = .error (.failed e) := he
  rw [ho] at hcases
  cases hcases with
  | off h hr => exact hoff h e (congrArg Prod.fst hr) hlex
  | failed h hfind hr =>
      exact hmiss h (hfind ▸ Parser.consult_apply name p) e (congrArg Prod.fst hr) hlex

variable [TokenStream σ κ] [DecidableEq κ] [TokenKind κ]

/-- A look can only pass on what the lexer says. -/
theorem peek (depth : Nat) : Explained P (Parser.peek depth) p := onWindow _

/-- And so can a check. -/
theorem check (k : κ) : Explained P (Parser.check k) p := (peek 0).bind_pure.bind_pure

/-- So can the sight of a token. -/
theorem sight : Explained P Parser.sight p := (peek 0).bind fun _ _ _ => .of_ok rfl

/-- And so can a step. -/
theorem advance : Explained P Parser.advance p := (onWindow _).bind fun _ _ _ => .of_ok rfl

/-- Where a token of a kind is required, only a mismatch is raised. -/
theorem expect (k : κ) :
    Explained (fun e => ∃ seen, e = .mismatch k seen) (Parser.expect k) p := by
  refine bind (check k) fun matched q _ => ?_
  cases matched with
  | true => exact advance
  | false => exact bind sight fun seen _ _ => .of_fail ⟨seen, rfl⟩

end Explained

/-- All ways of running one computation inside another hand down what explains the complaints. -/
theorem explained_handedDown [TokenStream σ κ] [DecidableEq κ] [TokenKind κ]
    (P : ParseError κ → Prop) :
    HandedDown (Explained P : ∀ {α : Type}, Parsing σ κ α → Parser σ κ → Prop) where
  pure _ _ := .of_ok rfl
  bind := Explained.bind
  peek depth _ := Explained.peek depth
  attempt := Explained.attempt
  memoize hoff hmiss := Explained.memoize hoff (hmiss _)

/-- A speculation answers with a mismatch or with nothing. -/
theorem mismatch_of_speculate {rule : Parsing σ κ Unit} {p q : Parser σ κ} {e : ParseError κ}
    (h : Parser.speculate rule p = (.ok (some e), q)) : ∃ k seen, e = .mismatch k seen := by
  obtain ⟨_, p₁, -, h⟩ := Run.bind_eq_ok h
  obtain ⟨outcome, p₂, -, h⟩ := Run.bind_eq_ok h
  obtain ⟨_, p₃, -, h⟩ := Run.bind_eq_ok h
  match outcome, h with
  | .ok (), h => exact nomatch congrArg Prod.fst h
  | .error (.mismatch k seen), h =>
      obtain rfl : ParseError.mismatch k seen = e :=
        Option.some.inj (Except.ok.inj (congrArg Prod.fst h))
      exact ⟨k, seen, rfl⟩

variable [TokenStream σ κ] [DecidableEq κ] [TokenKind κ] {rules : ν → Expr κ ν}

/-- The call raises the error itself. -/
inductive Raises (rules : ν → Expr κ ν) : Call σ κ ν → ParseError κ → Prop where
  | expect {n k p seen q} : Parser.expect k p = (.error (.failed (.mismatch k seen)), q) →
      Raises rules ⟨n + 1, .expect k, p⟩ (.mismatch k seen)
  | choose {n name alternatives p errors q seen q'} :
      Refuses rules n alternatives p errors q → Parser.sight q = (.ok seen, q') →
      Raises rules ⟨n + 1, .choose name alternatives, p⟩
        (.exhausted name seen (furthestOf none errors))

/-- A choice ends with a complaint of an alternative that it tries, or all of them are refused. -/
theorem Explained.chooseFrom {P : ParseError κ → Prop} {n : Nat} {name : String}
    {alternatives : List (Expr κ ν)} {p : Parser σ κ} (best : Option (ParseError κ))
    (htry : ∀ e q, Tries rules n alternatives p e q →
      Explained P (discard (Expr.eval rules n e)) q)
    (hend : ∀ errors q seen q', Refuses rules n alternatives p errors q →
      Parser.sight q = (.ok seen, q') → P (.exhausted name seen (furthestOf best errors))) :
    Explained P (Parser.chooseFrom name best
      (alternatives.map fun e => discard (Expr.eval rules n e))) p := by
  -- on the alternatives, with the errors of those already refused collected
  induction alternatives generalizing p best with
  | nil => exact sight.bind fun seen q' hs => .of_fail (hend [] p seen q' .none hs)
  | cons e rest ih =>
      refine (htry e _ .speculation).speculate.bind fun outcome q hs => ?_
      cases outcome with
      | none => exact htry e q (.chosen hs)
      | some error =>
          obtain ⟨k, seen, rfl⟩ := mismatch_of_speculate hs
          refine ih _ (fun e' q' ht => htry e' q' (.next hs ht)) ?_
          intro errors q' seen' q'' hr
          exact hend ((k, seen) :: errors) q' seen' q'' (.next hs hr)

/-- **Every complaint about a token is raised by a call inside the evaluation.** -/
theorem raised_inside (rules : ν → Expr κ ν) (c : Call σ κ ν) {error : ParseError κ}
    (h : (c.outcome rules).1 = .error (.failed error)) (hlex : ∀ lex, error ≠ .lexical lex) :
    ∃ c', Relation.ReflTransGen (Spawns rules) c c' ∧ Raises rules c' error := by
  obtain ⟨fuel, e, p⟩ := c
  refine (?_ : Explained (fun error => ∃ c', Relation.ReflTransGen (Spawns rules) ⟨fuel, e, p⟩ c' ∧
    Raises rules c' error) (Expr.eval rules fuel e) p) error h hlex
  clear h hlex
  -- on the fuel, over all calls: the error comes from the call itself or from one it makes
  induction fuel generalizing e p with
  | zero => exact fun _ he => nomatch he
  | succ n ih =>
      -- the reason is handed on from the call that is spawned
      have hsub : ∀ e' q, Spawns rules ⟨n + 1, e, p⟩ ⟨n, e', q⟩ →
          Explained (fun error => ∃ c', Relation.ReflTransGen (Spawns rules) ⟨n + 1, e, p⟩ c' ∧
            Raises rules c' error) (Expr.eval rules n e') q := by
        intro e' q hs error he hlex
        obtain ⟨c', hc', hraises⟩ := ih e' q error he hlex
        exact ⟨c', hc'.head hs, hraises⟩
      refine (explained_handedDown _).of_spawned ?_ ?_ hsub
      · intro hatom
        cases e with
        | done => exact .of_ok rfl
        | peek depth => exact (Explained.peek depth).bind_pure
        | peekKind depth => exact (Explained.peek depth).bind_pure.bind_pure
        | check k => exact (Explained.check k).bind_pure
        | expect k =>
            refine Explained.bind_pure fun error he hlex => ?_
            obtain ⟨seen, rfl⟩ := Explained.expect k error he hlex
            exact ⟨_, .refl, .expect (Prod.ext he rfl)⟩
        | advance => exact Explained.advance.bind_pure
        | mark => exact .of_ok rfl
        | release restore => exact (Explained.release restore).bind_pure
        | _ => exact nomatch hatom
      · rintro name alternatives rfl
        have htry : ∀ e q, Tries rules n alternatives p e q →
            Explained _ (discard (Expr.eval rules n e) : Parsing σ κ Unit) q :=
          fun e q ht => (hsub e q (.choose ht)).bind_pure
        refine Explained.chooseFrom none htry ?_
        intro errors q seen q' hr hs
        exact ⟨_, .refl, .choose hr hs⟩

/-- It is what the call ends with. -/
theorem Refuses.exhausted {n : Nat} {name : String} {alternatives : List (Expr κ ν)}
    {p q q' : Parser σ κ} {errors : List (κ × Sighting κ)} {seen : Sighting κ}
    (h : Refuses rules n alternatives p errors q) (hs : Parser.sight q = (.ok seen, q'))
    (best : Option (ParseError κ)) :
    Parser.chooseFrom name best (alternatives.map fun e => discard (Expr.eval rules n e)) p
      = (.error (.failed (.exhausted name seen (furthestOf best errors))), q') := by
  induction h generalizing best with
  | none => exact Run.bind_of_ok hs
  | next hr _ ih => exact (Run.bind_of_ok hr).trans (ih hs _)

end Origin

/-! ## What an error shows -/

section Truth

variable [TokenStream σ κ] [DecidableEq κ] [TokenKind κ] {rules : ν → Expr κ ν} {source : σ}

/-- The stream shows the token as the error does. -/
def Shown (source : σ) (seen : Sighting κ) : Prop :=
  ∃ t, HasAt source seen.position t ∧ seen = .ofToken seen.position t

/-- A mismatch that tells the truth, from a place that is not before `start`. -/
structure Truthful (source : σ) (start : Nat) (expected : κ) (seen : Sighting κ) : Prop where
  after : start ≤ seen.position
  differs : seen.found ≠ expected
  shown : Shown source seen

/-- A look at the current token sees what the stream shows there. -/
theorem peek_shows {p q : Parser (Metered σ) κ} (hp : p.Steady source) {t : Token κ}
    (h : Parser.peek 0 p = (.ok t, q)) :
    HasAt source p.absolute t ∧ q.absolute = p.absolute ∧ q.Steady source := by
  have hq := ((carries_peek 0).of_eq hp h).1 rfl
  rcases Window.peek_spec 0 p.window with ⟨t', w, hw, hg, ht⟩ | ⟨e, w, hw, -⟩ | ⟨-, hw⟩
  · obtain ⟨htoken, rfl⟩ := Prod.mk.inj (h.symm.trans (Parser.onWindow_ok hw))
    obtain rfl := Except.ok.inj htoken
    obtain ⟨n, hfaithful⟩ := hp.faithful
    exact ⟨hfaithful.peek_hasAt hw hg ht, hg.absolute, hq⟩
  · exact nomatch congrArg Prod.fst (h.symm.trans (Parser.onWindow_error hw))
  · exact nomatch congrArg Prod.fst (h.symm.trans (Parser.onWindow_error hw))

/-- A check is about the token that stands at the current position of the stream. -/
theorem check_shows {p q : Parser (Metered σ) κ} (hp : p.Steady source) {k : κ} {matched : Bool}
    (h : Parser.check k p = (.ok matched, q)) :
    ∃ t, HasAt source p.absolute t ∧ matched = decide (t.kind = k) ∧ q.absolute = p.absolute ∧
      q.Steady source := by
  obtain ⟨kind, q₁, hkind, hq⟩ := Run.bind_eq_ok h
  obtain ⟨t, q₂, hpeek, hq₁⟩ := Run.bind_eq_ok hkind
  obtain ⟨hmatched, rfl⟩ := Prod.mk.inj hq
  obtain ⟨hkind', rfl⟩ := Prod.mk.inj hq₁
  obtain ⟨hhas, habsolute, hsteady⟩ := peek_shows hp hpeek
  refine ⟨t, hhas, ?_, habsolute, hsteady⟩
  rw [← Except.ok.inj hmatched, ← Except.ok.inj hkind']

/-- And a sight shows that token, at that position. -/
theorem sight_shown {p q : Parser (Metered σ) κ} (hp : p.Steady source) {seen : Sighting κ}
    (h : Parser.sight p = (.ok seen, q)) : seen.position = p.absolute ∧ Shown source seen := by
  obtain ⟨t, q₁, hpeek, hread⟩ := Run.bind_eq_ok h
  obtain ⟨hhas, habsolute, -⟩ := peek_shows hp hpeek
  obtain rfl : Sighting.ofToken q₁.absolute t = seen := Except.ok.inj (congrArg Prod.fst hread)
  rw [← habsolute] at hhas
  exact ⟨habsolute, t, hhas, rfl⟩

/-- Where a token of a kind is required, the mismatch shows the current token, which was looked at
    twice. -/
theorem expect_truthful {p : Parser (Metered σ) κ} (hp : p.Steady source) (k : κ) :
    Explained (fun e => ∀ seen, e = .mismatch k seen → Truthful source p.absolute k seen)
      (Parser.expect k) p := by
  refine (Explained.check k).bind fun matched q hq => ?_
  cases matched with
  | true => exact .advance
  | false =>
      refine Explained.sight.bind fun seen q' hs => .of_fail fun seen' heq => ?_
      obtain rfl : seen = seen' := (ParseError.mismatch.inj heq).2
      obtain ⟨t, hhas, hkind, habsolute, hsteady⟩ := check_shows hp hq
      obtain ⟨hposition, t', hhas', hseen⟩ := sight_shown hsteady hs
      have hplace : seen.position = p.absolute := hposition.trans habsolute
      obtain rfl : t = t' := hhas.unique (hplace ▸ hhas')
      refine ⟨Nat.le_of_eq hplace.symm, ?_, t, hhas', hseen⟩
      rw [hseen]
      exact of_decide_eq_false hkind.symm

/-- **Mismatches tell the truth.** -/
theorem mismatch_truthful {p : Parser (Metered σ) κ} (hp : p.Steady source) {fuel : Nat}
    {e : Expr κ ν} (he : e.Quiet rules) {k : κ} {seen : Sighting κ}
    (h : (Expr.eval rules fuel e p).1 = .error (.failed (.mismatch k seen))) :
    Truthful source p.absolute k seen := by
  have hlex : ∀ lex, ParseError.mismatch k seen ≠ .lexical lex := fun _ heq => nomatch heq
  obtain ⟨c, hc, hraises⟩ := raised_inside rules ⟨fuel, e, p⟩ h hlex
  obtain ⟨-, hsteady, hle⟩ :=
    spawned_carried (compositional_proceeds rules source) persists_absolute hc he hp
  cases hraises with
  | expect hexpect =>
      have htruth := expect_truthful hsteady k _ (congrArg Prod.fst hexpect) hlex seen rfl
      exact ⟨Nat.le_trans hle htruth.after, htruth.differs, htruth.shown⟩

/-- The mismatches of alternatives that are refused tell the truth. -/
theorem Refuses.truthful {fuel : Nat} {alternatives : List (Expr κ ν)} {p q : Parser (Metered σ) κ}
    {errors : List (κ × Sighting κ)} (h : Refuses rules fuel alternatives p errors q)
    (he : ∀ e ∈ alternatives, e.Quiet rules) (hp : p.Steady source) {x : κ × Sighting κ}
    (hx : x ∈ errors) : Truthful source p.absolute x.1 x.2 := by
  have hcomp := compositional_proceeds rules source
  -- on the refusals: the earlier ones leave the parser where it stood, but for more tokens held
  induction h with
  | none => exact nomatch hx
  | @next e _ _ k seen q _ _ hs _ ih =>
      have hrun := hcomp.discard (hcomp.eval fuel (he _ List.mem_cons_self))
      rcases List.mem_cons.mp hx with rfl | hmem
      · rcases eval_of_speculate hp hs with ⟨heq, -⟩ | ⟨k', seen', heq, hmismatch⟩
        · exact nomatch heq
        · obtain ⟨rfl, rfl⟩ := ParseError.mismatch.inj (Option.some.inj heq)
          exact mismatch_truthful hp.marked (he _ List.mem_cons_self) hmismatch
      · obtain ⟨hstays, hq⟩ := speculate_stays hrun hp hs rfl
        rw [← hstays.absolute]
        exact ih (fun e hin => he e (List.mem_cons_of_mem _ hin)) hq hmem

/-- What a decision without any alternative left keeps of their mismatches. -/
theorem furthest_of_refuses {fuel : Nat} {alternatives : List (Expr κ ν)} {p q : Parser σ κ}
    {errors : List (κ × Sighting κ)} (h : Refuses rules fuel alternatives p errors q) :
    (furthestOf none errors = none ↔ alternatives = []) ∧
      ∀ f, furthestOf none errors = some f → ∃ x, f = .mismatch x.1 x.2 ∧ IsFurthest errors x := by
  cases h with
  | none => exact ⟨⟨fun _ => rfl, fun _ => rfl⟩, fun f hf => nomatch hf⟩
  | @next e rest _ k seen _ errors _ _ _ =>
      obtain ⟨x, hx, hfurthest⟩ := furthestOf_cons (k, seen) errors
      rw [hx]
      refine ⟨⟨(fun heq => nomatch heq), (fun heq => nomatch heq)⟩, fun f hf => ?_⟩
      exact ⟨x, (Option.some.inj hf).symm, hfurthest⟩

/-- **Errors tell the truth about the stream.**  A mismatch stands at or behind the place where the
    evaluation began, and shows a token of another kind as the stream shows it.  An exhausted
    decision shows the token at which it was entered, and with it the first of the furthest
    mismatches of its alternatives, if it has any. -/
theorem errors_truthful {p : Parser (Metered σ) κ}
    (hp : Reachable rules (fun _ => True) source p) {fuel : Nat} {e : Expr κ ν}
    (he : e.Quiet rules) {error : ParseError κ}
    (h : (Expr.eval rules fuel e p).1 = .error (.failed error)) :
    (∀ expected seen, error = .mismatch expected seen →
      Truthful source p.absolute expected seen) ∧
    ∀ name seen furthest, error = .exhausted name seen furthest →
      ∃ n alternatives entry errors refused,
        Relation.ReflTransGen (Spawns rules) ⟨fuel, e, p⟩
          ⟨n + 1, .choose name alternatives, entry⟩ ∧
        (Expr.eval rules (n + 1) (.choose name alternatives) entry).1 = .error (.failed error) ∧
        Refuses rules n alternatives entry errors refused ∧
        p.absolute ≤ seen.position ∧ seen.position = entry.absolute ∧ Shown source seen ∧
        (furthest = none ↔ alternatives = []) ∧
        ∀ f, furthest = some f → ∃ x, f = .mismatch x.1 x.2 ∧ IsFurthest errors x ∧
          Truthful source seen.position x.1 x.2 := by
  have hsteady := hp.steady
  constructor
  · rintro expected seen rfl
    exact mismatch_truthful hsteady he h
  · rintro name seen furthest rfl
    obtain ⟨c, hc, hraises⟩ := raised_inside rules ⟨fuel, e, p⟩ h (fun _ heq => nomatch heq)
    obtain ⟨hquiet, hentry, hle⟩ :=
      spawned_carried (compositional_proceeds rules source) persists_absolute hc he hsteady
    cases hraises with
    | @choose n _ alternatives entry errors refused _ _ hrefuses hsight =>
        have halternatives : ∀ e ∈ alternatives, e.Quiet rules :=
          fun e hmem => hquiet.part (.choose hmem)
        obtain ⟨hstays, hrefused⟩ := hrefuses.stays halternatives hentry
        obtain ⟨hposition, hshown⟩ := sight_shown hrefused hsight
        have hplace : seen.position = entry.absolute := hposition.trans hstays.absolute
        obtain ⟨hnone, hsome⟩ := furthest_of_refuses hrefuses
        refine ⟨n, alternatives, entry, errors, refused, hc, ?_, hrefuses, ?_, hplace, hshown,
          hnone, ?_⟩
        · exact congrArg Prod.fst (Run.bind_of_error (hrefuses.exhausted hsight none))
        · rw [hplace]
          exact hle
        · intro f hf
          obtain ⟨x, hx, hfurthest⟩ := hsome f hf
          refine ⟨x, hx, hfurthest, ?_⟩
          rw [hplace]
          exact hrefuses.truthful halternatives hentry hfurthest.mem

end Truth

/-- After two tokens are gone, the first and the last of three alternatives get equally far, and the
    decision tells of the first. -/
theorem errors_truthful_tie :
    let rules : Unit → Expr Char Unit := fun _ =>
      .choose "d" [.seq .advance (.expect 'z'), .expect 'y', .seq .advance (.expect 'w')]
    let source := CharStream.ofText "abcde"
    let seen : Sighting Char := ⟨'d', "d", 3, ⟨1, 4, 3⟩⟩
    let furthest : Sighting Char := ⟨'e', "e", 4, ⟨1, 5, 4⟩⟩
    let p : Parser (Metered CharStream) Char :=
      (Expr.eval rules 9 (.seq .advance .advance) (.new (.new source) {})).2
    p.window.retired = 2 ∧
      (Expr.eval rules 9 (.seq .advance (.call ())) p).1
        = .error (.failed (.exhausted "d" seen (some (.mismatch 'z' furthest)))) ∧
      p.absolute ≤ seen.position ∧ Shown source seen ∧
      Truthful source seen.position 'z' furthest := by
  intro rules source seen furthest p
  have hp : Reachable rules (fun _ => True) source p :=
    .after 9 (.new {}) trivial (by decide +kernel)
  have hquiet : (Expr.seq .advance (.call ())).Quiet rules :=
    Expr.quiet_of_isQuiet (fun _ => rfl) rfl
  have herror : (Expr.eval rules 9 (.seq .advance (.call ())) p).1
      = .error (.failed (.exhausted "d" seen (some (.mismatch 'z' furthest)))) := by
    decide +kernel
  obtain ⟨-, hexhausted⟩ := errors_truthful hp hquiet herror
  obtain ⟨_, _, _, _, _, -, -, -, hle, -, hshown, -, hfurthest⟩ := hexhausted _ _ _ rfl
  obtain ⟨⟨k, s⟩, hx, -, htruth⟩ := hfurthest _ rfl
  obtain ⟨rfl, rfl⟩ := ParseError.mismatch.inj hx
  exact ⟨by decide +kernel, herror, hle, hshown, htruth⟩

end Packrat
