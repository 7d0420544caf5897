import Packrat.Proofs.Recovery

/-! # Pure lookahead

    An expression that sets and releases no marks of its own only goes onward: the
    marks stay, the place in the stream does not fall back, and as long as a mark is
    outstanding nothing is let go (`Parser.Onward`).  So a speculation, which sets a
    mark first, can take everything back that it moved, whatever its rule has come
    to: what remains of it are tokens at the far end of the window and new entries
    in the memo table. -/

namespace Packrat

variable {σ κ ν α β : Type}

namespace Parser

/-- From `p` to `q` nothing that is held was let go. -/
structure Keeps (p q : Parser σ κ) : Prop where
  retired : q.window.retired = p.window.retired
  truncations : q.truncations = p.truncations
  tokens : p.window.tokens.toList <+: q.window.tokens.toList
  entries : ∀ rule position span, p.memo.find? rule position = some span →
    q.memo.find? rule position = some span

/-- From `p` to `q` the marks are the same and the parse has not gone back, and with a mark
    outstanding nothing was let go. -/
structure Onward (p q : Parser σ κ) : Prop where
  marks : q.marks = p.marks
  absolute : p.absolute ≤ q.absolute
  kept : p.marks.cursors ≠ [] → p.Keeps q

/-- From `p` to `q` nothing was let go, and the place and the marks are the same. -/
structure Stays (p q : Parser σ κ) : Prop extends p.Keeps q where
  marks : q.marks = p.marks
  cursor : q.window.cursor = p.window.cursor

/-- Nothing is gone where nothing was done. -/
theorem Keeps.refl (p : Parser σ κ) : p.Keeps p :=
  ⟨rfl, rfl, List.prefix_rfl, fun _ _ _ h => h⟩

/-- What was kept twice is still there. -/
theorem Keeps.trans {p q r : Parser σ κ} (h : p.Keeps q) (h' : q.Keeps r) : p.Keeps r where
  retired := h'.retired.trans h.retired
  truncations := h'.truncations.trans h.truncations
  tokens := h.tokens.trans h'.tokens
  entries rule position span hs := h'.entries rule position span (h.entries rule position span hs)

/-- A window that pulls tokens lets none go. -/
theorem Keeps.grows {p : Parser σ κ} {w : Window σ κ} (hg : p.window.Grows w) :
    p.Keeps { p with window := w } :=
  ⟨hg.retired, rfl, hg.tokens, fun _ _ _ h => h⟩

/-- The new entry stands where there was none. -/
theorem Keeps.recorded {p q : Parser σ κ} {rule : String} (h : (p.asked rule).Keeps q)
    (hnone : p.memo.find? rule p.absolute = none) : p.Keeps (p.recorded rule q) := by
  have hkept : p.Keeps q :=
    ⟨h.retired, h.truncations, h.tokens, fun rule' position span hs =>
      h.entries rule' position span ((Memo.find?_lookup ..).trans hs)⟩
  rw [Parser.recorded]
  by_cases hle : q.window.retired ≤ p.absolute
  -- the one entry that is new belongs to a key under which nothing was found
  · rw [if_pos hle]
    refine ⟨hkept.retired, hkept.truncations, hkept.tokens, fun rule' position span hs => ?_⟩
    have hother : ¬ (rule = rule' ∧ p.absolute = position) := by
      rintro ⟨rfl, rfl⟩
      rw [hnone] at hs
      cases hs
    exact (Memo.find?_store_of_ne _ _ hother).trans (hkept.entries rule' position span hs)
  · rw [if_neg hle]
    exact hkept

/-- A window that has let nothing go has not become smaller. -/
theorem Keeps.size_le {p q : Parser σ κ} (h : p.Keeps q) : p.window.size ≤ q.window.size := by
  have hlen := h.tokens.length_le
  rwa [Array.length_toList, Array.length_toList] at hlen

/-- Doing nothing is staying. -/
theorem Stays.refl (p : Parser σ κ) : p.Stays p := ⟨.refl p, rfl, rfl⟩

/-- Staying is done step by step, too. -/
theorem Stays.trans {p q r : Parser σ κ} (h : p.Stays q) (h' : q.Stays r) : p.Stays r :=
  ⟨h.toKeeps.trans h'.toKeeps, h'.marks.trans h.marks, h'.cursor.trans h.cursor⟩

/-- Neither the cursor nor what has left the window has changed, so the current token is the
    same. -/
theorem Stays.absolute {p q : Parser σ κ} (h : p.Stays q) : q.absolute = p.absolute := by
  rw [Parser.absolute, Parser.absolute, Window.absolute, Window.absolute, h.retired, h.cursor]

/-- Who stays has not gone back. -/
theorem Stays.onward {p q : Parser σ κ} (h : p.Stays q) : p.Onward q :=
  ⟨h.marks, Nat.le_of_eq h.absolute.symm, fun _ => h.toKeeps⟩

namespace Onward

/-- Doing nothing is no step back. -/
theorem refl (p : Parser σ κ) : p.Onward p := ⟨rfl, Nat.le_refl _, fun _ => .refl p⟩

/-- Two runs onward are one. -/
theorem trans {p q r : Parser σ κ} (h : p.Onward q) (h' : q.Onward r) : p.Onward r := by
  refine ⟨h'.marks.trans h.marks, Nat.le_trans h.absolute h'.absolute, fun hm => ?_⟩
  exact (h.kept hm).trans (h'.kept (h.marks ▸ hm))

/-- A window that only pulls tokens leaves its cursor where it is. -/
theorem grows {p : Parser σ κ} {w : Window σ κ} (hg : p.window.Grows w) :
    p.Onward { p with window := w } :=
  ⟨rfl, Nat.le_of_eq hg.absolute.symm, fun _ => .grows hg⟩

/-- A question to the memo table moves nothing. -/
theorem asked (rule : String) (p : Parser σ κ) : p.Onward (p.asked rule) :=
  ⟨rfl, Nat.le_refl _, fun _ => ⟨rfl, rfl, List.prefix_rfl, fun _ _ _ hs =>
    (Memo.find?_lookup ..).trans hs⟩⟩

/-- The cursor may be moved to any token behind it. -/
theorem moveTo {p q : Parser σ κ} (h : p.Onward q) {cursor : Nat} (hle : q.window.cursor ≤ cursor) :
    p.Onward { q with window := { q.window with cursor } } := by
  refine ⟨h.marks, ?_, fun hm => ⟨(h.kept hm).retired, (h.kept hm).truncations,
    (h.kept hm).tokens, (h.kept hm).entries⟩⟩
  exact Nat.le_trans h.absolute (Nat.add_le_add_left hle q.window.retired)

/-- Tokens are let go only when no mark is outstanding. -/
theorem tidied (p : Parser σ κ) : p.Onward p.tidied := by
  rcases p.tidied_cases with ⟨-, hnone, heq⟩ | heq
  · rw [heq]
    refine ⟨rfl, ?_, fun hm => absurd hnone hm⟩
    exact Nat.le_of_eq (Window.absolute_truncate p.window).symm
  · rw [heq]
    exact refl p

/-- A span more in the memo table moves nothing either, and it takes the place of none. -/
theorem recorded {p q : Parser σ κ} {rule : String} (h : (p.asked rule).Onward q)
    (hnone : p.memo.find? rule p.absolute = none) : p.Onward (p.recorded rule q) := by
  have hmarks : (p.recorded rule q).marks = q.marks := by
    rw [Parser.recorded]
    split <;> rfl
  have hwindow : (p.recorded rule q).window = q.window := by
    rw [Parser.recorded]
    split <;> rfl
  refine ⟨hmarks.trans h.marks, ?_, fun hm => (h.kept hm).recorded hnone⟩
  rw [Parser.absolute, Parser.absolute, hwindow]
  exact h.absolute

end Onward

/-- What went onward from a marked parser can be taken back. -/
theorem release_of_onward {p q : Parser σ κ} (hp : p.window.cursor ≤ p.window.size)
    (h : p.marked.Onward q) : release true q = (.ok (), p.rewound q) := by
  have hpop : q.marks.pop = (some p.window.cursor, p.marks) := by
    rw [h.marks]
    rfl
  have hsize : p.window.cursor ≤ q.window.size :=
    Nat.le_trans hp (h.kept (List.cons_ne_nil _ _)).size_le
  rw [release, hpop]
  exact onWindow_ok (p := { q with marks := p.marks }) (Window.seek_of_le hsize)

/-- Then it is at the place of `p` again, and nothing that was held is gone. -/
theorem Stays.rewound {p q : Parser σ κ} (h : p.marked.Onward q) : p.Stays (p.rewound q) := by
  have hkept := h.kept (List.cons_ne_nil _ _)
  exact ⟨⟨hkept.retired, hkept.truncations, hkept.tokens, hkept.entries⟩, rfl, rfl⟩

end Parser

/-! ## What an attempt makes of its rule -/

/-- What an attempt makes of the outcome of its rule. -/
def judgement (r : Except (Halt (ParseError κ)) α) : Except (Halt (ParseError κ)) Bool :=
  (verdict (r.map fun _ => ())).map Option.isNone

/-- Only a mismatch is an answer; every other halt is handed on. -/
theorem judgement_spec (r : Except (Halt (ParseError κ)) α) :
    (judgement r = .ok true ↔ ∃ v, r = .ok v) ∧
      (judgement r = .ok false ↔ ∃ k seen, r = .error (.failed (.mismatch k seen))) ∧
      ∀ h, judgement r = .error h ↔ r = .error h ∧ h.isFatal = true := by
  rcases r with ⟨⟨_ | _ | _⟩ | _ | _⟩ | _ <;>
    simp +contextual [judgement, verdict, Except.map, Halt.isFatal, ParseError.isMismatch]

/-- An attempt is the speculation, with its mismatch told as a flag. -/
theorem Parser.attempt_of_speculate {rule : Parsing σ κ Unit} {p q : Parser σ κ}
    {r : Except (Halt (ParseError κ)) (Option (ParseError κ))}
    (h : speculate rule p = (r, q)) : attempt rule p = (r.map Option.isNone, q) := by
  cases r with
  | ok outcome => exact Run.bind_of_ok h
  | error e => exact Run.bind_of_error h

/-! ## Evaluation without bare marks -/

section Evaluation

variable [TokenStream σ κ] [DecidableEq κ] [TokenKind κ] {source : σ} {rules : ν → Expr κ ν}

/-- The calls are accounted for, and unless the run is broken off the parse goes onward. -/
def Parser.Proceeds (source : σ) (p : Parser (Metered σ) κ) (x : Ending)
    (q : Parser (Metered σ) κ) : Prop :=
  p.Listened source x q ∧ (x ≠ .broken → p.Onward q)

omit [DecidableEq κ] [TokenKind κ] in
/-- Runs onward can be put one behind the other as long as they settle. -/
theorem chains_proceeds : Chains (Parser.Proceeds source : Parser (Metered σ) κ → _) where
  refl p := ⟨chains_listened.refl p, fun _ => .refl p⟩
  broken p := ⟨chains_listened.broken p, fun hx => absurd rfl hx⟩
  trans h h' :=
    ⟨chains_listened.trans h.1 h'.1, fun hx => (h.2 (fun heq => nomatch heq)).trans (h'.2 hx)⟩

namespace Carries

/-- Of a run that proceeds the calls are accounted for. -/
theorem listened {m : Parsing (Metered σ) κ α}
    (h : Carries (Parser.Steady source) (Parser.Proceeds source) m) :
    Carries (Parser.Steady source) (Parser.Listened source) m :=
  fun p hp => ⟨(h p hp).1, (h p hp).2.1⟩

/-- And a run whose calls are accounted for proceeds if it goes onward. -/
theorem proceeds {m : Parsing (Metered σ) κ α}
    (h : Carries (Parser.Steady source) (Parser.Listened source) m)
    (honward : ∀ p, p.Steady source → ending (m p).1 ≠ .broken → p.Onward (m p).2) :
    Carries (Parser.Steady source) (Parser.Proceeds source) m :=
  fun p hp => ⟨(h p hp).1, (h p hp).2, honward p hp⟩

end Carries

/-- A look pulls tokens and stays. -/
theorem peek_stays (depth : Nat) (p : Parser σ κ) : p.Stays (Parser.peek depth p).2 := by
  rcases Window.peek_spec depth p.window with ⟨t, w, h, hg, -⟩ | ⟨e, w, h, hg⟩ | ⟨-, h⟩
  · rw [show Parser.peek depth p = _ from Parser.onWindow_ok h]
    exact ⟨.grows hg, rfl, hg.cursor⟩
  · rw [show Parser.peek depth p = _ from Parser.onWindow_error h]
    exact ⟨.grows hg, rfl, hg.cursor⟩
  · rw [show Parser.peek depth p = _ from Parser.onWindow_error h]
    exact .refl p

/-- So does the sight of a token. -/
theorem sight_stays (p : Parser σ κ) : p.Stays (Parser.sight p).2 := by
  have hpeek := peek_stays 0 p
  rcases hr : Parser.peek 0 p with ⟨_ | t, q⟩
  · rw [hr] at hpeek
    rw [show Parser.sight p = _ from Run.bind_of_error hr]
    exact hpeek
  · rw [hr] at hpeek
    rw [show Parser.sight p = _ from Run.bind_of_ok hr]
    exact hpeek

/-- A step over a token goes onward by one, and may truncate the window when there is no mark. -/
theorem advance_onward (p : Parser σ κ) : p.Onward (Parser.advance p).2 := by
  rcases Parser.advance_spec p with ⟨w, h, hg, -⟩ | ⟨e, w, h, hg⟩
  · rw [h]
    have hstep : p.Onward (p.stepped w) := by
      refine (Parser.Onward.grows hg).moveTo ?_
      rw [hg.cursor]
      exact Nat.le_succ _
    exact hstep.trans (.tidied _)
  · rw [h]
    exact .grows hg

/-- A speculation from a steady parser ends where it began. -/
theorem speculate_stays {rule : Parsing (Metered σ) κ Unit} {p q : Parser (Metered σ) κ}
    {r : Except (Halt (ParseError κ)) (Option (ParseError κ))}
    (h : Carries (Parser.Steady source) (Parser.Proceeds source) rule) (hp : p.Steady source)
    (hs : Parser.speculate rule p = (r, q)) (hr : isSettled r = true) :
    p.Stays q ∧ q.Steady source := by
  obtain ⟨q', hs', hq', -⟩ := speculate_steady h hp
  obtain ⟨rfl, rfl⟩ := Prod.mk.inj (hs.symm.trans hs')
  rw [isSettled_verdict] at hr
  obtain ⟨hsteady, hrelease⟩ := hq' hr
  have honward := (h p.marked hp.marked).2.2 (isSettled_iff_ending.mp hr)
  have hrewound := hrelease.symm.trans (Parser.release_of_onward hp.cursor_le honward)
  obtain ⟨-, rfl⟩ := Prod.mk.inj hrewound
  exact ⟨.rewound honward, hsteady⟩

/-- Speculation on a rule that goes onward comes back: the rule has kept everything for the mark. -/
theorem carries_speculate_onward {rule : Parsing (Metered σ) κ Unit}
    (h : Carries (Parser.Steady source) (Parser.Proceeds source) rule) :
    Carries (Parser.Steady source) (Parser.Proceeds source) (Parser.speculate rule) :=
  (carries_speculate h.listened).proceeds fun _ hp hx =>
    (speculate_stays h hp (Prod.eta _).symm (isSettled_iff_ending.mpr hx)).1.onward

/-- A memoized rule goes onward by its body, or by a jump to the end of a span. -/
theorem carries_memoize_onward (name : String) {body : Parsing (Metered σ) κ Unit}
    (h : Carries (Parser.Steady source) (Parser.Proceeds source) body) :
    Carries (Parser.Steady source) (Parser.Proceeds source) (Parser.memoize name body) := by
  refine (carries_memoize name h.listened).proceeds fun p hp => ?_
  have hcases := Parser.memoize_cases name body p
  rcases ho : Parser.memoize name body p with ⟨r, q'⟩
  rw [ho] at hcases
  intro hx
  cases hcases with
  | off _ hr => exact (h.of_eq hp hr).2.2 hx
  | @hit span _ hfind hstart _ =>
      -- the jump leads onward because no stored span ends before it begins
      refine (Parser.Onward.asked name p).moveTo ?_
      show p.window.cursor ≤ span.stop
      rw [← hstart]
      exact hp.ordered name p.absolute span (Memo.holds_of_find? hfind)
  | failed _ _ hr => exact (Parser.Onward.asked name p).trans ((h.of_eq (hp.asked name) hr).2.2 hx)
  | ran _ hfind hr _ => exact ((h.of_eq (hp.asked name) hr).2.2 hx).recorded hfind
  | stale _ _ => exact absurd rfl hx
  | reversed _ _ _ => exact absurd rfl hx

/-- **Every evaluation without bare marks goes onward.** -/
theorem compositional_proceeds (rules : ν → Expr κ ν) (source : σ) :
    Compositional rules (Expr.Quiet rules)
      (fun m => Carries (Parser.Steady source) (Parser.Proceeds source) m) :=
  .of_carries chains_proceeds Expr.Quiet.part
    (fun depth => (carries_peek depth).proceeds fun p _ _ => (peek_stays depth p).onward)
    (carries_advance.proceeds fun p _ _ => advance_onward p)
    (fun hq => absurd .refl hq.mark) (fun restore hq => absurd .refl (hq.release restore))
    carries_speculate_onward
    (fun _ _ hbody =>
      carries_memoize_onward _ (hbody.bind chains_proceeds fun _ => .pure chains_proceeds _))

/-- So does every moment inside of it. -/
theorem persists_absolute :
    Persists (Parser.Steady source) (Parser.Proceeds source)
      (fun p q : Parser (Metered σ) κ => p.absolute ≤ q.absolute) where
  refl _ := Nat.le_refl _
  trans := Nat.le_trans
  run h := (h.2 fun heq => nomatch heq).absolute
  marked _ hp := ⟨hp.marked, Nat.le_refl _⟩
  asked name _ hp := ⟨hp.asked name, Nat.le_refl _⟩

/-- What a speculation answers is what the expression comes to from the marked parser. -/
theorem eval_of_speculate {fuel : Nat} {e : Expr κ ν} {p q : Parser (Metered σ) κ}
    {x : Option (ParseError κ)} (hp : p.Steady source)
    (h : Parser.speculate (discard (Expr.eval rules fuel e)) p = (.ok x, q)) :
    (x = none ∧ ∃ v, (Expr.eval rules fuel e p.marked).1 = .ok v) ∨
      ∃ k seen, x = some (.mismatch k seen) ∧
        (Expr.eval rules fuel e p.marked).1 = .error (.failed (.mismatch k seen)) := by
  obtain ⟨q', hs, -⟩ := speculate_eval rules fuel e hp
  have hx : verdict ((Expr.eval rules fuel e p.marked).1.map fun _ => ()) = .ok x :=
    congrArg Prod.fst (hs.symm.trans h)
  cases hr : (Expr.eval rules fuel e p.marked).1 with
  | ok v =>
      rw [hr] at hx
      exact Or.inl ⟨(Except.ok.inj hx).symm, v, rfl⟩
  | error halt =>
      rw [hr] at hx
      -- an answer other than a value comes from a mismatch, the only error a speculation takes back
      rcases verdict_eq_ok hx with ⟨-, heq⟩ | ⟨k, seen, hsome, heq⟩
      · exact nomatch heq
      · exact Or.inr ⟨k, seen, hsome, congrArg Except.error (Except.error.inj heq)⟩

/-! ## Refused alternatives -/

/-- The alternatives are speculated on one after the other, from the parser `p` on, and each ends
    with its mismatch; the parser `q` is left behind. -/
inductive Refuses (rules : ν → Expr κ ν) (fuel : Nat) :
    List (Expr κ ν) → Parser σ κ → List (κ × Sighting κ) → Parser σ κ → Prop where
  | none {p} : Refuses rules fuel [] p [] p
  | next {e rest p k seen q errors q'} :
      Parser.speculate (discard (Expr.eval rules fuel e)) p = (.ok (some (.mismatch k seen)), q) →
      Refuses rules fuel rest q errors q' →
      Refuses rules fuel (e :: rest) p ((k, seen) :: errors) q'

/-- Alternatives that are all refused have been taken back, one after the other. -/
theorem Refuses.stays {fuel : Nat} {alternatives : List (Expr κ ν)} {p q : Parser (Metered σ) κ}
    {errors : List (κ × Sighting κ)} (h : Refuses rules fuel alternatives p errors q)
    (he : ∀ e ∈ alternatives, e.Quiet rules) (hp : p.Steady source) :
    p.Stays q ∧ q.Steady source := by
  have hcomp := compositional_proceeds rules source
  induction h with
  | none => exact ⟨.refl _, hp⟩
  | next hs _ ih =>
      have hrun := hcomp.discard (hcomp.eval fuel (he _ List.mem_cons_self))
      obtain ⟨hstays, hq⟩ := speculate_stays hrun hp hs rfl
      obtain ⟨hstays', hq'⟩ := ih (fun e hmem => he e (List.mem_cons_of_mem _ hmem)) hq
      exact ⟨hstays.trans hstays', hq'⟩

/-! ## Attempts -/

/-- An attempt of an expression judges its run from the marked parser. -/
theorem attempt_judges {fuel : Nat} {e : Expr κ ν} {p : Parser (Metered σ) κ}
    (hp : p.Steady source) :
    (Parser.attempt (discard (Expr.eval rules fuel e)) p).1
      = judgement (Expr.eval rules fuel e p.marked).1 := by
  obtain ⟨q, hs, -⟩ := speculate_eval rules fuel e hp
  rw [Parser.attempt_of_speculate hs, judgement]

/-- **An attempt is pure lookahead.**  Whatever comes of it, short of a broken rule of use, the
    place, the marks and the layout of the window are as before, and what was held in the window and
    in the memo table is held still.  It answers whether the expression matches from here, and hands
    on what is no answer to that. -/
theorem attempt_is_lookahead {p q : Parser (Metered σ) κ}
    (hp : Reachable rules (fun _ => True) source p) {fuel : Nat} {e : Expr κ ν}
    (he : e.Quiet rules) {r : Except (Halt (ParseError κ)) Bool}
    (h : Parser.attempt (discard (Expr.eval rules fuel e)) p = (r, q)) :
    (isSettled r = true →
      q.absolute = p.absolute ∧ q.window.cursor = p.window.cursor ∧ q.marks = p.marks ∧
        q.window.retired = p.window.retired ∧ q.truncations = p.truncations ∧
        p.window.tokens.toList <+: q.window.tokens.toList ∧
        ∀ rule position span, p.memo.find? rule position = some span →
          q.memo.find? rule position = some span) ∧
      (r = .ok true ↔ ∃ v, (Expr.eval rules fuel e p.marked).1 = .ok v) ∧
      (r = .ok false ↔
        ∃ k seen, (Expr.eval rules fuel e p.marked).1 = .error (.failed (.mismatch k seen))) ∧
      ∀ halt, r = .error halt ↔
        (Expr.eval rules fuel e p.marked).1 = .error halt ∧ halt.isFatal = true := by
  have hsteady := hp.steady
  have hr : r = judgement (Expr.eval rules fuel e p.marked).1 := by
    rw [← attempt_judges hsteady, h]
  -- what the attempt says follows from its judgement alone; the frame needs the rule to be quiet
  refine ⟨fun hset => ?_, hr ▸ judgement_spec _⟩
  have hcomp := compositional_proceeds rules source
  obtain ⟨x, q', hs⟩ : ∃ x q', Parser.speculate (discard (Expr.eval rules fuel e)) p = (x, q') :=
    ⟨_, _, (Prod.eta _).symm⟩
  rw [Parser.attempt_of_speculate hs] at h
  obtain ⟨rfl, rfl⟩ := Prod.mk.inj h
  rw [isSettled_map] at hset
  obtain ⟨hstays, -⟩ := speculate_stays (hcomp.discard (hcomp.eval fuel he)) hsteady hs hset
  exact ⟨hstays.absolute, hstays.cursor, hstays.marks, hstays.retired, hstays.truncations,
    hstays.tokens, hstays.entries⟩

end Evaluation

/-- After one token is gone, and with a mark and an entry in place, an attempt nests a choice and a
    memoized rule and meets a lexical error: all of them stay. -/
theorem attempt_is_lookahead_lexical :
    let rules : Unit → Expr Char Unit := fun _ => .seq .advance (.peek 0)
    let setup : Expr Char Unit := .sequence [.advance, .mark, .memo "b" .advance]
    let rule : Expr Char Unit := .choose "c" [.memo "c" (.call ()), .done]
    let source := CharStream.ofText "abc?"
    let p : Parser (Metered CharStream) Char := (Expr.eval rules 9 setup (.new (.new source) {})).2
    let o := Parser.attempt (discard (Expr.eval rules 9 rule)) p
    p.window.retired = 1 ∧ p.marks.depth = 1 ∧
      o.1 = .error (.failed (.lexical (.invalidCharacter '?' ⟨1, 4, 3⟩))) ∧
      o.2.absolute = p.absolute ∧ o.2.marks = p.marks ∧
      o.2.memo.find? "b" 1 = some ⟨0, 1⟩ := by
  intro rules setup rule source p o
  have hp : Reachable rules (fun _ => True) source p :=
    .after 9 (.new {}) trivial (by decide +kernel)
  have hrule : rule.Quiet rules := Expr.quiet_of_isQuiet (fun _ => rfl) rfl
  obtain ⟨hframe, -, -, hhalt⟩ := attempt_is_lookahead hp hrule (Prod.eta o).symm
  have ho := (hhalt (.failed (.lexical (.invalidCharacter '?' ⟨1, 4, 3⟩)))).mpr
    ⟨by decide +kernel, rfl⟩
  obtain ⟨habsolute, -, hmarks, -, -, -, hentries⟩ := hframe (by rw [ho]; rfl)
  exact ⟨by decide +kernel, by decide +kernel, ho, habsolute, hmarks,
    hentries "b" 1 ⟨0, 1⟩ (by decide +kernel)⟩

end Packrat
