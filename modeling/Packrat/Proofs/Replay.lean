import Packrat.Proofs.Tape

/-! # Replaying a reading

    What an expression without bare marks does is decided by the tokens that it has
    looked at.  When it has ended without a lexical error, those tokens are on the
    tape, and on any tape that holds them at the same place it ends in the same way
    again, without a question to the stream.  This is what makes it sound to
    remember where a rule has ended. -/

namespace Packrat

variable {σ κ ν α β : Type}

/-- The outcome hangs on tokens alone: a value, or a complaint about a token. -/
def isDefinite : Except (Halt (ParseError κ)) α → Bool
  | .ok _ => true
  | .error (.failed (.lexical _)) => false
  | .error (.failed _) => true
  | .error (.fault _) => false
  | .error .outOfFuel => false

namespace Tape

/-- The outcome `o` of a computation on `t` can be had again. -/
structure Replayed (m : Reading σ κ α) (t : Tape σ κ)
    (o : Except (Halt (ParseError κ)) α × Tape σ κ) : Prop where
  grows : t.tokens <+: o.2.tokens
  marks : isSettled o.1 = true → o.2.marks = t.marks
  again : isDefinite o.1 = true → ∀ t', o.2.tokens <+: t'.tokens → t'.position = t.position →
    m t' = (o.1, t'.goto o.2.position)

/-- Every definite outcome of the computation can be had again. -/
def Replayable (m : Reading σ κ α) : Prop := ∀ t, Replayed m t (m t)

/-- The tape with a new mark. -/
def marked (t : Tape σ κ) : Tape σ κ := { t with marks := t.position :: t.marks }

/-- The tape `u` taken back to the place and the marks of `t`. -/
def rewound (t u : Tape σ κ) : Tape σ κ := { u with marks := t.marks, position := t.position }

/-- A release pairs with the mark below what the rule has left, and goes back to it. -/
theorem release_of_marks {t u : Tape σ κ} (h : u.marks = t.marked.marks) :
    release true u = (.ok (), t.rewound u) := by
  rw [release, h]
  rfl

/-- A rule that succeeds leaves its tokens on the tape, and nothing else. -/
theorem speculate_of_ok {rule : Reading σ κ Unit} {t u : Tape σ κ}
    (hm : u.marks = t.marked.marks) (h : rule t.marked = (.ok (), u)) :
    speculate rule t = (.ok none, t.rewound u) := by
  rw [speculate, Run.bind_of_ok (show mark t = (_, t.marked) from rfl),
    Run.bind_of_ok (Run.settle_of_ok h), Run.bind_of_ok (release_of_marks hm)]
  rfl

/-- And so does a rule that fails; a mismatch is the answer, and every other complaint is passed
    on. -/
theorem speculate_of_failed {rule : Reading σ κ Unit} {t u : Tape σ κ} {e : ParseError κ}
    (hm : u.marks = t.marked.marks) (h : rule t.marked = (.error (.failed e), u)) :
    speculate rule t =
      (if e.isMismatch then .ok (some e) else .error (.failed e), t.rewound u) := by
  rw [speculate, Run.bind_of_ok (show mark t = (_, t.marked) from rfl),
    Run.bind_of_ok (Run.settle_of_failed h), Run.bind_of_ok (release_of_marks hm)]
  show (if e.isMismatch then _ else _ : Reading σ κ (Option (ParseError κ))) (t.rewound u) = _
  by_cases he : e.isMismatch = true
  · rw [if_pos he, if_pos he]
    rfl
  · rw [if_neg he, if_neg he]
    rfl

/-- A fault ends the speculation where it happens. -/
theorem speculate_of_fault {rule : Reading σ κ Unit} {t u : Tape σ κ} {c : Fault}
    (h : rule t.marked = (.error (.fault c), u)) :
    speculate rule t = (.error (.fault c), u) := by
  rw [speculate, Run.bind_of_ok (show mark t = (_, t.marked) from rfl),
    Run.bind_of_error (Run.settle_of_fault h)]

/-- And so does running out of fuel. -/
theorem speculate_of_outOfFuel {rule : Reading σ κ Unit} {t u : Tape σ κ}
    (h : rule t.marked = (.error .outOfFuel, u)) :
    speculate rule t = (.error .outOfFuel, u) := by
  rw [speculate, Run.bind_of_ok (show mark t = (_, t.marked) from rfl),
    Run.bind_of_error (Run.settle_of_outOfFuel h)]

namespace Replayable

/-- What changes nothing can be had again if it sees the same there. -/
theorem of_const {m : Reading σ κ α} {f : Nat → Except (Halt (ParseError κ)) α}
    (h : ∀ t, m t = (f t.position, t)) : Replayable m := by
  intro t
  rw [h t]
  refine ⟨List.prefix_rfl, fun _ => rfl, ?_⟩
  intro _ t' _ hpos
  rw [h t', hpos]
  show _ = (f t.position, t'.goto t.position)
  rw [← hpos]
  rfl

/-- An answer that reads nothing is the same anywhere. -/
theorem pure (a : α) : Replayable (Pure.pure a : Reading σ κ α) :=
  of_const (f := fun _ => .ok a) fun _ => rfl

/-- A halt that reads nothing is the same, too. -/
theorem halt (h : Halt (ParseError κ)) : Replayable (Run.halt h : Reading σ κ α) :=
  of_const (f := fun _ => .error h) fun _ => rfl

/-- The second part starts at the position to which the first has led, on the first run as on the
    second. -/
theorem bind {m : Reading σ κ α} {f : α → Reading σ κ β} (hm : Replayable m)
    (hf : ∀ a, Replayable (f a)) : Replayable (m >>= f) := by
  intro t
  have h₁ := hm t
  rcases hr : m t with ⟨r, t₁⟩
  rw [hr] at h₁
  cases r with
  | ok a =>
      have h₂ := hf a t₁
      rw [Run.bind_of_ok hr]
      refine ⟨h₁.grows.trans h₂.grows, ?_, ?_⟩
      · intro hset
        exact (h₂.marks hset).trans (h₁.marks rfl)
      · -- the first part is had again on fewer tokens than both parts leave
        intro hdef t' hpre hpos
        rw [Run.bind_of_ok (h₁.again rfl t' (h₂.grows.trans hpre) hpos)]
        exact h₂.again hdef (t'.goto t₁.position) hpre rfl
  | error e =>
      rw [Run.bind_of_error hr]
      have hsame : ∀ e, isSettled (.error e : Except (Halt (ParseError κ)) β)
          = isSettled (.error e : Except (Halt (ParseError κ)) α) := by
        intro e
        cases e <;> rfl
      have hdef' : ∀ e, isDefinite (.error e : Except (Halt (ParseError κ)) β)
          = isDefinite (.error e : Except (Halt (ParseError κ)) α) := by
        intro e
        rcases e with ⟨_ | _ | _⟩ | _ | _ <;> rfl
      refine ⟨h₁.grows, fun hset => h₁.marks (hsame e ▸ hset), ?_⟩
      intro hdef t' hpre hpos
      exact Run.bind_of_error (h₁.again (hdef' e ▸ hdef) t' hpre hpos)

/-- A run whose answer is forgotten is replayed just as well. -/
theorem discard {m : Reading σ κ α} (h : Replayable m) :
    Replayable (Functor.discard m : Reading σ κ PUnit) :=
  h.bind fun _ => Replayable.pure PUnit.unit

/-- The branch that was taken is taken again. -/
theorem ite {c : Prop} [Decidable c] {m m' : Reading σ κ α} (h : Replayable m)
    (h' : Replayable m') : Replayable (if c then m else m') := by
  by_cases hc : c
  · rw [if_pos hc]
    exact h
  · rw [if_neg hc]
    exact h'

/-- Going back leads to the same mark both times, and the tokens that were read in between are
    there. -/
theorem speculate {rule : Reading σ κ Unit} (h : Replayable rule) :
    Replayable (Tape.speculate rule) := by
  intro t
  have hk := h t.marked
  rcases hr : rule t.marked with ⟨r, u⟩
  rw [hr] at hk
  -- on another tape the rule is run with another mark below it
  have hback : isDefinite r = true → ∀ t' : Tape σ κ, u.tokens <+: t'.tokens →
      t'.position = t.position →
      rule t'.marked = (r, t'.marked.goto u.position) := fun hdef t' hpre hpos =>
    hk.again hdef t'.marked hpre hpos
  match r, hr, hk, hback with
  | .ok (), hr, hk, hback =>
      rw [speculate_of_ok (hk.marks rfl) hr]
      refine ⟨hk.grows, fun _ => rfl, ?_⟩
      intro _ t' hpre hpos
      rw [speculate_of_ok (u := t'.marked.goto u.position) rfl (hback rfl t' hpre hpos)]
      show _ = (_, t'.goto t.position)
      rw [← hpos]
      rfl
  | .error (.failed e), hr, hk, hback =>
      rw [speculate_of_failed (hk.marks rfl) hr]
      refine ⟨hk.grows, fun _ => rfl, ?_⟩
      intro hdef t' hpre hpos
      have hdef' : isDefinite (.error (.failed e) : Except (Halt (ParseError κ)) Unit) = true := by
        cases e with
        | lexical _ => exact nomatch hdef
        | mismatch _ _ => rfl
        | exhausted _ _ _ => rfl
      rw [speculate_of_failed (u := t'.marked.goto u.position) rfl (hback hdef' t' hpre hpos)]
      show _ = (_, t'.goto t.position)
      rw [← hpos]
      rfl
  | .error (.fault c), hr, hk, _ =>
      rw [speculate_of_fault hr]
      exact ⟨hk.grows, (fun h => nomatch h), (fun h => nomatch h)⟩
  | .error .outOfFuel, hr, hk, _ =>
      rw [speculate_of_outOfFuel hr]
      exact ⟨hk.grows, (fun h => nomatch h), (fun h => nomatch h)⟩

/-- An attempt is a speculation, seen as a flag. -/
theorem attempt {rule : Reading σ κ Unit} (h : Replayable rule) :
    Replayable (Tape.attempt rule) :=
  (speculate h).bind fun _ => Replayable.pure _

variable [TokenStream σ κ] [DecidableEq κ] [TokenKind κ]

/-- The second look finds the token that the first one has brought onto the tape. -/
theorem peek (depth : Nat) : Replayable (Tape.peek depth : Reading σ κ (Token κ)) := by
  intro t
  rcases peek_spec depth t with ⟨k, t₁, h, hg, hk⟩ | ⟨e, t₁, h, hg⟩
  · rw [h]
    refine ⟨hg.tokens, fun _ => hg.marks, ?_⟩
    intro _ t' hpre hpos
    have hheld : t'.tokens[t'.position + depth]? = some k := by
      obtain ⟨hlt, rfl⟩ := List.getElem?_eq_some_iff.mp hk
      rw [hpos]
      exact List.prefix_iff_getElem?.mp hpre _ hlt
    rw [peek_of_held hheld]
    show _ = (_, t'.goto t₁.position)
    rw [hg.position, ← hpos]
    rfl
  · rw [h]
    exact ⟨hg.tokens, fun _ => hg.marks, fun h => nomatch h⟩

/-- With the token its kind is found again. -/
theorem peekKind (depth : Nat) : Replayable (Tape.peekKind depth : Reading σ κ κ) :=
  (peek depth).bind fun _ => Replayable.pure _

/-- And the check that compares it. -/
theorem check (k : κ) : Replayable (Tape.check k : Reading σ κ Bool) :=
  (peekKind 0).bind fun _ => Replayable.pure _

/-- A sight shows that token at the same position. -/
theorem sight : Replayable (Tape.sight : Reading σ κ (Sighting κ)) :=
  (peek 0).bind fun k => of_const (f := fun position => .ok (.ofToken position k)) fun _ => rfl

/-- A step goes over a token that is on the tape by then. -/
theorem advance : Replayable (Tape.advance : Reading σ κ Unit) := by
  intro t
  rcases advance_spec t with ⟨t₁, h, hg, hlt⟩ | ⟨e, t₁, h, hg⟩
  · rw [h]
    refine ⟨hg.tokens, fun _ => hg.marks, ?_⟩
    intro _ t' hpre hpos
    have hlt' : t'.position < t'.tokens.length := by
      rw [hpos]
      exact Nat.lt_of_lt_of_le hlt hpre.length_le
    rw [advance_of_held hlt', hpos]
    rfl
  · rw [h]
    exact ⟨hg.tokens, fun _ => hg.marks, fun h => nomatch h⟩

/-- What was expected and found is found again. -/
theorem expect (k : κ) : Replayable (Tape.expect k : Reading σ κ Unit) :=
  (check k).bind fun _ => Replayable.ite advance (sight.bind fun _ => Replayable.halt _)

/-- Alternatives are tried in the same order, with the same mismatches before the one that
    matches. -/
theorem chooseFrom (name : String) {alternatives : List (Reading σ κ Unit)}
    (h : ∀ m ∈ alternatives, Replayable m) (furthest : Option (ParseError κ)) :
    Replayable (Tape.chooseFrom name furthest alternatives) := by
  induction alternatives generalizing furthest with
  | nil => exact sight.bind fun _ => Replayable.halt _
  | cons m rest ih =>
      refine (speculate (h m List.mem_cons_self)).bind ?_
      intro outcome
      cases outcome with
      | none => exact h m List.mem_cons_self
      | some e => exact ih (fun m' hm' => h m' (List.mem_cons_of_mem _ hm')) _

end Replayable

end Tape

open Tape.Replayable in
/-- **What was read once can be read again**, by every lawful expression without bare marks. -/
theorem eval_replayable [TokenStream σ κ] [DecidableEq κ] [TokenKind κ] {d : Discipline κ ν}
    {rules : ν → Expr κ ν} (hrules : d.Governs rules) (fuel : Nat) {e : Expr κ ν}
    (h : Lawful d false e) : Tape.Replayable (Tape.eval rules fuel e : Reading σ κ (Value κ)) := by
  -- on the fuel, by what the discipline allows
  induction fuel generalizing e with
  | zero => exact Tape.Replayable.halt _
  | succ fuel ih =>
      cases h with
      | done => exact Tape.Replayable.pure _
      | peek _ => exact (peek _).bind fun _ => Tape.Replayable.pure _
      | peekKind _ => exact (peekKind _).bind fun _ => Tape.Replayable.pure _
      | check => exact (check _).bind fun _ => Tape.Replayable.pure _
      | expect => exact (expect _).bind fun _ => Tape.Replayable.pure _
      | advance => exact advance.bind fun _ => Tape.Replayable.pure _
      | attempt hb => exact (attempt (ih hb).discard).bind fun _ => Tape.Replayable.pure _
      | choose hb =>
          refine (chooseFrom _ ?_ none).bind fun _ => Tape.Replayable.pure _
          intro m hm
          obtain ⟨e, he, rfl⟩ := List.mem_map.mp hm
          exact (ih (hb e he)).discard
      | memo _ hb => exact (ih hb).discard.bind fun _ => Tape.Replayable.pure _
      | seq ha hb =>
          exact (ih ha).discard.bind fun _ => (ih hb).discard.bind fun _ => Tape.Replayable.pure _
      | cond _ hy hn => exact (peekKind _).bind fun _ => Tape.Replayable.ite (ih hy) (ih hn)
      | loop hb =>
          refine (check _).bind fun _ => Tape.Replayable.ite ?_ (Tape.Replayable.pure _)
          exact (ih hb).discard.bind fun _ => ih (.loop hb)
      | trial hg hy hn =>
          exact (attempt (ih hg).discard).bind fun _ => Tape.Replayable.ite (ih hy) (ih hn)
      | call hq => exact ih (hrules _ _ hq)

/-! ## What a tape knows -/

namespace Tape

/-- The kind of the token that the tape holds at a position. -/
def kindAt? (t : Tape σ κ) (i : Nat) : Option κ := t.tokens[i]?.map Token.kind

/-- A kind that is known stays known on a longer tape. -/
theorem kindAt?_mono {t t' : Tape σ κ} {i : Nat} {k : κ} (hpre : t.tokens <+: t'.tokens)
    (h : t.kindAt? i = some k) : ∃ token, t'.tokens[i]? = some token ∧ token.kind = k := by
  obtain ⟨token, htoken, hkind⟩ := Option.map_eq_some_iff.mp h
  obtain ⟨hlt, rfl⟩ := List.getElem?_eq_some_iff.mp htoken
  exact ⟨_, List.prefix_iff_getElem?.mp hpre _ hlt, hkind⟩

end Tape

section Known

variable [TokenStream σ κ] [DecidableEq κ] [TokenKind κ]

/-- On this tape, and on every longer one, the expression leads from position `a` to position
    `b`. -/
def Tape.Known (rules : ν → Expr κ ν) (t : Tape σ κ) (e : Expr κ ν) (a b : Nat) : Prop :=
  ∃ k v, ∀ t' : Tape σ κ, t.tokens <+: t'.tokens → t'.position = a →
    Tape.eval rules k e t' = (.ok v, t'.goto b)

namespace Tape

/-- What is known on a tape is known on every longer one. -/
theorem Known.mono {rules : ν → Expr κ ν} {t t' : Tape σ κ} {e : Expr κ ν} {a b : Nat}
    (h : t.Known rules e a b) (hpre : t.tokens <+: t'.tokens) : t'.Known rules e a b := by
  obtain ⟨k, v, hkv⟩ := h
  exact ⟨k, v, fun u hu hpos => hkv u (hpre.trans hu) hpos⟩

/-- The expression ends with a mismatch when it is run from position `a` on this tape or on a longer
    one. -/
def Refused (rules : ν → Expr κ ν) (t : Tape σ κ) (e : Expr κ ν) (a : Nat) : Prop :=
  ∃ k q error, error.isMismatch = true ∧ ∀ t' : Tape σ κ, t.tokens <+: t'.tokens →
    t'.position = a → eval rules k e t' = (.error (.failed error), t'.goto q)

namespace Known

variable {rules : ν → Expr κ ν} {t : Tape σ κ} {a b c : Nat}

/-- More fuel does no harm. -/
theorem with_fuel {e : Expr κ ν} (h : t.Known rules e a b) :
    ∃ k v, ∀ n ≥ k, ∀ t' : Tape σ κ, t.tokens <+: t'.tokens → t'.position = a →
      eval rules n e t' = (.ok v, t'.goto b) := by
  obtain ⟨k, v, hkv⟩ := h
  exact ⟨k, v, fun n hn t' hpre hpos => (eval_rising rules e).eq_of_le (hkv t' hpre hpos) rfl hn⟩

/-- An expression leads from one place to one place. -/
theorem unique {e : Expr κ ν} (h : t.Known rules e a b) (h' : t.Known rules e a c) : b = c := by
  obtain ⟨k, v, hkv⟩ := h.with_fuel
  obtain ⟨k', v', hkv'⟩ := h'.with_fuel
  have h₁ := hkv (max k k') (Nat.le_max_left _ _) (t.goto a) List.prefix_rfl rfl
  have h₂ := hkv' (max k k') (Nat.le_max_right _ _) (t.goto a) List.prefix_rfl rfl
  exact congrArg (fun o => o.2.position) (h₁.symm.trans h₂)

/-- A call leads where the rule leads. -/
theorem call {name : ν} (h : t.Known rules (rules name) a b) : t.Known rules (.call name) a b := by
  obtain ⟨k, v, hkv⟩ := h
  exact ⟨k + 1, v, hkv⟩

/-- A memoized rule leads where its body leads, for the tape has no memo table. -/
theorem memo {name : String} {e : Expr κ ν} (h : t.Known rules e a b) :
    t.Known rules (.memo name e) a b := by
  obtain ⟨k, v, hkv⟩ := h
  refine ⟨k + 1, .nothing, fun t' hpre hpos => ?_⟩
  exact Run.bind_of_ok (Run.discard_of_ok (hkv t' hpre hpos))

/-- One stretch behind the other. -/
theorem seq {e e' : Expr κ ν} (h : t.Known rules e a b) (h' : t.Known rules e' b c) :
    t.Known rules (.seq e e') a c := by
  obtain ⟨k, v, hkv⟩ := h.with_fuel
  obtain ⟨k', v', hkv'⟩ := h'.with_fuel
  refine ⟨max k k' + 1, .nothing, fun t' hpre hpos => ?_⟩
  have h₁ := hkv (max k k') (Nat.le_max_left _ _) t' hpre hpos
  have h₂ := hkv' (max k k') (Nat.le_max_right _ _) (t'.goto b) hpre rfl
  rw [show eval rules (max k k' + 1) (.seq e e') t' = _ from
    Run.bind_of_ok (Run.discard_of_ok h₁), Run.bind_of_ok (Run.discard_of_ok h₂)]
  rfl

/-- Nothing to do leads nowhere else. -/
theorem done : t.Known rules .done a a :=
  ⟨1, .nothing, fun t' _ hpos => by rw [← hpos]; rfl⟩

/-- A token of the expected kind is stepped over. -/
theorem expect {k : κ} (h : t.kindAt? a = some k) : t.Known rules (.expect k) a (a + 1) := by
  refine ⟨1, .nothing, fun t' hpre hpos => ?_⟩
  obtain ⟨token, htoken, hkind⟩ := kindAt?_mono hpre h
  rw [← hpos] at htoken
  obtain ⟨hlt, -⟩ := List.getElem?_eq_some_iff.mp htoken
  have hcheck : check k t' = (.ok true, t') := by
    rw [show check k t' = _ from Run.bind_of_ok (Run.bind_of_ok (peek_of_held htoken)), hkind,
      decide_eq_true rfl]
    rfl
  have hexpect : Tape.expect k t' = (.ok (), t'.goto (a + 1)) := by
    rw [show Tape.expect k t' = _ from Run.bind_of_ok hcheck, if_pos rfl, advance_of_held hlt, hpos]
  exact Run.bind_of_ok hexpect

/-- The kind that a held token shows. -/
theorem peekKind_of_held {t' : Tape σ κ} (depth : Nat) {k : κ} (hpre : t.tokens <+: t'.tokens)
    (hpos : t'.position = a) (h : t.kindAt? (a + depth) = some k) :
    peekKind depth t' = (.ok k, t') := by
  obtain ⟨token, htoken, rfl⟩ := kindAt?_mono hpre h
  rw [← hpos] at htoken
  exact Run.bind_of_ok (peek_of_held htoken)

/-- A token of the kind that is asked for leads into the first branch. -/
theorem cond_yes {k : κ} {depth : Nat} {yes no : Expr κ ν} (hk : t.kindAt? (a + depth) = some k)
    (h : t.Known rules yes a b) : t.Known rules (.cond k depth yes no) a b := by
  obtain ⟨n, v, hv⟩ := h
  refine ⟨n + 1, v, fun t' hpre hpos => ?_⟩
  rw [show eval rules (n + 1) (.cond k depth yes no) t' = _ from
    Run.bind_of_ok (peekKind_of_held depth hpre hpos hk), if_pos rfl]
  exact hv t' hpre hpos

/-- A token of another kind leads into the second. -/
theorem cond_no {k k' : κ} {depth : Nat} {yes no : Expr κ ν}
    (hk : t.kindAt? (a + depth) = some k') (hne : k' ≠ k) (h : t.Known rules no a b) :
    t.Known rules (.cond k depth yes no) a b := by
  obtain ⟨n, v, hv⟩ := h
  refine ⟨n + 1, v, fun t' hpre hpos => ?_⟩
  rw [show eval rules (n + 1) (.cond k depth yes no) t' = _ from
    Run.bind_of_ok (peekKind_of_held depth hpre hpos hk), if_neg hne]
  exact hv t' hpre hpos

/-- A loop ends before a token of another kind. -/
theorem loop_stop {k k' : κ} {body : Expr κ ν} (hk : t.kindAt? a = some k') (hne : k' ≠ k) :
    t.Known rules (.loop k body) a a := by
  refine ⟨1, .nothing, fun t' hpre hpos => ?_⟩
  have hkind := peekKind_of_held 0 hpre hpos hk
  rw [show eval rules 1 (.loop k body) t' = _ from Run.bind_of_ok (Run.bind_of_ok hkind),
    decide_eq_false hne, if_neg Bool.false_ne_true, ← hpos]
  rfl

/-- And before a token of its kind it runs its body once more. -/
theorem loop_again {k : κ} {body : Expr κ ν} (hk : t.kindAt? a = some k)
    (h : t.Known rules body a b) (h' : t.Known rules (.loop k body) b c) :
    t.Known rules (.loop k body) a c := by
  obtain ⟨n, v, hv⟩ := h.with_fuel
  obtain ⟨n', v', hv'⟩ := h'.with_fuel
  refine ⟨max n n' + 1, v', fun t' hpre hpos => ?_⟩
  have hkind := peekKind_of_held 0 hpre hpos hk
  have h₁ := hv (max n n') (Nat.le_max_left _ _) t' hpre hpos
  have h₂ := hv' (max n n') (Nat.le_max_right _ _) (t'.goto b) hpre rfl
  rw [show eval rules (max n n' + 1) (.loop k body) t' = _ from
    Run.bind_of_ok (Run.bind_of_ok hkind), decide_eq_true rfl, if_pos rfl,
    Run.bind_of_ok (Run.discard_of_ok h₁)]
  exact h₂

/-- A choice whose first alternative leads somewhere leads there. -/
theorem choose_first {name : String} {e : Expr κ ν} {es : List (Expr κ ν)}
    (h : t.Known rules e a b) : t.Known rules (.choose name (e :: es)) a b := by
  obtain ⟨n, v, hv⟩ := h
  refine ⟨n + 1, .nothing, fun t' hpre hpos => ?_⟩
  have hspec : Tape.speculate (discard (eval rules n e)) t' = (.ok none, t') :=
    speculate_of_ok (u := t'.marked.goto b) rfl (Run.discard_of_ok (hv t'.marked hpre hpos))
  have hchoose : chooseFrom name none ((e :: es).map fun e => discard (eval rules n e)) t'
      = (.ok (), t'.goto b) :=
    (Run.bind_of_ok hspec).trans (Run.discard_of_ok (hv t' hpre hpos))
  exact Run.bind_of_ok hchoose

/-- So does one whose first alternative is refused and whose second leads there. -/
theorem choose_second {name : String} {e e' : Expr κ ν} {es : List (Expr κ ν)}
    (h : t.Refused rules e a) (h' : t.Known rules e' a b) :
    t.Known rules (.choose name (e :: e' :: es)) a b := by
  obtain ⟨n, q, error, herror, hn⟩ := h
  obtain ⟨n', v, hv⟩ := h'.with_fuel
  have hmax := fun t' hpre hpos =>
    (eval_rising rules e).eq_of_le (hn t' hpre hpos) rfl (Nat.le_max_left n n')
  -- both alternatives are run with the larger fuel
  refine ⟨max n n' + 1, .nothing, fun t' hpre hpos => ?_⟩
  have hspec : Tape.speculate (discard (eval rules (max n n') e)) t' = (.ok (some error), t') := by
    rw [speculate_of_failed (u := t'.marked.goto q) rfl
      (Run.discard_of_error (hmax t'.marked hpre hpos)), if_pos herror]
    rfl
  have hv' := hv (max n n') (Nat.le_max_right _ _)
  have hspec' : Tape.speculate (discard (eval rules (max n n') e')) t' = (.ok none, t') :=
    speculate_of_ok (u := t'.marked.goto b) rfl (Run.discard_of_ok (hv' t'.marked hpre hpos))
  have hchoose : chooseFrom name none
      ((e :: e' :: es).map fun e => discard (eval rules (max n n') e)) t' = (.ok (), t'.goto b) :=
    (Run.bind_of_ok hspec).trans
      ((Run.bind_of_ok hspec').trans (Run.discard_of_ok (hv' t' hpre hpos)))
  exact Run.bind_of_ok hchoose

/-- What leads to a token of another kind than the one required is refused. -/
theorem refused_expect {e : Expr κ ν} {k k' : κ} (h : t.Known rules e a b)
    (hk : t.kindAt? b = some k') (hne : k' ≠ k) : t.Refused rules (.seq e (.expect k)) a := by
  obtain ⟨n, v, hv⟩ := h.with_fuel
  obtain ⟨token, htoken, hkind⟩ := Option.map_eq_some_iff.mp hk
  obtain ⟨hlt, -⟩ := List.getElem?_eq_some_iff.mp htoken
  refine ⟨n + 2, b, .mismatch k (.ofToken b token), rfl, fun t' hpre hpos => ?_⟩
  have h₁ := hv (n + 1) (Nat.le_succ n) t' hpre hpos
  have hheld : (t'.goto b).tokens[(t'.goto b).position + 0]? = some token := by
    rw [← htoken, List.getElem?_eq_getElem hlt]
    exact List.prefix_iff_getElem?.mp hpre b hlt
  have hcheck : check k (t'.goto b) = (.ok false, t'.goto b) := by
    rw [show check k (t'.goto b) = _ from Run.bind_of_ok (Run.bind_of_ok (peek_of_held hheld)),
      hkind, decide_eq_false hne]
    rfl
  have hsight : sight (t'.goto b) = (.ok (.ofToken b token), t'.goto b) :=
    Run.bind_of_ok (peek_of_held hheld)
  have hexpect : Tape.expect k (t'.goto b)
      = (.error (.failed (.mismatch k (.ofToken b token))), t'.goto b) := by
    rw [show Tape.expect k (t'.goto b) = _ from Run.bind_of_ok hcheck,
      if_neg Bool.false_ne_true, Run.bind_of_ok hsight]
    rfl
  rw [show eval rules (n + 2) (.seq e (.expect k)) t' = _ from
    Run.bind_of_ok (Run.discard_of_ok h₁)]
  exact Run.bind_of_error (Run.discard_of_error (Run.bind_of_error hexpect))

end Known

end Tape

end Known

end Packrat
