import Packrat.Proofs.Layout

/-! # Orderly computations

    A computation is orderly when it leads from sound parsers to sound parsers,
    breaks no rule of use and, where bare marks are not allowed, only goes forward.
    Orderly computations are closed under sequence, speculation, choice and
    memoization; one induction on the fuel then gives the property for every lawful
    expression. -/

namespace Packrat

variable {σ κ ν α β : Type}

/-- The only fault is an index that leaves the 64-bit range, and it needs a depth that large. -/
def Harmless (d : Discipline κ ν) (r : Except (Halt (ParseError κ)) α) : Prop :=
  ∀ cause, r = .error (.fault cause) → cause = .lookaheadOverflow ∧ d.Deep

/-- The outcome `o` of a computation on `p` is in order: the parser is sound, no rule of use was
    broken and, unless bare marks are allowed, the parse went forward. -/
structure Keeps (d : Discipline κ ν) (bare : Bool) (p : Parser σ κ)
    (o : Except (Halt (ParseError κ)) α × Parser σ κ) : Prop where
  sound : o.2.Sound
  harmless : Harmless d o.1
  forward : bare = false → isSettled o.1 = true → p.Forward o.2

/-- The computation ends in order whenever it starts from a sound parser. -/
def Orderly (d : Discipline κ ν) (bare : Bool) (m : Parsing σ κ α) : Prop :=
  ∀ p, p.Sound → Keeps d bare p (m p)

namespace Orderly

open Packrat.Parser

variable {d : Discipline κ ν} {bare : Bool}

/-- A value is no fault. -/
theorem harmless_ok (a : α) : Harmless d (.ok a) := by
  intro cause h
  exact nomatch h

/-- A complaint is no fault. -/
theorem harmless_failed (e : ParseError κ) :
    Harmless d (.error (.failed e) : Except (Halt (ParseError κ)) α) := by
  intro cause h
  exact nomatch h

/-- A value after a forward move. -/
theorem keeps_ok {p q : Parser σ κ} {a : α} (hs : q.Sound) (hf : bare = false → p.Forward q) :
    Keeps d bare p (.ok a, q) :=
  ⟨hs, harmless_ok a, fun hb _ => hf hb⟩

/-- A complaint after a forward move. -/
theorem keeps_failed {p q : Parser σ κ} {e : ParseError κ} (hs : q.Sound)
    (hf : bare = false → p.Forward q) :
    Keeps d bare p ((.error (.failed e), q) : Except (Halt (ParseError κ)) α × Parser σ κ) :=
  ⟨hs, harmless_failed e, fun hb _ => hf hb⟩

/-- What an orderly computation leaves behind is sound, however it ended. -/
theorem sound_of_eq {m : Parsing σ κ α} {p q : Parser σ κ}
    {r : Except (Halt (ParseError κ)) α} (h : Orderly d true m) (hp : p.Sound)
    (heq : m p = (r, q)) : q.Sound := by
  have hs := (h p hp).sound
  rw [heq] at hs
  exact hs

/-- What goes forward is in order also where it need not. -/
theorem loosen {m : Parsing σ κ α} (h : Orderly d false m) : Orderly d bare m :=
  fun p hp => ⟨(h p hp).sound, (h p hp).harmless, fun _ => (h p hp).forward rfl⟩

/-- An answer that takes no step is orderly in any case. -/
theorem pure (a : α) : Orderly d bare (Pure.pure a : Parsing σ κ α) :=
  fun p hp => keeps_ok hp (fun _ => Forward.refl p)

/-- So is a complaint. -/
theorem fail (e : ParseError κ) : Orderly d bare (Run.fail e : Parsing σ κ α) :=
  fun p hp => keeps_failed hp (fun _ => Forward.refl p)

/-- And so is running out of fuel. -/
theorem outOfFuel : Orderly d bare (Run.halt .outOfFuel : Parsing σ κ α) :=
  fun _ hp => ⟨hp, (fun _ h => nomatch h), (fun _ h => nomatch h)⟩

/-- Reading leaves the parser as it is. -/
theorem read (f : Parser σ κ → α) : Orderly d bare (Run.read f : Parsing σ κ α) :=
  fun p hp => keeps_ok hp (fun _ => Forward.refl p)

/-- One orderly computation behind another is orderly.  Where the mark stack may be bared, the
    second one starts from what the first has left. -/
theorem bind {m : Parsing σ κ α} {f : α → Parsing σ κ β} (hm : Orderly d bare m)
    (hf : ∀ a, Orderly d bare (f a)) : Orderly d bare (m >>= f) := by
  intro p hp
  have h₁ := hm p hp
  rcases hr : m p with ⟨r, q⟩
  rw [hr] at h₁
  cases r with
  | ok a =>
      have h₂ := hf a q h₁.sound
      rw [Run.bind_of_ok hr]
      refine ⟨h₂.sound, h₂.harmless, ?_⟩
      intro hb hset
      exact (h₁.forward hb rfl).trans (h₂.forward hb hset)
  | error e =>
      rw [Run.bind_of_error hr]
      refine ⟨h₁.sound, ?_, ?_⟩
      · intro cause hcause
        have heq : e = .fault cause := Except.error.inj hcause
        exact h₁.harmless cause (by rw [heq])
      · intro hb hset
        refine h₁.forward hb ?_
        cases e with
        | failed _ => rfl
        | fault _ => exact nomatch hset
        | outOfFuel => exact nomatch hset

/-- It does not matter whether the answer is kept. -/
theorem discard {m : Parsing σ κ α} (h : Orderly d bare m) :
    Orderly d bare (Functor.discard m : Parsing σ κ PUnit) :=
  h.bind fun _ => Orderly.pure PUnit.unit

/-- Both branches have to be orderly, for either may be taken. -/
theorem ite {c : Prop} [Decidable c] {m m' : Parsing σ κ α} (h : Orderly d bare m)
    (h' : Orderly d bare m') : Orderly d bare (if c then m else m') := by
  by_cases hc : c
  · rw [if_pos hc]
    exact h
  · rw [if_neg hc]
    exact h'

/-! ### Marks -/

/-- A mark is put on the stack, so only a computation that need not restore it may do so. -/
theorem mark : Orderly d true (Parser.mark : Parsing σ κ Nat) :=
  fun _ hp => keeps_ok hp.marked (fun h => nomatch h)

/-- A release takes a mark off, if there is one, and goes back to it on demand. -/
theorem release (restore : Bool) : Orderly d true (Parser.release restore : Parsing σ κ Unit) := by
  intro p hp
  cases hc : p.marks.cursors with
  | nil =>
      rw [release_of_nil hc]
      exact keeps_ok hp (fun h => nomatch h)
  | cons c cs =>
      rw [release_of_cons hp hc]
      refine keeps_ok ?_ (fun h => nomatch h)
      have hsorted := hp.sorted
      rw [hc] at hsorted
      -- the newest mark is the largest one, so the cursor stays above the others
      obtain ⟨hle, htail⟩ := List.pairwise_cons.mp hsorted
      have hmarks : ∀ c' ∈ cs, c' ≤ p.window.cursor := by
        intro c' hc'
        refine hp.marks_le c' ?_
        rw [hc]
        exact List.mem_cons_of_mem _ hc'
      cases restore with
      | false => exact ⟨htail, hmarks, hp.cursor_le, hp.spans⟩
      | true =>
          refine ⟨htail, hle, ?_, hp.spans⟩
          refine Nat.le_trans (hp.marks_le c ?_) hp.cursor_le
          rw [hc]
          exact List.mem_cons_self

/-! ### Speculation -/

/-- A speculation comes back to where it started. -/
theorem speculate {rule : Parsing σ κ Unit} (h : Orderly d false rule) :
    Orderly d bare (Parser.speculate rule) := by
  intro p hp
  have hk := h p.marked hp.marked
  rcases hr : rule p.marked with ⟨r, q⟩
  rw [hr] at hk
  match r, hr, hk with
  | .ok (), hr, hk =>
      -- the rule went forward, so the mark that is released is the one set here
      have hf := hk.forward rfl rfl
      rw [speculate_of_ok hp hf hr]
      exact keeps_ok (hp.rewound hk.sound hf) (fun _ => hf.rewound)
  | .error (.failed e), hr, hk =>
      have hf := hk.forward rfl rfl
      rw [speculate_of_failed hp hf hr]
      by_cases he : e.isMismatch = true
      · rw [if_pos he]
        exact keeps_ok (hp.rewound hk.sound hf) (fun _ => hf.rewound)
      · rw [if_neg he]
        exact keeps_failed (hp.rewound hk.sound hf) (fun _ => hf.rewound)
  | .error (.fault c), hr, hk =>
      rw [speculate_of_fault hr]
      refine ⟨hk.sound, ?_, (fun _ hset => nomatch hset)⟩
      intro cause hcause
      obtain rfl : c = cause := by simpa using hcause
      exact hk.harmless c rfl
  | .error .outOfFuel, hr, hk =>
      rw [speculate_of_outOfFuel hr]
      exact ⟨hk.sound, (fun _ hcause => nomatch hcause), (fun _ hset => nomatch hset)⟩

/-- An attempt ends with the stack as it was, whatever the rule does to the marks above it. -/
theorem attempt {rule : Parsing σ κ Unit} (h : Orderly d false rule) :
    Orderly d bare (Parser.attempt rule) :=
  (speculate h).bind fun _ => Orderly.pure _

/-! ### Memoization -/

/-- A memoized body runs once or not at all, and a jump lands inside the window: the entry that was
    found is a good one. -/
theorem memoize (rule : String) {body : Parsing σ κ Unit} (h : Orderly d false body) :
    Orderly d bare (Parser.memoize rule body) := by
  intro p hp
  cases hon : p.options.memoize with
  | false =>
      rw [memoize_of_off hon]
      exact h.loosen p hp
  | true =>
      cases hfind : p.memo.find? rule p.absolute with
      | some span =>
          -- the span starts at the cursor, so the jump goes forward, beyond all marks
          rw [memoize_of_hit hp hon hfind]
          obtain ⟨hpos, hle, hstop⟩ := hp.spans rule p.absolute span (Memo.holds_of_find? hfind)
          have habs : p.absolute = p.window.retired + p.window.cursor := rfl
          have hfwd : p.window.cursor ≤ span.stop := by omega
          have hmarks : ∀ c ∈ p.marks.cursors, c ≤ span.stop :=
            fun c hc => Nat.le_trans (hp.marks_le c hc) hfwd
          exact keeps_ok ((hp.asked rule).moveTo hmarks hstop)
            (fun _ => ⟨rfl, Or.inl ⟨rfl, hfwd, Nat.le_refl _⟩⟩)
      | none =>
          rw [memoize_of_miss hon hfind]
          have hk := h (p.asked rule) (hp.asked rule)
          rcases hr : body (p.asked rule) with ⟨r, q⟩
          rw [hr] at hk
          cases r with
          | ok u =>
              have hf := hk.forward rfl rfl
              rw [runAndRecord_of_ok hf hr]
              exact keeps_ok (hk.sound.recorded hf rule)
                (fun _ => (Forward.asked p rule).trans (hf.recorded rule))
          | error e =>
              rw [runAndRecord_of_error hr]
              exact ⟨hk.sound, hk.harmless,
                fun _ hset => (Forward.asked p rule).trans (hk.forward rfl hset)⟩

/-! ### Tokens -/

variable [TokenStream σ κ] [DecidableEq κ] [TokenKind κ]

/-- Looking within the depth that is allowed finds a token, or a complaint of the lexer. -/
theorem peek {depth : Nat} (hd : d.depth depth) :
    Orderly d bare (Parser.peek depth : Parsing σ κ (Token κ)) := by
  intro p hp
  rcases Window.peek_spec depth p.window with
    ⟨t, w, h, hg, -⟩ | ⟨e, w, h, hg⟩ | ⟨ho, h⟩
  · rw [show Parser.peek depth p = _ from onWindow_ok h]
    exact keeps_ok (hp.grows hg) (fun _ => Forward.grows hg)
  · rw [show Parser.peek depth p = _ from onWindow_error h]
    exact keeps_failed (hp.grows hg) (fun _ => Forward.grows hg)
  · rw [show Parser.peek depth p = _ from onWindow_error h]
    refine ⟨hp, ?_, (fun _ hset => nomatch hset)⟩
    intro cause hcause
    obtain rfl : Fault.lookaheadOverflow = cause := by simpa [Halt.map] using hcause
    exact ⟨rfl, depth, hd, Window.le_of_overflowsAt ho⟩

/-- The kind of a token is had by looking at it. -/
theorem peekKind {depth : Nat} (hd : d.depth depth) :
    Orderly d bare (Parser.peekKind depth : Parsing σ κ κ) :=
  (peek hd).bind fun _ => Orderly.pure _

/-- The current token can be looked at without a fault. -/
theorem peek_zero : Orderly d bare (Parser.peek 0 : Parsing σ κ (Token κ)) := by
  intro p hp
  have hk : Keeps (⟨d.quiet, d.memo, (· = 0)⟩ : Discipline κ ν) bare p (Parser.peek 0 p) :=
    peek rfl p hp
  refine ⟨hk.sound, ?_, hk.forward⟩
  intro cause hcause
  obtain ⟨-, depth, rfl, hle⟩ := hk.harmless cause hcause
  exact absurd hle (by decide)

/-- A check looks at the current token. -/
theorem check (k : κ) : Orderly d bare (Parser.check k : Parsing σ κ Bool) :=
  (peek_zero.bind fun _ => Orderly.pure _).bind fun _ => Orderly.pure _

/-- And so does the sight of it. -/
theorem sight : Orderly d bare (Parser.sight : Parsing σ κ (Sighting κ)) :=
  peek_zero.bind fun _ => Orderly.read _

/-- Stepping past a token may let the window go, when nothing needs it any more. -/
theorem advance : Orderly d bare (Parser.advance : Parsing σ κ Unit) := by
  intro p hp
  rcases Parser.advance_spec p with ⟨w, h, hg, hs⟩ | ⟨e, w, h, hg⟩
  · rw [h]
    exact keeps_ok (hp.stepped hg hs).tidied (fun _ => Forward.stepped hg)
  · rw [h]
    exact keeps_failed (hp.grows hg) (fun _ => Forward.grows hg)

/-- An expected kind is checked for, and then stepped over or complained about. -/
theorem expect (k : κ) : Orderly d bare (Parser.expect k : Parsing σ κ Unit) :=
  (check k).bind fun _ => Orderly.ite advance (sight.bind fun _ => Orderly.fail _)

/-- Each alternative is speculated on from the same place, and one is run for good. -/
theorem chooseFrom (name : String) {alternatives : List (Parsing σ κ Unit)}
    (h : ∀ m ∈ alternatives, Orderly d false m) (furthest : Option (ParseError κ)) :
    Orderly d bare (Parser.chooseFrom name furthest alternatives) := by
  induction alternatives generalizing furthest with
  | nil => exact sight.bind fun _ => Orderly.fail _
  | cons m rest ih =>
      refine (speculate (h m List.mem_cons_self)).bind ?_
      intro outcome
      cases outcome with
      | none => exact (h m List.mem_cons_self).loosen
      | some e => exact ih (fun m' hm' => h m' (List.mem_cons_of_mem _ hm')) _

end Orderly

/-! ## Lawful expressions are orderly -/

open Orderly in
/-- **Every lawful expression is orderly**, whatever the names refer to as long as that is lawful,
    too. -/
theorem eval_orderly [TokenStream σ κ] [DecidableEq κ] [TokenKind κ] {d : Discipline κ ν}
    {rules : ν → Expr κ ν} (hrules : d.Governs rules) (fuel : Nat) {bare : Bool} {e : Expr κ ν}
    (h : Lawful d bare e) : Orderly d bare (Expr.eval rules fuel e : Parsing σ κ (Value κ)) := by
  induction fuel generalizing bare e with
  | zero => exact outOfFuel
  | succ fuel ih =>
      -- on the fuel, as a name refers to an expression of any size
      cases h with
      | done => exact Orderly.pure _
      | peek hd => exact (peek hd).bind fun _ => Orderly.pure _
      | peekKind hd => exact (peekKind hd).bind fun _ => Orderly.pure _
      | check => exact (check _).bind fun _ => Orderly.pure _
      | expect => exact (expect _).bind fun _ => Orderly.pure _
      | advance => exact advance.bind fun _ => Orderly.pure _
      | mark => exact mark.bind fun _ => Orderly.pure _
      | release => exact (release _).bind fun _ => Orderly.pure _
      | attempt hb => exact (attempt (ih hb).discard).bind fun _ => Orderly.pure _
      | choose hb =>
          refine (chooseFrom _ ?_ none).bind fun _ => Orderly.pure _
          intro m hm
          obtain ⟨e, he, rfl⟩ := List.mem_map.mp hm
          exact (ih (hb e he)).discard
      | memo _ hb => exact (memoize _ (ih hb).discard).bind fun _ => Orderly.pure _
      | seq ha hb =>
          exact (ih ha).discard.bind fun _ => (ih hb).discard.bind fun _ => Orderly.pure _
      | cond hd hy hn => exact (peekKind hd).bind fun _ => Orderly.ite (ih hy) (ih hn)
      | loop hb =>
          refine (check _).bind fun _ => Orderly.ite ?_ (Orderly.pure _)
          exact (ih hb).discard.bind fun _ => ih (.loop hb)
      | trial hg hy hn =>
          exact (attempt (ih hg).discard).bind fun _ => Orderly.ite (ih hy) (ih hn)
      | call hq => exact ih (hrules _ _ hq)

end Packrat
