import Packrat.Proofs.Fidelity
import Packrat.Proofs.LexerRuns
import Packrat.Proofs.Transparency

/-! # How many tokens a window holds

    Tokens enter a window when someone looks at them, and they leave it when its
    owner lets them go.  What can be said of their number comes down to what one
    fill does: it lets in what is missing, and no more, and only if it gets all of
    it does it count what is held then (`Window.Fills`).

    So the peak of a window is the largest number held behind a fill that succeeded.
    A fill that fails in the middle keeps the tokens it got, and these may be the
    most that were ever held (`Window.peak_misses_failed_fill`).

    A parser without marks lets its tokens go when its cursor runs past the last of
    them, and not before.  It never holds more tokens ahead than it is asked to look
    at (`held_by_lookahead`), but whoever looks beyond the current token before each
    step never is at the end of what is held, and then nothing is let go
    (`Parser.size_lookRounds`). -/

namespace Packrat

variable {σ κ ν α : Type}

/-! ## What a fill does -/

namespace Window

/-- How a fill up to `goal` tokens ends, and the window that it leaves. -/
inductive Fills (goal : Nat) (w : Window σ κ) :
    Except (Halt LexError) α → Window σ κ → Prop where
  | full {a : α} {w' : Window σ κ} : w.Grows w' → w'.size = max w.size goal →
      w'.peak = max w.peak w'.size → Fills goal w (.ok a) w'
  | short {e : LexError} {w' : Window σ κ} : w.Grows w' → w'.size ≤ max w.size goal →
      w'.peak = w.peak → Fills goal w (.error (.failed e)) w'

/-- A fill only adds tokens. -/
theorem Fills.grows {goal : Nat} {w w' : Window σ κ} {r : Except (Halt LexError) α}
    (h : Fills goal w r w') : w.Grows w' := by
  cases h with
  | full hgrows _ _ => exact hgrows
  | short hgrows _ _ => exact hgrows

/-- And it adds no more than to reach its goal. -/
theorem Fills.size_le {goal : Nat} {w w' : Window σ κ} {r : Except (Halt LexError) α}
    (h : Fills goal w r w') : w'.size ≤ max w.size goal := by
  cases h with
  | full _ hsize _ => exact Nat.le_of_eq hsize
  | short _ hsize _ => exact hsize

variable [TokenStream σ κ] [DecidableEq κ] [TokenKind κ]

/-- A pull lets in one token at most and counts nothing. -/
theorem pull_counts (w : Window σ κ) :
    (pull w).2.size ≤ w.size + 1 ∧ (pull w).2.peak = w.peak := by
  rw [pull]
  split
  · exact ⟨Nat.le_of_eq (Array.size_push _), rfl⟩
  · split
    · exact ⟨Nat.le_succ _, rfl⟩
    · exact ⟨Nat.le_of_eq (Array.size_push _), rfl⟩

/-- Each pull lets in one token at most.  The peak is noted by fills only. -/
theorem pullMany_counts (count : Nat) (w : Window σ κ) :
    (pullMany count w).2.size ≤ w.size + count ∧ (pullMany count w).2.peak = w.peak := by
  induction count generalizing w with
  | zero => exact ⟨Nat.le_refl _, rfl⟩
  | succ count ih =>
      obtain ⟨hsize, hpeak⟩ := pull_counts w
      rcases hpull : pull w with ⟨e | _, w₁⟩
      · rw [hpull] at hsize hpeak
        rw [pullMany, Run.bind_of_error hpull]
        exact ⟨Nat.le_trans hsize (by omega), hpeak⟩
      · rw [hpull] at hsize hpeak
        obtain ⟨hsize', hpeak'⟩ := ih w₁
        have hone : w₁.size ≤ w.size + 1 := hsize
        rw [pullMany, Run.bind_of_ok hpull]
        exact ⟨by omega, hpeak'.trans hpeak⟩

/-- A fill that succeeds reaches its goal and notes the size; one that fails keeps what it has got,
    and the old peak. -/
theorem fill_fills (count : Nat) (w : Window σ κ) :
    Fills (w.cursor + count) w (fill count w).1 (fill count w).2 := by
  have hread : fill count w = (do
      pullMany (w.cursor + count - w.size)
      Run.update fun w => { w with peak := max w.peak w.size } :
        Run (Window σ κ) LexError Unit) w :=
    Run.bind_of_ok rfl
  obtain ⟨hle, hpeak⟩ := pullMany_counts (w.cursor + count - w.size) w
  rw [hread]
  rcases pullMany_spec (w.cursor + count - w.size) w with ⟨w₁, hp, hg, hs⟩ | ⟨e, w₁, hp, hg⟩
  · rw [hp] at hpeak
    rw [Run.bind_of_ok hp]
    refine .full ⟨hg.cursor, hg.retired, hg.tokens⟩ ?_ ?_
    · show w₁.size = _
      omega
    · show max w₁.peak w₁.size = max w.peak w₁.size
      rw [hpeak]
  · rw [hp] at hle hpeak
    rw [Run.bind_of_error hp]
    exact .short hg (by omega) hpeak

/-- A filled window holds the token that is looked at. -/
theorem peek_of_fill {depth : Nat} {w w' : Window σ κ} (hover : w.overflowsAt depth = false)
    (h : fill (depth + 1) w = (.ok (), w')) : ∃ t, peek depth w = (.ok t, w') := by
  rcases fill_spec (depth + 1) w with ⟨w₁, hfill, hgrows, hheld⟩ | ⟨e, w₁, hfill, -⟩
  · obtain rfl : w₁ = w' := congrArg Prod.snd (hfill.symm.trans h)
    have hlt : w₁.cursor + depth < w₁.tokens.size := by
      rw [hgrows.cursor]
      exact hheld
    refine ⟨w₁.tokens[w₁.cursor + depth], ?_⟩
    rw [peek, Run.read_bind, hover, if_neg Bool.false_ne_true, Run.bind_of_ok h, Run.read_bind,
      Array.getElem?_eq_getElem hlt]
    rfl
  · cases congrArg Prod.fst (hfill.symm.trans h)

/-- A look is a fill, unless its depth is refused. -/
theorem peek_fills (depth : Nat) (w : Window σ κ) :
    Fills (w.cursor + (depth + 1)) w (peek depth w).1 (peek depth w).2 ∨
      peek depth w = (.error (.fault .lookaheadOverflow), w) := by
  cases hover : w.overflowsAt depth with
  | true => exact Or.inr (peek_of_overflows hover)
  | false =>
      have hfills := fill_fills (depth + 1) w
      rcases hfill : fill (depth + 1) w with ⟨e | _, w₁⟩
      · rw [hfill] at hfills
        rw [peek, Run.read_bind, hover, if_neg Bool.false_ne_true, Run.bind_of_error hfill]
        cases hfills with
        | short hg hsize hpeak => exact Or.inl (.short hg hsize hpeak)
      · rw [hfill] at hfills
        obtain ⟨t, hpeek⟩ := peek_of_fill hover hfill
        rw [hpeek]
        cases hfills with
        | full hg hsize hpeak => exact Or.inl (.full hg hsize hpeak)

/-- So is a step, up to the move behind it. -/
theorem advance_fills (w : Window σ κ) :
    (∃ w₁, advance w = (.ok (), { w₁ with cursor := w.cursor + 1 }) ∧
        Fills (w.cursor + 1) w (.ok ()) w₁) ∨
      ∃ e w₁, advance w = (.error (.failed e), w₁) ∧
        Fills (w.cursor + 1) w (.error (.failed e) : Except _ Unit) w₁ := by
  have hfills := fill_fills 1 w
  rcases fill_spec 1 w with ⟨w₁, hfill, hgrows, -⟩ | ⟨e, w₁, hfill, -⟩
  · rw [hfill] at hfills
    refine Or.inl ⟨w₁, ?_, hfills⟩
    rw [advance, Run.bind_of_ok hfill, ← hgrows.cursor]
    rfl
  · rw [hfill] at hfills
    exact Or.inr ⟨e, w₁, Run.bind_of_error hfill, hfills⟩

/-! ## The peak of a run -/

/-- The operation lets tokens in. -/
def Op.letsIn : Op → Bool
  | .peek _ | .advance => true
  | .truncate | .seek _ => false

/-- An operation that came to an answer, and the number of tokens held behind it. -/
structure Step where
  op : Op
  succeeded : Bool
  size : Nat
deriving DecidableEq, Repr

/-- The steps, the newest first, lead from a new window on `source` to the window.  None of them has
    broken a rule of use. -/
inductive Ran (source : σ) : List Step → Window σ κ → Prop where
  | start : Ran source [] (.new source)
  | step {steps : List Step} {w : Window σ κ} (op : Op) : Ran source steps w →
      isSettled (op.run w).1 = true →
      Ran source (⟨op, (op.run w).1.isOk, (op.run w).2.size⟩ :: steps) (op.run w).2

/-- The largest of some numbers. -/
def most (sizes : List Nat) : Nat := sizes.foldr max 0

/-- Of no sizes the largest is zero. -/
@[simp] theorem most_nil : most [] = 0 := rfl

@[simp] theorem most_cons (n : Nat) (sizes : List Nat) :
    most (n :: sizes) = max n (most sizes) := rfl

/-- What an operation does to the peak and to the number of tokens held. -/
inductive Tallies (op : Op) (w : Window σ κ) :
    Except (Halt LexError) (Option (Token κ)) → Window σ κ → Prop where
  | counted {a w'} : op.letsIn = true → w'.peak = max w.peak w'.size → Tallies op w (.ok a) w'
  | passed {a w'} : op.letsIn = false → w'.peak = w.peak → w'.size ≤ w.size →
      Tallies op w (.ok a) w'
  | missed {e w'} : w'.peak = w.peak → Tallies op w (.error (.failed e)) w'

/-- An operation that settles has told its reply the truth about the size. -/
theorem Op.run_tallies {op : Op} {w : Window σ κ} (h : isSettled (op.run w).1 = true) :
    Tallies op w (op.run w).1 (op.run w).2 := by
  cases op with
  | peek depth =>
      have hfills := peek_fills depth w
      rcases hpeek : Window.peek depth w with ⟨r, w'⟩
      rw [hpeek] at hfills
      rcases hfills with hfills | hover
      · cases hfills with
        | full _ _ hp =>
            have hrun : (Op.peek depth).run w = _ := Run.bind_of_ok hpeek
            rw [hrun]
            exact .counted rfl hp
        | short _ _ hp =>
            have hrun : (Op.peek depth).run w = _ := Run.bind_of_error hpeek
            rw [hrun]
            exact .missed hp
      · have hrun : (Op.peek depth).run w = _ := Run.bind_of_error (hpeek.trans hover)
        rw [hrun] at h
        exact nomatch h
  | advance =>
      rcases advance_fills w with ⟨w₁, hadvance, hfills⟩ | ⟨e, w₁, hadvance, hfills⟩
      · have hrun : Op.advance.run w = _ := Run.bind_of_ok hadvance
        rw [hrun]
        cases hfills with
        | full _ _ hpeak => exact .counted rfl hpeak
      · have hrun : Op.advance.run w = _ := Run.bind_of_error hadvance
        rw [hrun]
        cases hfills with
        | short _ _ hpeak => exact .missed hpeak
  | truncate =>
      refine .passed rfl rfl ?_
      show w.truncate.size ≤ w.size
      rw [size_truncate]
      exact Nat.sub_le _ _
  | seek index =>
      rcases Nat.lt_or_ge w.size index with hlt | hge
      · have hrun : (Op.seek index).run w = _ := Run.bind_of_error (seek_of_lt hlt)
        rw [hrun] at h
        exact nomatch h
      · have hrun : (Op.seek index).run w = _ := Run.bind_of_ok (seek_of_le hge)
        rw [hrun]
        exact .passed rfl rfl (Nat.le_refl _)

namespace Ran

variable {source : σ} {steps : List Step} {w : Window σ κ}

/-- What is held now was held behind the newest step. -/
theorem size_le (h : Ran source steps w) : w.size ≤ most (steps.map Step.size) := by
  cases h with
  | start => exact Nat.le_refl _
  | step op _ _ => exact Nat.le_max_left _ _

/-- After a run the peak is the largest size behind a successful fill. -/
theorem peak_eq (h : Ran source steps w) :
    w.peak = most ((steps.filter fun s => s.op.letsIn && s.succeeded).map Step.size) := by
  induction h with
  | start => rfl
  | @step steps w op _ hsettled ih =>
      have htallies := Op.run_tallies hsettled
      rcases hrun : op.run w with ⟨r, w'⟩
      rw [hrun] at htallies
      cases htallies with
      | counted hin hpeak =>
          rw [List.filter_cons_of_pos (by simp [hin, Except.isOk, Except.toBool])]
          rw [List.map_cons, most_cons, ← ih, Nat.max_comm]
          exact hpeak
      | passed hin hpeak _ =>
          rw [List.filter_cons_of_neg (by simp [hin]), ← ih]
          exact hpeak
      | missed hpeak =>
          rw [List.filter_cons_of_neg (by simp [Except.isOk, Except.toBool]), ← ih]
          exact hpeak

/-- Only the failed steps can have held more than the peak. -/
theorem most_eq (h : Ran source steps w) :
    most (steps.map Step.size) =
      max w.peak (most ((steps.filter fun s => !s.succeeded).map Step.size)) := by
  induction h with
  | start => rfl
  | @step steps w op hran hsettled ih =>
      have htallies := Op.run_tallies hsettled
      have hsize := hran.size_le
      rcases hrun : op.run w with ⟨r, w'⟩
      rw [hrun] at htallies
      cases htallies with
      | counted _ hpeak =>
          have hpeak' : w'.peak = max w.peak w'.size := hpeak
          rw [List.filter_cons_of_neg (by simp [Except.isOk, Except.toBool]), List.map_cons,
            most_cons, hpeak', ih]
          dsimp only
          omega
      | passed _ hpeak hle =>
          have hpeak' : w'.peak = w.peak := hpeak
          have hle' : w'.size ≤ w.size := hle
          rw [List.filter_cons_of_neg (by simp [Except.isOk, Except.toBool]), List.map_cons,
            most_cons, hpeak', ← ih]
          exact Nat.max_eq_right (Nat.le_trans hle' hsize)
      | missed hpeak =>
          have hpeak' : w'.peak = w.peak := hpeak
          rw [List.filter_cons_of_pos (by simp [Except.isOk, Except.toBool]), List.map_cons,
            List.map_cons, most_cons, most_cons, hpeak', ih]
          dsimp only
          omega

end Ran

/-- **The peak counts the fills that succeeded**: after any run of operations it is the largest
    number of tokens held behind a look or a step that succeeded.  The most that was ever held is
    the larger one of the peak and of what was held behind the operations that failed; without such
    operations it is the peak. -/
theorem peak_of_successful_fills {source : σ} {steps : List Step} {w : Window σ κ}
    (h : Ran source steps w) :
    w.peak = most ((steps.filter fun s => s.op.letsIn && s.succeeded).map Step.size) ∧
      most (steps.map Step.size) =
        max w.peak (most ((steps.filter fun s => !s.succeeded).map Step.size)) ∧
      ((∀ s ∈ steps, s.succeeded = true) → w.peak = most (steps.map Step.size)) := by
  refine ⟨h.peak_eq, h.most_eq, ?_⟩
  intro hall
  have hnone : (steps.filter fun s => !s.succeeded) = [] :=
    List.filter_eq_nil_iff.mpr fun s hs => by simp [hall s hs]
  rw [h.most_eq, hnone]
  exact (Nat.max_zero _).symm

/-- The first look fails behind two tokens that it keeps.  Only one of them is still held at the
    next step, which succeeds: the peak says one, and two were held. -/
theorem peak_of_successful_fills_interrupted :
    ∃ (steps : List Step) (w : Window CharStream Char),
      Ran (CharStream.ofText "ab?c") steps w ∧
        steps.map (fun s => (s.succeeded, s.size)) = [(true, 1), (true, 1), (true, 2), (false, 2)] ∧
        w.peak = 1 ∧ most (steps.map Step.size) = max w.peak 2 := by
  have hnew : Ran (CharStream.ofText "ab?c") [] _ := .start
  have hfailed := hnew.step (.peek 2) (by decide +kernel)
  have hmoved := hfailed.step (.seek 1) (by decide +kernel)
  have hgone := hmoved.step .truncate (by decide +kernel)
  have hlast := hgone.step (.peek 0) (by decide +kernel)
  obtain ⟨-, hmost, -⟩ := peak_of_successful_fills hlast
  exact ⟨_, _, hlast, by decide +kernel, by decide +kernel, hmost⟩

/-- **A fill that fails is not counted**: the look keeps the token in front of the character that is
    none, and the peak stays where it was. -/
theorem peak_misses_failed_fill :
    ∃ (steps : List Step) (w : Window CharStream Char),
      Ran (CharStream.ofText "a?") steps w ∧ w.size = 1 ∧ most (steps.map Step.size) = 1 ∧
        w.peak = 0 :=
  ⟨_, _, Ran.start.step (.peek 1) (by decide +kernel), by decide +kernel, by decide +kernel,
    by decide +kernel⟩

end Window

/-! ## A parser without marks -/

/-- The operation looks at tokens down to the depth `k` or moves on, and nothing else. -/
def Expr.isPlain (k : Nat) : Expr κ ν → Bool
  | .peek depth | .peekKind depth => decide (depth ≤ k)
  | .check _ | .expect _ | .advance => true
  | _ => false

/-- A property that the computations of a session keep is one of all its states. -/
theorem Run.Preserves.session {S ε : Type} {I : S → Prop} {ms : List (Run S ε α)}
    (hms : ∀ m ∈ ms, Run.Preserves I m) {s : S} (hs : I s) :
    ∀ o ∈ Run.session ms s, I o.2 := by
  induction ms generalizing s with
  | nil => exact nofun
  | cons m ms ih =>
      have hm : I (m s).2 := hms m List.mem_cons_self s hs
      intro o ho
      rcases List.mem_cons.mp ho with rfl | ho
      · exact hm
      · by_cases hsettled : isSettled (m s).1 = true
        · rw [if_pos hsettled] at ho
          exact ih (fun m' hm' => hms m' (List.mem_cons_of_mem _ hm')) hm o ho
        · rw [if_neg hsettled] at ho
          exact nomatch ho

namespace Parser

/-- No mark is outstanding, and from the current token on the window holds no more than a look at
    the depth `k` asks for.  Tokens before the current one are there only together with it, and not
    at all if nobody looks further than at the current one. -/
structure Shallow (k : Nat) (p : Parser σ κ) : Prop where
  unmarked : p.marks.cursors = []
  ahead : p.window.size ≤ p.window.cursor + (k + 1)
  behind : p.window.cursor = 0 ∨ p.window.cursor < p.window.size
  apart : k = 0 → p.window.cursor = 0

/-- A new window holds nothing. -/
theorem shallow_new (k : Nat) (stream : σ) (options : Options) :
    (new stream options : Parser σ κ).Shallow k where
  unmarked := rfl
  ahead := Nat.zero_le _
  behind := Or.inl rfl
  apart _ := rfl

namespace Shallow

variable {k depth : Nat} {p : Parser σ κ} {w : Window σ κ}

/-- Within the depth a fill adds no more than may be held. -/
theorem grown (h : p.Shallow k) (hdepth : depth ≤ k) {r : Except (Halt LexError) α}
    (hfills : Window.Fills (p.window.cursor + (depth + 1)) p.window r w) :
    { p with window := w }.Shallow k where
  unmarked := h.unmarked
  ahead := by
    have hsize := hfills.size_le
    have hahead := h.ahead
    show w.size ≤ w.cursor + (k + 1)
    rw [hfills.grows.cursor]
    omega
  behind := by
    have hle := hfills.grows.size_le
    show w.cursor = 0 ∨ w.cursor < w.size
    rw [hfills.grows.cursor]
    exact h.behind.imp_right fun hlt => Nat.lt_of_lt_of_le hlt hle
  apart hk := hfills.grows.cursor.trans (h.apart hk)

/-- A step past the last token held leaves nothing behind; any other one leaves what the window
    held. -/
theorem stepped (h : p.Shallow k)
    (hfills : Window.Fills (p.window.cursor + 1) p.window
      (.ok () : Except (Halt LexError) Unit) w) :
    (p.stepped w).tidied.Shallow k := by
  obtain ⟨hgrows, hsize, -⟩ := hfills
  have hahead := h.ahead
  have hfree : (p.stepped w).isSpeculating = false := by
    rw [isSpeculating, Marks.isSpeculating, show (p.stepped w).marks = p.marks from rfl, h.unmarked]
    rfl
  rw [tidied, hfree]
  by_cases hlast : p.window.cursor + 1 = w.size
  · have hdrained : (p.stepped w).window.isDrained = true := beq_iff_eq.mpr hlast
    rw [hdrained]
    refine ⟨h.unmarked, ?_, Or.inl rfl, fun _ => rfl⟩
    show (p.stepped w).window.truncate.size ≤ _
    rw [Window.size_truncate]
    show w.size - (p.window.cursor + 1) ≤ _
    omega
  · have hdrained : (p.stepped w).window.isDrained = false := beq_eq_false_iff_ne.mpr hlast
    rw [hdrained]
    refine ⟨h.unmarked, ?_, Or.inr ?_, ?_⟩
    · show w.size ≤ p.window.cursor + 1 + (k + 1)
      omega
    · show p.window.cursor + 1 < w.size
      omega
    · -- with nothing but the current token held, the step was past the last one
      intro hk
      have hcursor := h.apart hk
      omega

end Shallow

variable [TokenStream σ κ] [DecidableEq κ] [TokenKind κ]

/-- A look within the depth fills as far as that, and no farther. -/
theorem preserves_peek {k depth : Nat} (hdepth : depth ≤ k) :
    Run.Preserves (Shallow k) (peek depth : Parsing σ κ (Token κ)) := by
  intro p hp
  have hpeek := Window.peek_fills depth p.window
  rcases h : Window.peek depth p.window with ⟨e | t, w⟩
  · rw [h] at hpeek
    rw [show peek depth p = _ from onWindow_error h]
    rcases hpeek with hfills | hover
    · exact hp.grown hdepth hfills
    · obtain rfl : w = p.window := congrArg Prod.snd hover
      exact hp
  · rw [h] at hpeek
    rw [show peek depth p = _ from onWindow_ok h]
    rcases hpeek with hfills | hover
    · exact hp.grown hdepth hfills
    · exact nomatch congrArg Prod.fst hover

/-- A step behind the last token lets all of them go, and any other step holds what was held. -/
theorem preserves_advance (k : Nat) :
    Run.Preserves (Shallow k) (advance : Parsing σ κ Unit) := by
  intro p hp
  rcases Window.advance_fills p.window with ⟨w, ha, hfills⟩ | ⟨e, w, ha, hfills⟩
  · rw [show advance p = _ from Run.bind_of_ok (onWindow_ok ha)]
    exact hp.stepped hfills
  · rw [show advance p = _ from Run.bind_of_error (onWindow_error ha)]
    exact hp.grown (Nat.zero_le k) hfills

/-- A check looks at the current token, and every depth is as deep as that. -/
theorem preserves_check (k : Nat) (kind : κ) :
    Run.Preserves (Shallow k) (check kind : Parsing σ κ Bool) :=
  ((preserves_peek (Nat.zero_le k)).bind fun _ => .pure _).bind fun _ => .pure _

/-- And so does an expected token, which is then stepped over. -/
theorem preserves_expect (k : Nat) (kind : κ) :
    Run.Preserves (Shallow k) (expect kind : Parsing σ κ Unit) := by
  refine (preserves_check k kind).bind fun matched => .ite (preserves_advance k) ?_
  exact ((preserves_peek (Nat.zero_le k)).bind fun _ => .read _).bind fun _ => .halt _

end Parser

/-! ### The bound -/

section

variable [TokenStream σ κ] [DecidableEq κ] [TokenKind κ]

/-- Without marks nothing but the looks decides how much is held, and in a plain expression those
    are within the depth. -/
theorem Expr.preserves_eval {k : Nat} {e : Expr κ ν} (he : e.isPlain k = true)
    (rules : ν → Expr κ ν) (fuel : Nat) :
    Run.Preserves (Parser.Shallow k) (eval rules fuel e : Parsing σ κ (Value κ)) := by
  cases fuel with
  | zero => exact .halt _
  | succ fuel =>
      cases e with
      | peek depth => exact (Parser.preserves_peek (of_decide_eq_true he)).bind fun _ => .pure _
      | peekKind depth =>
          exact ((Parser.preserves_peek (of_decide_eq_true he)).bind fun _ => .pure _).bind
            fun _ => .pure _
      | check kind => exact (Parser.preserves_check k kind).bind fun _ => .pure _
      | expect kind => exact (Parser.preserves_expect k kind).bind fun _ => .pure _
      | advance => exact (Parser.preserves_advance k).bind fun _ => .pure _
      | _ => exact nomatch he

/-- **What lookahead keeps**: a parser that is used without marks and looks no further than `k`
    tokens beyond the current one never holds more than `k + 1` tokens from the current one on.
    Tokens before the current one are held besides, though only in front of it: at the end of what
    it holds the parser holds nothing.  If it never looks beyond the current token, it holds one at
    most. -/
theorem held_by_lookahead (k : Nat) (rules : ν → Expr κ ν) (fuel : Nat) (ops : List (Expr κ ν))
    (hops : ∀ e ∈ ops, e.isPlain k = true) (stream : σ) (options : Options) :
    ∀ o ∈ Expr.session rules fuel ops (Parser.new stream options),
      o.2.window.size ≤ o.2.window.cursor + (k + 1) ∧
        (o.2.window.cursor = 0 ∨ o.2.window.cursor < o.2.window.size) ∧
        (k = 0 → o.2.window.size ≤ 1) := by
  have hpreserves : ∀ m ∈ ops.map (Expr.eval rules fuel (σ := σ)),
      Run.Preserves (Parser.Shallow k) m := by
    intro m hm
    obtain ⟨e, he, rfl⟩ := List.mem_map.mp hm
    exact Expr.preserves_eval (hops e he) rules fuel
  intro o ho
  have hshallow := Run.Preserves.session hpreserves (Parser.shallow_new k stream options) o ho
  refine ⟨hshallow.ahead, hshallow.behind, ?_⟩
  intro hk
  have hahead := hshallow.ahead
  have hcursor := hshallow.apart hk
  omega

/-- One token ahead is looked at, and two are held, also behind the first step.  The second step is
    past the last of them, and so is the third one. -/
theorem held_by_lookahead_step :
    let ops : List (Expr Char Unit) := [.peekKind 1, .advance, .expect 'b', .advance]
    let outcomes := Expr.session (fun _ => .done) 1 ops (Parser.new (CharStream.ofText "abc") {})
    outcomes.map (fun o => o.2.window.cursor) = [0, 1, 0, 0] ∧
      outcomes.map (fun o => o.2.window.size) = [2, 2, 0, 0] ∧
      ∀ o ∈ outcomes, o.2.window.size ≤ o.2.window.cursor + 2 ∧
        (o.2.window.cursor = 0 ∨ o.2.window.cursor < o.2.window.size) := by
  refine ⟨by decide +kernel, by decide +kernel, ?_⟩
  intro o ho
  obtain ⟨hahead, hbehind, -⟩ :=
    held_by_lookahead 1 (fun _ => .done) 1 _ (by decide) (CharStream.ofText "abc") {} o ho
  exact ⟨hahead, hbehind⟩

end

/-! ## Tokens that stay -/

/-- The stream answers every call with a token. -/
def TokenStream.Flows [TokenStream σ κ] (stream : σ) : Prop := ∀ i, ∃ t, answer stream i = .ok t

/-- A stream that flows gives a token, and flows on. -/
theorem TokenStream.Flows.next [TokenStream σ κ] {stream : σ} (h : Flows stream) :
    ∃ t stream', TokenStream.next stream = (.ok t, stream') ∧ Flows stream' := by
  obtain ⟨t, ht⟩ := h 0
  refine ⟨t, (TokenStream.next stream).2, Prod.ext ht rfl, ?_⟩
  intro i
  rw [← answer_succ]
  exact h (i + 1)

/-- A property that makes for a token and outlives the call makes the stream flow. -/
theorem TokenStream.flows_of_kept [TokenStream σ κ] {I : σ → Prop}
    (hI : ∀ stream, I stream → (∃ t, (TokenStream.next stream).1 = .ok t) ∧
      I (TokenStream.next stream).2) {stream : σ} (h : I stream) : Flows stream := by
  intro i
  induction i generalizing stream with
  | zero => exact (hI stream h).1
  | succ i ih =>
      rw [answer_succ]
      exact ih (hI stream h).2

/-- A look at the depth and a step, a number of times. -/
def Expr.lookRounds (depth : Nat) : Nat → List (Expr κ ν)
  | 0 => []
  | n + 1 => .peekKind depth :: .advance :: lookRounds depth n

/-- The rounds look as far as their depth and step over tokens, and that is all. -/
theorem Expr.isPlain_lookRounds (depth n : Nat) :
    ∀ e ∈ (lookRounds depth n : List (Expr κ ν)), e.isPlain depth = true := by
  induction n with
  | zero => exact nofun
  | succ n ih =>
      intro e he
      rcases List.mem_cons.mp he with rfl | he
      · exact decide_eq_true (Nat.le_refl depth)
      · rcases List.mem_cons.mp he with rfl | he
        · rfl
        · exact ih e he

section

variable [TokenStream σ κ] [DecidableEq κ] [TokenKind κ]

namespace Window

/-- From a stream that flows a pull is never refused. -/
theorem pull_of_flows {w : Window σ κ} (h : TokenStream.Flows w.stream) :
    ∃ w', pull w = (.ok (), w') ∧ TokenStream.Flows w'.stream := by
  rw [pull]
  split
  · exact ⟨_, rfl, h⟩
  · obtain ⟨t, stream', hnext, hflows⟩ := h.next
    rw [hnext]
    exact ⟨_, rfl, hflows⟩

/-- Nor are many of them. -/
theorem pullMany_of_flows (count : Nat) {w : Window σ κ} (h : TokenStream.Flows w.stream) :
    ∃ w', pullMany count w = (.ok (), w') ∧ TokenStream.Flows w'.stream := by
  induction count generalizing w with
  | zero => exact ⟨w, rfl, h⟩
  | succ count ih =>
      obtain ⟨w₁, hpull, hflows⟩ := pull_of_flows h
      rw [pullMany, Run.bind_of_ok hpull]
      exact ih hflows

/-- So a fill reaches its goal. -/
theorem fill_of_flows (count : Nat) {w : Window σ κ} (h : TokenStream.Flows w.stream) :
    ∃ w', fill count w = (.ok (), w') ∧ TokenStream.Flows w'.stream ∧ w'.cursor = w.cursor ∧
      w'.size = max w.size (w.cursor + count) := by
  obtain ⟨w₁, hpulls, hflows⟩ := pullMany_of_flows (w.cursor + count - w.size) h
  have hfill : fill count w = (.ok (), { w₁ with peak := max w₁.peak w₁.size }) :=
    (Run.bind_of_ok rfl).trans (Run.bind_of_ok hpulls)
  have hfills := fill_fills count w
  rw [hfill] at hfills ⊢
  cases hfills with
  | full hgrows hsize _ => exact ⟨_, rfl, hflows, hgrows.cursor, hsize⟩

end Window

namespace Parser

/-- A look beyond the current token and a step: all the tokens stay, the one stepped past as
    well. -/
theorem look_advance {depth : Nat} (hdepth : 0 < depth) (hsmall : 2 * depth < wordLimit)
    {p : Parser σ κ} (hflows : TokenStream.Flows p.window.stream)
    (hsize : p.window.size ≤ p.window.cursor + (depth + 1)) :
    ∃ kind p₁ p₂, peekKind depth p = (.ok kind, p₁) ∧ advance p₁ = (.ok (), p₂) ∧
      TokenStream.Flows p₂.window.stream ∧ p₂.window.cursor = p.window.cursor + 1 ∧
      p₂.window.size = p₂.window.cursor + depth := by
  have hover : p.window.overflowsAt depth = false := decide_eq_false (by omega)
  obtain ⟨w₁, hlook, hflows₁, hcursor₁, hsize₁⟩ := Window.fill_of_flows (depth + 1) hflows
  obtain ⟨t, hpeek⟩ := Window.peek_of_fill hover hlook
  obtain ⟨w₂, hstep, hflows₂, hcursor₂, hsize₂⟩ := Window.fill_of_flows 1 hflows₁
  -- there is a token behind the one stepped past
  have hahead : w₂.size = w₂.cursor + 1 + depth := by omega
  have hheld : ({ w₂ with cursor := w₂.cursor + 1 } : Window σ κ).isDrained = false :=
    beq_eq_false_iff_ne.mpr (by show w₂.cursor + 1 ≠ w₂.size; omega)
  refine ⟨t.kind, { p with window := w₁ }, { p with window := { w₂ with cursor := w₂.cursor + 1 } },
    Run.bind_of_ok (onWindow_ok hpeek), ?_, hflows₂, ?_, hahead⟩
  · have hmoved : Window.advance w₁ = (.ok (), { w₂ with cursor := w₂.cursor + 1 }) :=
      Run.bind_of_ok hstep
    rw [advance, Run.bind_of_ok (onWindow_ok (p := { p with window := w₁ }) hmoved)]
    show (Except.ok (), tidied _) = _
    rw [tidied, hheld]
    rfl
  · show w₂.cursor + 1 = _
    rw [hcursor₂, hcursor₁]

/-- One round is a look and a step, and the others start from there. -/
theorem session_lookRounds {depth : Nat} (rules : ν → Expr κ ν) (fuel n : Nat)
    {p p₁ p₂ : Parser σ κ} {kind : κ} (hlook : peekKind depth p = (.ok kind, p₁))
    (hstep : advance p₁ = (.ok (), p₂)) :
    Expr.session rules (fuel + 1) (Expr.lookRounds depth (n + 1)) p =
      (.ok (.kind kind), p₁) :: (.ok .nothing, p₂) ::
        Expr.session rules (fuel + 1) (Expr.lookRounds depth n) p₂ := by
  have hlook' : Expr.eval rules (fuel + 1) (.peekKind depth) p = (.ok (.kind kind), p₁) :=
    Run.bind_of_ok hlook
  have hstep' : Expr.eval rules (fuel + 1) .advance p₁ = (.ok .nothing, p₂) :=
    Run.bind_of_ok hstep
  rw [Expr.session, Expr.lookRounds, List.map_cons, Run.session_cons hlook' rfl, List.map_cons,
    Run.session_cons hstep' rfl]
  rfl

end Parser

/-- **Nothing is let go behind a look**: as long as the stream has tokens, whoever looks beyond the
    current token before each step still holds every token stepped past, and those ahead. -/
theorem Parser.size_lookRounds {depth : Nat} (hdepth : 0 < depth) (hsmall : 2 * depth < wordLimit)
    (rules : ν → Expr κ ν) (fuel n : Nat) {p : Parser σ κ}
    (hflows : TokenStream.Flows p.window.stream)
    (hsize : p.window.size ≤ p.window.cursor + (depth + 1)) :
    ∃ o ∈ Expr.session rules (fuel + 1) (Expr.lookRounds depth (n + 1)) p,
      o.2.window.cursor = p.window.cursor + (n + 1) ∧
        o.2.window.size = o.2.window.cursor + depth := by
  induction n generalizing p with
  | zero =>
      obtain ⟨kind, p₁, p₂, hlook, hstep, -, hcursor, hheld⟩ :=
        look_advance hdepth hsmall hflows hsize
      rw [session_lookRounds rules fuel 0 hlook hstep]
      exact ⟨(.ok .nothing, p₂), List.mem_cons_of_mem _ List.mem_cons_self, hcursor, hheld⟩
  | succ n ih =>
      obtain ⟨kind, p₁, p₂, hlook, hstep, hflows₂, hcursor, hheld⟩ :=
        look_advance hdepth hsmall hflows hsize
      obtain ⟨o, ho, hcursor', hheld'⟩ := ih hflows₂ (by omega)
      rw [session_lookRounds rules fuel (n + 1) hlook hstep]
      exact ⟨o, List.mem_cons_of_mem _ (List.mem_cons_of_mem _ ho), by omega, hheld'⟩

end

/-- Without a question mark ahead there is always a token. -/
theorem CharStream.flows {s : CharStream} (h : '?' ∉ s.cursor.rest) : TokenStream.Flows s := by
  refine TokenStream.flows_of_kept (I := fun s : CharStream => '?' ∉ s.cursor.rest) ?_ h
  intro s hs
  -- the blanks are skipped first
  have hahead : '?' ∉ (s.cursor.consumeWhile Text.isBlank).2.rest := by
    intro hmem
    rw [Cursor.consumeWhile, Cursor.consumeWith, Cursor.rest_skip] at hmem
    exact hs (List.mem_of_mem_drop hmem)
  show (∃ t, (CharStream.next s).1 = .ok t) ∧ '?' ∉ (CharStream.next s).2.cursor.rest
  rw [CharStream.next]
  cases hrest : (s.cursor.consumeWhile Text.isBlank).2.rest with
  | nil =>
      rw [Cursor.advance_of_nil hrest]
      exact ⟨⟨_, rfl⟩, hahead⟩
  | cons c rest =>
      rw [hrest] at hahead
      rw [Cursor.advance_of_cons hrest]
      dsimp only
      have hmark : c ≠ '?' := fun hc => hahead (hc ▸ List.mem_cons_self)
      rw [if_neg hmark]
      exact ⟨⟨_, rfl⟩, fun hmem => hahead (List.mem_cons_of_mem _ hmem)⟩

/-- **No depth bounds the window**: with one token of lookahead before each of three steps over
    `abcd` all four tokens are held, and on longer texts any number of them. -/
theorem not_held_by_depth :
    (∃ ops : List (Expr Char Unit), (∀ e ∈ ops, e.isPlain 1 = true) ∧
        ∃ o ∈ Expr.session (fun _ => .done) 1 ops (Parser.new (CharStream.ofText "abcd") {}),
          o.2.window.size = 4) ∧
      ¬∃ bound : Nat → Nat, ∀ (k : Nat) (text : String) (ops : List (Expr Char Unit)),
        (∀ e ∈ ops, e.isPlain k = true) →
          ∀ o ∈ Expr.session (fun _ => .done) 1 ops (Parser.new (CharStream.ofText text) {}),
            o.2.window.size ≤ bound k := by
  have hgrows : ∀ (text : String) (n : Nat), '?' ∉ text.toList →
      ∃ o ∈ Expr.session (fun _ : Unit => .done) 1 (Expr.lookRounds 1 (n + 1))
        (Parser.new (CharStream.ofText text) {}), o.2.window.size = n + 2 := by
    intro text n htext
    obtain ⟨o, ho, hcursor, hsize⟩ := Parser.size_lookRounds Nat.one_pos (by decide)
      (fun _ : Unit => .done) 0 n (p := Parser.new (CharStream.ofText text) {})
      (CharStream.flows htext) (Nat.zero_le _)
    have hcursor' : o.2.window.cursor = n + 1 := hcursor.trans (Nat.zero_add _)
    exact ⟨o, ho, by omega⟩
  constructor
  · exact ⟨Expr.lookRounds 1 3, Expr.isPlain_lookRounds 1 3, hgrows "abcd" 2 (by decide)⟩
  · rintro ⟨bound, hbound⟩
    -- one more step than the bound allows for, on a text that has so many characters
    let text := String.ofList (List.replicate (bound 1 + 2) 'a')
    obtain ⟨o, ho, hsize⟩ := hgrows text (bound 1) (by
      rw [String.toList_ofList]
      exact fun hmem => absurd (List.eq_of_mem_replicate hmem) (by decide))
    have hle := hbound 1 text _ (Expr.isPlain_lookRounds 1 (bound 1 + 1)) o ho
    omega

end Packrat
