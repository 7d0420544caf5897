import Packrat.ListLang.Lexer
import Packrat.Proofs.Selection

/-! # Runs of a lexer

    A lexer is asked for tokens one by one, as a sequence and all at once, and
    between the calls its cursor may be moved.  All of that is made of rounds and
    moves, so what these preserve holds of every lexer that is met
    (`Visited.inText`).

    A rule may remember marks and go back to them, match or not.  As long as it
    handles the cursor by its operations only, it never takes it out of the text,
    and in one text a cursor is known by its offset.  So a round that makes no
    progress has left the cursor where it was, wherever it has been in between, and
    every lexical error is about the place where it leaves the lexer. -/

namespace Packrat

variable {ρ κ : Type} {source : SourceText}

namespace Run

variable {S ε α β : Type} {I : S → Prop}

/-- The computation leads from states with the property to states with the property, whatever it
    ends with. -/
def Preserves (I : S → Prop) (m : Run S ε α) : Prop := ∀ s, I s → I (m s).2

namespace Preserves

/-- An answer without a step leaves the state as it is. -/
theorem pure (a : α) : Preserves I (Pure.pure a : Run S ε α) := fun _ h => h

/-- So does a halt. -/
theorem halt (h : Halt ε) : Preserves I (Run.halt h : Run S ε α) := fun _ h => h

/-- And so does reading. -/
theorem read (f : S → α) : Preserves I (Run.read f : Run S ε α) := fun _ h => h

/-- A change of the state has to keep the property itself. -/
theorem update {f : S → S} (h : ∀ s, I s → I (f s)) :
    Preserves I (Run.update f : Run S ε Unit) := h

/-- What the first part has left, the second starts from, if it starts. -/
theorem bind {m : Run S ε α} {f : α → Run S ε β} (hm : Preserves I m)
    (hf : ∀ a, Preserves I (f a)) : Preserves I (m >>= f) := by
  intro s hs
  have hs' := hm s hs
  rcases hr : m s with ⟨e | a, s'⟩
  · rw [hr] at hs'
    rw [Run.bind_of_error hr]
    exact hs'
  · rw [hr] at hs'
    rw [Run.bind_of_ok hr]
    exact hf a s' hs'

/-- Settling turns complaints into answers and leaves the state to the run underneath. -/
theorem settle {m : Run S ε α} (hm : Preserves I m) : Preserves I m.settle := by
  intro s hs
  rw [Run.snd_settle]
  exact hm s hs

/-- Either branch may be taken. -/
theorem ite {c : Prop} [Decidable c] {m m' : Run S ε α} (hm : Preserves I m)
    (hm' : Preserves I m') : Preserves I (if c then m else m') := by
  by_cases hc : c
  · rw [if_pos hc]
    exact hm
  · rw [if_neg hc]
    exact hm'

end Preserves

end Run

/-! ## Cursors that are moved about -/

namespace Cursor

/-- From the cursor `c`, with the marks `saved` to go back to, operations of the cursor lead to
    another one, with the marks that are there by then. -/
inductive Roams (c : Cursor) (saved : List Checkpoint) : Cursor → List Checkpoint → Prop where
  | stay : Roams c saved c saved
  | advance {d : Cursor} {noted : List Checkpoint} :
      Roams c saved d noted → Roams c saved d.advance.2 noted
  | consume {τ : Type} {d : Cursor} {noted : List Checkpoint} (accept : τ → Char → Bool × τ)
      (t : τ) : Roams c saved d noted → Roams c saved (d.consumeWith accept t).2 noted
  | checkpoint {d : Cursor} {noted : List Checkpoint} :
      Roams c saved d noted → Roams c saved d (d.checkpoint :: noted)
  | restore {d : Cursor} {noted : List Checkpoint} {p : Checkpoint} (hp : p ∈ noted) :
      Roams c saved d noted → Roams c saved (d.restore p) noted

/-- The mark has been made in the text. -/
def Noted (source : SourceText) (p : Checkpoint) : Prop :=
  ∃ d, Placed source d ∧ p = d.checkpoint

/-- A cursor that is moved about stays in its text. -/
theorem Placed.roams {c d : Cursor} {saved noted : List Checkpoint} (hc : Placed source c)
    (hsaved : ∀ p ∈ saved, Noted source p) (h : Roams c saved d noted) :
    Placed source d ∧ ∀ p ∈ noted, Noted source p := by
  induction h with
  | stay => exact ⟨hc, hsaved⟩
  | advance _ ih => exact ⟨ih.1.advance, ih.2⟩
  | consume accept t _ ih => exact ⟨ih.1.consumeWith accept t, ih.2⟩
  | @checkpoint d _ _ ih =>
      refine ⟨ih.1, ?_⟩
      intro p hp
      rcases List.mem_cons.mp hp with rfl | hp
      · exact ⟨d, ih.1, rfl⟩
      · exact ih.2 p hp
  | restore hp _ ih =>
      -- only marks of the same text are kept, so that going back stays in it
      obtain ⟨d, hd, rfl⟩ := ih.2 _ hp
      rw [hd.restore_checkpoint ih.1.source_eq]
      exact ⟨hd, ih.2⟩

/-- One offset, one place. -/
theorem Placed.eq_of_offset {c d : Cursor} (hc : Placed source c) (hd : Placed source d)
    (h : c.offset = d.offset) : c = d := by
  have hposition := hc.position_eq hd h
  have hsource := hc.source_eq.trans hd.source_eq.symm
  obtain ⟨before, hcut, -⟩ := hc.cut
  obtain ⟨before', hcut', -⟩ := hd.cut
  rw [h, hcut'] at hcut
  have hrest : d.rest = c.rest := congrArg Prod.snd (Option.some.inj hcut)
  cases c
  cases d
  cases hsource
  cases h
  cases hposition
  cases hrest
  rfl

end Cursor

/-! ## Rules that stay in the text -/

namespace Rule

/-- Every try of the rule is a run of cursor operations, which may go back to the marks that the
    rule remembers; `marks` tells which these are. -/
def Roams (marks : ρ → List Checkpoint) (r : Rule ρ κ) : Prop :=
  ∀ memory c, ∃ noted, Cursor.Roams c (marks memory) (r.tryMatch memory c).2.2 noted ∧
    ∀ p ∈ marks (r.tryMatch memory c).2.1, p ∈ noted

/-- The rule handles the cursor by its operations only, and the marks that it remembers now are
    among `noted`. -/
def KeepsTo (noted : List Checkpoint) (r : Rule ρ κ) : Prop :=
  ∃ marks, r.Roams marks ∧ ∀ p ∈ marks r.memory, p ∈ noted

/-- A property of rules that survives their tries, and whose rules never leave the text. -/
structure Confines (source : SourceText) (Q : Rule ρ κ → Prop) : Prop where
  after : ∀ {r c}, Q r → Cursor.Placed source c → Q (r.after c)
  placed : ∀ {r c}, Q r → Cursor.Placed source c →
    Cursor.Placed source (r.tryMatch r.memory c).2.2

/-- In one text a rule that fails leaves no trace at the cursor. -/
theorem Confines.undone {Q : Rule ρ κ → Prop} (hQ : Confines source Q) {r : Rule ρ κ} (hr : Q r)
    {c : Cursor} (hc : Cursor.Placed source c) : r.Undone c := by
  intro _ _
  exact hc.restore_checkpoint (hQ.placed hr hc).source_eq

/-- The rule handles the cursor by its operations only, on marks made in the text. -/
def Roaming (source : SourceText) (r : Rule ρ κ) : Prop :=
  ∃ marks, r.Roams marks ∧ ∀ p ∈ marks r.memory, Cursor.Noted source p

/-- Operations of the cursor never leave the text, and the marks that a rule comes to remember are
    among those that it has made there. -/
theorem confines_roaming : Confines source (Roaming source : Rule ρ κ → Prop) where
  after := by
    rintro r c ⟨marks, hroams, hmarks⟩ hc
    obtain ⟨noted, hrun, hkept⟩ := hroams r.memory c
    exact ⟨marks, hroams, fun p hp => (hc.roams hmarks hrun).2 p (hkept p hp)⟩
  placed := by
    rintro r c ⟨marks, hroams, hmarks⟩ hc
    obtain ⟨noted, hrun, -⟩ := hroams r.memory c
    exact (hc.roams hmarks hrun).1

/-- A rule without anything to remember is the same after a try. -/
theorem after_of_subsingleton [Subsingleton ρ] (r : Rule ρ κ) (c : Cursor) : r.after c = r := by
  rw [after, Subsingleton.elim (r.tryMatch r.memory c).2.1 r.memory]

end Rule

namespace Lexer

/-! ## What a round can do -/

/-- The complaint is about the place of the cursor. -/
theorem position_unmatched (c : Cursor) : (unmatched c).position = c.position := by
  rw [unmatched]
  cases c.peek with
  | none => rfl
  | some ch => rfl

/-- And if it names a character, that is the next one. -/
theorem peek_of_unmatched {c : Cursor} {ch : Char} {p : Position}
    (h : unmatched c = .invalidCharacter ch p) : c.peek = some ch := by
  rw [unmatched] at h
  cases hpeek : c.peek with
  | none =>
      rw [hpeek] at h
      cases h
  | some ch' =>
      rw [hpeek] at h
      exact congrArg some (LexError.invalidCharacter.inj h).1

/-- Rules without memory are the same after the turns of a round. -/
theorem snd_firstMatch [Subsingleton ρ] (next : Option Char) (c : Cursor)
    (rs : List (Rule ρ κ)) : (firstMatch next c rs).2.2 = rs := by
  induction rs generalizing c with
  | nil => rfl
  | cons r rs ih =>
      -- with one value for the memory, trying a rule cannot change it
      have hafter : ∀ {o : Option (Lexeme (Token κ)) × Cursor × Rule ρ κ}, r.attempt c = o →
          o.2.2 = r := by
        rintro _ rfl
        exact r.after_of_subsingleton c
      cases hdeclines : r.declines next with
      | true => rw [firstMatch_of_declines hdeclines, ih]
      | false =>
          rcases hmatch : r.attempt c with ⟨_ | lexeme, c', r'⟩
          · obtain rfl : r' = r := hafter hmatch
            rw [firstMatch_of_miss hdeclines hmatch, ih]
          · obtain rfl : r' = r := hafter hmatch
            rw [firstMatch_of_hit rs hdeclines hmatch]

/-- And so they are after the round. -/
theorem rules_round [Subsingleton ρ] (lx : Lexer ρ κ) : (round lx).2.rules = lx.rules := by
  rw [rules_snd_round, snd_firstMatch]

/-- The lexer stands in its text, and its rules have a property. -/
structure InText (source : SourceText) (Q : Rule ρ κ → Prop) (lx : Lexer ρ κ) : Prop where
  placed : lx.cursor.Placed source
  rules : ∀ r ∈ lx.rules, Q r

variable {Q : Rule ρ κ → Prop}

/-- A round over rules that never leave the text: each of them is tried where the round began. -/
theorem InText.round_cases (hQ : Rule.Confines source Q) {lx : Lexer ρ κ}
    (h : lx.InText source Q) :
    ∃ rules, (∀ r ∈ rules, Q r) ∧
      ((∃ lexeme c, c.Placed source ∧ round lx =
          (if c.offset = lx.cursor.offset then .error (.failed (.noProgress lx.cursor.position))
            else .ok lexeme, { lx with rules, cursor := c })) ∨
        round lx = (.error (.failed (unmatched lx.cursor)), { lx with rules })) := by
  -- the rules stay in the text, so that restoring brings back the very cursor of the beginning
  have hkept : Kept lx.cursor.peek (· = lx.cursor) Q := by
    constructor
    · rintro r _ hr rfl
      exact hQ.after hr h.placed
    · rintro r _ hr rfl hasked hnone
      exact hQ.undone hr h.placed hasked hnone
  obtain ⟨rules, hrules, ⟨w, _, lexeme, memory, c, hw, rfl, -, -, hmatch, hround⟩ |
    ⟨_, rfl, -, hround⟩⟩ := round_found hkept rfl h.rules
  · have hplaced := hQ.placed hw h.placed
    rw [hmatch] at hplaced
    exact ⟨rules, hrules, Or.inl ⟨lexeme, c, hplaced, hround⟩⟩
  · exact ⟨rules, hrules, Or.inr hround⟩

/-- Whatever a round ends with, the lexer is in its text afterwards, with rules that will not leave
    it. -/
theorem preserves_round (hQ : Rule.Confines source Q) :
    Run.Preserves (InText source Q) (round (ρ := ρ) (κ := κ)) := by
  intro lx h
  obtain ⟨rules, hrules, ⟨lexeme, c, hc, hround⟩ | hround⟩ := h.round_cases hQ
  · rw [hround]
    exact ⟨hc, hrules⟩
  · rw [hround]
    exact ⟨h.placed, hrules⟩

/-- A new lexer has its rules from those declared. -/
theorem inText_new {declared : List (Rule ρ κ)} {c : Cursor} (hc : c.Placed source)
    (hrules : ∀ r ∈ declared, Q r) (atEnd : Cursor → Bool) :
    (new declared c atEnd).InText source Q :=
  ⟨hc, fun r hr => hrules r ((byPriority_perm declared).mem_iff.mp hr)⟩

/-! ## Calls and moves -/

section Calls

variable [TokenKind κ] {I : Lexer ρ κ → Prop}

/-- A call is made of rounds. -/
theorem preserves_nextToken (hround : Run.Preserves I round) (fuel : Nat) :
    Run.Preserves I (nextToken fuel) := by
  induction fuel with
  | zero => exact .halt _
  | succ fuel ih =>
      refine (Run.Preserves.read _).bind fun ended => .ite (.read _) (hround.bind ?_)
      intro lexeme
      cases lexeme with
      | token t => exact .pure t
      | skip => exact ih

variable [DecidableEq κ]

/-- A step of the sequence is a call, and it may close the sequence. -/
theorem preserves_next? (hround : Run.Preserves I round) (hfinish : ∀ lx, I lx → I lx.finish)
    (fuel : Nat) : Run.Preserves I (next? fuel) := by
  refine (Run.Preserves.read _).bind fun ended => .ite (.pure _) ?_
  refine (preserves_nextToken hround fuel).settle.bind ?_
  intro answer
  cases answer with
  | ok t => exact .ite ((Run.Preserves.update hfinish).bind fun _ => .pure _) (.pure _)
  | error e => exact (Run.Preserves.update hfinish).bind fun _ => .halt _

/-- Reading on is step after step, behind complaints as well. -/
theorem preserves_itemsUpTo (hround : Run.Preserves I round) (hfinish : ∀ lx, I lx → I lx.finish)
    (fuel count : Nat) : Run.Preserves I (itemsUpTo fuel count) := by
  induction count with
  | zero => exact .halt _
  | succ count ih =>
      refine (preserves_next? hround hfinish fuel).settle.bind ?_
      intro answer
      match answer with
      | .ok none => exact .pure _
      | .ok (some t) => exact ih.bind fun _ => .pure _
      | .error e => exact ih.bind fun _ => .pure _

/-- Reading the whole sequence is reading on, with what has been read looked over at the end. -/
theorem preserves_tokenize (hround : Run.Preserves I round) (hfinish : ∀ lx, I lx → I lx.finish)
    (fuel : Nat) : Run.Preserves I (tokenize fuel) := by
  refine (preserves_itemsUpTo hround hfinish fuel fuel).bind ?_
  intro items
  cases items.mapM id with
  | ok tokens => exact .pure _
  | error e => exact .halt _

/-- The lexers that are met from `start` on, with the marks that are there to go back to: a lexer is
    called, in any of the three ways, and between the calls its cursor is moved about.  A call that
    runs out of fuel leaves the lexer between two of its rounds. -/
inductive Visited (start : Lexer ρ κ) (noted : List Checkpoint) :
    Lexer ρ κ → List Checkpoint → Prop where
  | start : Visited start noted start noted
  | nextToken {lx : Lexer ρ κ} {saved : List Checkpoint} (fuel : Nat) :
      Visited start noted lx saved → Visited start noted (nextToken fuel lx).2 saved
  | next? {lx : Lexer ρ κ} {saved : List Checkpoint} (fuel : Nat) :
      Visited start noted lx saved → Visited start noted (next? fuel lx).2 saved
  | tokenize {lx : Lexer ρ κ} {saved : List Checkpoint} (fuel : Nat) :
      Visited start noted lx saved → Visited start noted (tokenize fuel lx).2 saved
  | move {lx : Lexer ρ κ} {saved saved' : List Checkpoint} {c : Cursor} :
      Visited start noted lx saved → Cursor.Roams lx.cursor saved c saved' →
      Visited start noted { lx with cursor := c } saved'

/-- **What rounds and moves preserve holds of every lexer that is met**, and what moves preserve of
    the marks holds of all that are there by then. -/
theorem Visited.kept {J : Checkpoint → Prop} (hround : Run.Preserves I round)
    (hfinish : ∀ lx, I lx → I lx.finish)
    (hmove : ∀ {lx c saved saved'}, I lx → (∀ p ∈ saved, J p) →
      Cursor.Roams lx.cursor saved c saved' →
      I { lx with cursor := c } ∧ ∀ p ∈ saved', J p)
    {start lx : Lexer ρ κ} {noted saved : List Checkpoint} (hstart : I start)
    (hnoted : ∀ p ∈ noted, J p) (h : Visited start noted lx saved) :
    I lx ∧ ∀ p ∈ saved, J p := by
  induction h with
  | start => exact ⟨hstart, hnoted⟩
  | nextToken fuel _ ih => exact ⟨preserves_nextToken hround fuel _ ih.1, ih.2⟩
  | next? fuel _ ih => exact ⟨preserves_next? hround hfinish fuel _ ih.1, ih.2⟩
  | tokenize fuel _ ih => exact ⟨preserves_tokenize hround hfinish fuel _ ih.1, ih.2⟩
  | move _ hroams ih => exact hmove ih.1 ih.2 hroams

/-- A lexer over rules that never leave the text does not leave it, either. -/
theorem Visited.inText (hQ : Rule.Confines source Q) {start lx : Lexer ρ κ}
    {noted saved : List Checkpoint} (hstart : start.InText source Q)
    (hnoted : ∀ p ∈ noted, Cursor.Noted source p) (h : Visited start noted lx saved) :
    lx.InText source Q ∧ ∀ p ∈ saved, Cursor.Noted source p := by
  refine Visited.kept (preserves_round hQ) (fun _ h => ⟨h.placed, h.rules⟩) ?_ hstart hnoted h
  intro lx c saved saved' hlx hsaved hroams
  obtain ⟨hplaced, hsaved'⟩ := hlx.placed.roams hsaved hroams
  exact ⟨⟨hplaced, hlx.rules⟩, hsaved'⟩

end Calls

/-! ## Where an error leaves the lexer -/

/-- A round that fails leaves the cursor where it was, and complains about that place. -/
theorem round_failed (hQ : Rule.Confines source Q) {lx lx' : Lexer ρ κ} {e : LexError}
    (h : lx.InText source Q) (hround : round lx = (.error (.failed e), lx')) :
    lx'.cursor = lx.cursor ∧ e.position = lx.cursor.position ∧
      ∀ ch p, e = .invalidCharacter ch p → lx.cursor.peek = some ch := by
  obtain ⟨rules, -, ⟨lexeme, c, hplaced, hturn⟩ | hturn⟩ := h.round_cases hQ
  · rw [hturn] at hround
    by_cases hstuck : c.offset = lx.cursor.offset
    · -- the rule may have been elsewhere, but it has come back
      rw [if_pos hstuck] at hround
      cases hround
      refine ⟨hplaced.eq_of_offset h.placed hstuck, rfl, ?_⟩
      intro ch p heq
      exact nomatch heq
    · rw [if_neg hstuck] at hround
      exact nomatch hround
  · rw [hturn] at hround
    cases hround
    exact ⟨rfl, position_unmatched _, fun _ _ heq => peek_of_unmatched heq⟩

/-- Without memory, such a round changes nothing. -/
theorem eq_of_round_failed [Subsingleton ρ] (hQ : Rule.Confines source Q) {lx lx' : Lexer ρ κ}
    {e : LexError} (h : lx.InText source Q) (hround : round lx = (.error (.failed e), lx')) :
    lx' = lx := by
  have hcursor := (round_failed hQ h hround).1
  have hrules : lx'.rules = lx.rules := by
    rw [← rules_round lx, hround]
  obtain ⟨rules, -, ⟨_, _, -, hturn⟩ | hturn⟩ := h.round_cases hQ
  · obtain rfl := congrArg Prod.snd (hround.symm.trans hturn)
    cases hcursor
    cases hrules
    rfl
  · obtain rfl := congrArg Prod.snd (hround.symm.trans hturn)
    cases hrules
    rfl

/-- Rounds that are skipped lead from the one lexer to the other. -/
inductive Skips : Lexer ρ κ → Lexer ρ κ → Prop where
  | none {lx : Lexer ρ κ} : Skips lx lx
  | round {lx lx₁ lx' : Lexer ρ κ} : lx.isEof = false → round lx = (.ok .skip, lx₁) →
      Skips lx₁ lx' → Skips lx lx'

/-- What rounds preserve is preserved by those that are skipped. -/
theorem Skips.kept {I : Lexer ρ κ → Prop} (hround : Run.Preserves I Lexer.round)
    {lx lx' : Lexer ρ κ} (hskips : Skips lx lx') (h : I lx) : I lx' := by
  induction hskips with
  | none => exact h
  | @round lx _ _ _ hskip _ ih =>
      have hnext := hround lx h
      rw [hskip] at hnext
      exact ih hnext

/-- Rounds that are skipped stay in the text like all others. -/
theorem Skips.inText (hQ : Rule.Confines source Q) {lx lx' : Lexer ρ κ} (hskips : Skips lx lx')
    (h : lx.InText source Q) : lx'.InText source Q := hskips.kept (preserves_round hQ) h

section Failed

variable [TokenKind κ]

/-- A call that comes to an answer has skipped some rounds; then it was at the end of the input, or
    a round has given the answer. -/
theorem nextToken_skips {fuel : Nat} {lx lx' : Lexer ρ κ} {r : Except (Halt LexError) (Token κ)}
    (h : nextToken fuel lx = (r, lx')) :
    r = .error .outOfFuel ∨ ∃ lx₁, Skips lx lx₁ ∧
      (lx₁.isEof = true ∧ r = .ok lx₁.eofToken ∧ lx' = lx₁ ∨
        lx₁.isEof = false ∧ round lx₁ = (r.map .token, lx')) := by
  -- on the fuel: a round that is skipped is put before those of the rest of the call
  induction fuel generalizing lx with
  | zero => exact Or.inl (congrArg Prod.fst h).symm
  | succ fuel ih =>
      cases hend : lx.isEof with
      | true =>
          rw [nextToken_of_end hend] at h
          cases h
          exact Or.inr ⟨_, .none, Or.inl ⟨hend, rfl, rfl⟩⟩
      | false =>
          rcases hround : round lx with ⟨e | ⟨t⟩ | _, lx₁⟩
          · rw [nextToken_of_error hend hround] at h
            cases h
            exact Or.inr ⟨lx, .none, Or.inr ⟨hend, hround⟩⟩
          · rw [nextToken_of_token hend hround] at h
            cases h
            exact Or.inr ⟨lx, .none, Or.inr ⟨hend, hround⟩⟩
          · rw [nextToken_of_skip hend hround] at h
            rcases ih h with hfuel | ⟨lx₂, hskips, hanswer⟩
            · exact Or.inl hfuel
            · exact Or.inr ⟨lx₂, .round hend hround hskips, hanswer⟩

/-- A call that fails has skipped some rounds, and then a round has failed. -/
theorem nextToken_failed {fuel : Nat} {lx lx' : Lexer ρ κ} {e : LexError}
    (h : nextToken fuel lx = (.error (.failed e), lx')) :
    ∃ lx₁, Skips lx lx₁ ∧ lx₁.isEof = false ∧ round lx₁ = (.error (.failed e), lx') := by
  rcases nextToken_skips h with hfuel | ⟨lx₁, hskips, ⟨-, hanswer, -⟩ | hfailed⟩
  · cases hfuel
  · cases hanswer
  · exact ⟨lx₁, hskips, hfailed⟩

/-- The lexer is left at the place of the failed round, behind all that was skipped. -/
theorem nextToken_failed_place (hQ : Rule.Confines source Q) {fuel : Nat} {lx lx' : Lexer ρ κ}
    {e : LexError} (h : lx.InText source Q)
    (hfail : nextToken fuel lx = (.error (.failed e), lx')) :
    lx'.cursor.position = e.position ∧ lx'.cursor.offset = e.position.offset ∧
      (∀ ch p, e = .invalidCharacter ch p → lx'.cursor.peek = some ch) ∧
      ∃ lx₁, Skips lx lx₁ ∧ lx'.cursor = lx₁.cursor := by
  obtain ⟨lx₁, hskips, -, hround⟩ := nextToken_failed hfail
  have hlx₁ := hskips.inText hQ h
  obtain ⟨hcursor, hposition, hpeek⟩ := round_failed hQ hlx₁ hround
  obtain ⟨_, -, -, hoffset⟩ := hlx₁.placed.cut
  rw [hcursor, hposition]
  refine ⟨rfl, ?_, hpeek, lx₁, hskips, rfl⟩
  rw [hoffset]

/-- Without memory the error is had again and again, and nothing changes. -/
theorem nextToken_failed_again [Subsingleton ρ] (hQ : Rule.Confines source Q) {fuel : Nat}
    {lx lx' : Lexer ρ κ} {e : LexError} (h : lx.InText source Q)
    (hfail : nextToken fuel lx = (.error (.failed e), lx')) (again : Nat) :
    nextToken (again + 1) lx' = (.error (.failed e), lx') := by
  obtain ⟨lx₁, hskips, hend, hround⟩ := nextToken_failed hfail
  obtain rfl := eq_of_round_failed hQ (hskips.inText hQ h) hround
  exact nextToken_of_error hend hround again

end Failed

end Lexer

/-! ## Rules that keep to the cursor -/

/-- Marks that are noted have been made in the text, so a rule that keeps to them roams there. -/
theorem Rule.KeepsTo.roaming {r : Rule ρ κ} {noted : List Checkpoint} (h : r.KeepsTo noted)
    (hnoted : ∀ p ∈ noted, Cursor.Noted source p) : r.Roaming source := by
  obtain ⟨marks, hroams, hmarks⟩ := h
  exact ⟨marks, hroams, fun p hp => hnoted p (hmarks p hp)⟩

namespace Pattern

/-- A literal is followed by steps, wherever they stop. -/
theorem followLiteral_roams (chars : List Char) {c d : Cursor} {saved noted : List Checkpoint}
    (h : Cursor.Roams c saved d noted) :
    Cursor.Roams c saved (followLiteral chars d).2 noted := by
  induction chars generalizing d with
  | nil => exact h
  | cons ch chars ih =>
      rw [followLiteral]
      rcases hstep : d.advance with ⟨_ | found, d'⟩
      · have hd' := h.advance
        rw [hstep] at hd'
        exact hd'
      · have hd' := h.advance
        rw [hstep] at hd'
        dsimp only
        split
        · exact ih hd'
        · exact hd'

/-- The only mark that a pattern goes back to is the one it remembers. -/
theorem tryBody_roams {p : Pattern} (hbody : ∀ tryMatch, p.body ≠ .borrowed tryMatch)
    (place : Option Checkpoint) (c : Cursor) :
    ∃ noted, Cursor.Roams c place.toList (p.tryBody place c).2.2 noted ∧
      ∀ q ∈ (p.tryBody place c).2.1.toList, q ∈ noted := by
  obtain ⟨_, body, _, _, _, _⟩ := p
  cases body with
  | run cls least most =>
      refine ⟨place.toList, ?_, fun _ hq => hq⟩
      cases most with
      | none => exact .consume _ _ .stay
      | some limit => exact .consume _ _ .stay
  | literal chars => exact ⟨place.toList, followLiteral_roams chars .stay, fun _ hq => hq⟩
  | nothing => exact ⟨place.toList, .stay, fun _ hq => hq⟩
  | stumble => exact ⟨place.toList, .advance (.advance .stay), fun _ hq => hq⟩
  -- the first use notes the place, and the later ones return to it
  | goBack =>
      cases place with
      | none => exact ⟨[c.checkpoint], .checkpoint .stay, fun _ hq => hq⟩
      | some saved => exact ⟨[saved], .restore List.mem_cons_self .stay, fun _ hq => hq⟩
  | borrowed tryMatch => exact absurd rfl (hbody tryMatch)

/-- Patterns keep to the cursor, except for borrowed ones, of which nothing is known. -/
theorem keepsTo {p : Pattern} (hbody : ∀ tryMatch, p.body ≠ .borrowed tryMatch)
    (noted : List Checkpoint) : p.rule.KeepsTo noted := by
  refine ⟨fun m => m.place.toList, ?_, fun _ hq => nomatch hq⟩
  intro memory c
  show ∃ noted, Cursor.Roams c memory.place.toList (p.tryMatch memory c).2.2 noted ∧
    ∀ q ∈ (p.tryMatch memory c).2.1.place.toList, q ∈ noted
  rw [tryMatch]
  split
  · exact ⟨memory.place.toList, .stay, fun _ hq => hq⟩
  · have htry := tryBody_roams hbody memory.place c
    rcases hout : p.tryBody memory.place c with ⟨_ | lexeme, place, c'⟩
    · rw [hout] at htry
      exact htry
    · rw [hout] at htry
      exact htry

end Pattern

namespace ListLang

/-- The rules of the list language have no marks to remember. -/
theorem keepsTo_of_mem_rules {r : Rule Unit Kind} (hr : r ∈ rules) (noted : List Checkpoint) :
    r.KeepsTo noted := by
  refine ⟨fun _ => [], ?_, fun _ h => nomatch h⟩
  intro _ c
  refine ⟨[], ?_, fun _ h => nomatch h⟩
  simp only [rules, List.mem_cons, List.not_mem_nil, or_false] at hr
  rcases hr with rfl | rfl | rfl
  · exact .consume _ _ .stay
  · rw [punctuationRule]
    dsimp only
    split
    · exact .stay
    · exact .advance .stay
  · exact .consume _ _ .stay

end ListLang

namespace Lexer

/-- **A lexical error leaves the lexer at the place it reports.**  The rules may be any that handle
    the cursor by its operations, on marks of that cursor, and the lexer any that calls and moves
    have led to.  When a call fails, the cursor stands where the failed round began, behind all that
    was skipped before; its position and offset are those of the error, and a character that is
    reported is the next one.  The lexer of the list language then gives the same error to every
    further call and changes nothing. -/
theorem error_at_reported_place :
    (∀ {ρ κ : Type} [TokenKind κ] [DecidableEq κ] {source : SourceText} {c : Cursor}
      {noted saved : List Checkpoint} {declared : List (Rule ρ κ)} {atEnd : Cursor → Bool}
      {lx lx' : Lexer ρ κ} {fuel : Nat} {e : LexError},
      Cursor.Reached source c noted → (∀ r ∈ declared, r.KeepsTo noted) →
      Visited (new declared c atEnd) noted lx saved →
      nextToken fuel lx = (.error (.failed e), lx') →
      lx'.cursor.position = e.position ∧ lx'.cursor.offset = e.position.offset ∧
        (∀ ch p, e = .invalidCharacter ch p → lx'.cursor.peek = some ch) ∧
        ∃ lx₁, Skips lx lx₁ ∧ lx'.cursor = lx₁.cursor) ∧
    ∀ {text : String} {saved : List Checkpoint} {lx lx' : ListLang.ListLexer} {fuel : Nat}
      {e : LexError}, Visited (ListLang.ListLexer.ofText text) [] lx saved →
      nextToken fuel lx = (.error (.failed e), lx') →
      ∀ again, nextToken (again + 1) lx' = (.error (.failed e), lx') := by
  constructor
  · intro ρ κ _ _ source c noted saved declared atEnd lx lx' fuel e hc hrules hlx hfail
    obtain ⟨hplaced, hnoted⟩ := hc.placed
    have hstart := inText_new hplaced (fun r hr => (hrules r hr).roaming hnoted) atEnd
    have hin := (hlx.inText Rule.confines_roaming hstart hnoted).1
    exact nextToken_failed_place Rule.confines_roaming hin hfail
  · intro text saved lx lx' fuel e hlx hfail again
    have hnoted : ∀ p ∈ [], Cursor.Noted ⟨0, text.toList⟩ p := fun _ hp => nomatch hp
    have hplaced : (Cursor.ofText text).Placed ⟨0, text.toList⟩ := Cursor.placed_ofSource
    have hstart := inText_new hplaced
      (fun r hr => (ListLang.keepsTo_of_mem_rules hr []).roaming hnoted) Cursor.isEof
    have hin := (hlx.inText Rule.confines_roaming hstart hnoted).1
    exact nextToken_failed_again Rule.confines_roaming hin hfail again

/-- Behind the blank that it has skipped, a lexer gets stuck twice at the same character.  First no
    rule takes it; the second time the pattern that goes back to a mark does, and matches nothing
    there.  The lexer of the list language stays with its first complaint. -/
theorem error_at_reported_place_twice :
    let blank := (Pattern.mk "b" (.run .blank 1 none) 1 .unknown true none).rule
    let back := (Pattern.mk "g" .goBack 0 .unknown false none).rule
    let start := new [blank, back] (Cursor.ofText " ?") Cursor.isEof
    let once := (nextToken 9 start).2
    let twice := (nextToken 9 once).2
    (nextToken 9 start).1 = .error (.failed (.invalidCharacter '?' ⟨1, 2, 1⟩)) ∧
      (nextToken 9 once).1 = .error (.failed (.noProgress ⟨1, 2, 1⟩)) ∧
      twice.cursor.position = ⟨1, 2, 1⟩ ∧ twice.cursor.offset = 1 ∧
      ∀ again, nextToken (again + 1) (nextToken 9 (ListLang.ListLexer.ofText " ?")).2 =
        (.error (.failed (.invalidCharacter '?' ⟨1, 2, 1⟩)),
          (nextToken 9 (ListLang.ListLexer.ofText " ?")).2) := by
  intro blank back start once twice
  have hrules : ∀ r ∈ [blank, back], r.KeepsTo [] := by
    intro r hr
    simp only [List.mem_cons, List.not_mem_nil, or_false] at hr
    rcases hr with rfl | rfl
    · exact Pattern.keepsTo (by nofun) []
    · exact Pattern.keepsTo (by nofun) []
  have hfirst : (nextToken 9 start).1 = .error (.failed (.invalidCharacter '?' ⟨1, 2, 1⟩)) := rfl
  have hsecond : (nextToken 9 once).1 = .error (.failed (.noProgress ⟨1, 2, 1⟩)) := rfl
  have hlist : (nextToken 9 (ListLang.ListLexer.ofText " ?")).1 =
      .error (.failed (.invalidCharacter '?' ⟨1, 2, 1⟩)) := rfl
  obtain ⟨hposition, hoffset, -⟩ := error_at_reported_place.1 .start hrules
    (.nextToken 9 .start) (Prod.ext hsecond rfl)
  exact ⟨hfirst, hsecond, hposition, hoffset,
    error_at_reported_place.2 .start (Prod.ext hlist rfl)⟩

end Lexer

end Packrat
