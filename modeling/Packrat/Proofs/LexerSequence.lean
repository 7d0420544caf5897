import Packrat.Proofs.Discipline
import Packrat.Proofs.LexerProgress

/-! # The sequence of tokens and its end

    A lexer is asked for its next token, or it is read as a sequence; both draw on
    one cursor.  The sequence has a memory besides: once it has come to its end it
    is empty, wherever the cursor stands.  What an empty rest says of the text
    therefore depends on how the sequence came to its end (`Lexer.Stepped`).

    When no rule makes an end-of-input token and no reading of the sequence has
    failed, the sequence is closed at the end of the input only, whatever calls were
    made in which order (`Lexer.Called.awake`).  Then the list of its tokens is the
    list of all that was left in the text (`Lexer.tokenize_reads_on`).  Behind an
    error the list is empty although there is text left, and behind a token that a
    rule has marked as the last it breaks off (`Lexer.tokenize_breaks_off`). -/

namespace Packrat

variable {ρ κ : Type} [TokenKind κ] [DecidableEq κ]

/-- Whatever the rule remembers, the tokens that it makes do not mark the end of the input. -/
def Rule.Ordinary (r : Rule ρ κ) : Prop :=
  ∀ memory c t memory' c',
    r.tryMatch memory c = (some (.token t), memory', c') → t.isEof = false

/-- A try changes what the rule remembers, and that does not matter. -/
theorem Rule.Ordinary.after {r : Rule ρ κ} (h : r.Ordinary) (c : Cursor) :
    (r.after c).Ordinary := h

namespace Lexer

variable {lx lx' : Lexer ρ κ} {fuel : Nat}

/-! ## Calls for the next token -/

omit [DecidableEq κ] in
/-- At the end of the input a call changes nothing. -/
theorem snd_nextToken_of_end (h : lx.isEof = true) (fuel : Nat) : (nextToken fuel lx).2 = lx := by
  cases fuel with
  | zero => rfl
  | succ fuel => rw [nextToken_of_end h]

/-- The rules are ordinary ones, and the sequence is closed, or open. -/
def Ordinary (closed : Bool) (lx : Lexer ρ κ) : Prop :=
  (∀ r ∈ lx.rules, r.Ordinary) ∧ lx.done = closed

/-- Ordinary rules are tried with whatever cursor, and stay ordinary. -/
theorem kept_ordinary (next : Option Char) :
    Kept next (fun _ => True) (Rule.Ordinary : Rule ρ κ → Prop) where
  after := fun hr _ => hr.after _
  back := fun _ _ _ _ => trivial

/-- A round leaves ordinary rules ordinary, and neither opens the sequence nor closes it. -/
theorem preserves_ordinary (closed : Bool) :
    Run.Preserves (Ordinary closed) (round (ρ := ρ) (κ := κ)) := by
  rintro lx ⟨hordinary, hdone⟩
  obtain ⟨rules, hkept, ⟨_, _, _, _, _, -, -, -, -, -, hround⟩ | ⟨_, -, -, hround⟩⟩ :=
    round_found (kept_ordinary _) trivial hordinary
  · rw [hround]
    exact ⟨hkept, hdone⟩
  · rw [hround]
    exact ⟨hkept, hdone⟩

/-- A token of a round has been made by one of the rules. -/
theorem isEof_of_round (h : ∀ r ∈ lx.rules, r.Ordinary) {t : Token κ}
    (hround : round lx = (.ok (.token t), lx')) : t.isEof = false := by
  obtain ⟨_, -, ⟨w, _, lexeme, memory, c, hw, -, -, -, hmatch, hturn⟩ | ⟨_, -, -, hturn⟩⟩ :=
    round_found (kept_ordinary _) trivial h
  · have hanswer := congrArg Prod.fst (hround.symm.trans hturn)
    dsimp only at hanswer
    split at hanswer
    · exact nomatch hanswer
    · cases hanswer
      exact hw _ _ _ _ _ hmatch
  · exact nomatch congrArg Prod.fst (hround.symm.trans hturn)

/-- Among ordinary rules the end-of-input token is had at the end of the input only. -/
theorem isEof_of_nextToken (h : ∀ r ∈ lx.rules, r.Ordinary) {t : Token κ}
    (hnext : nextToken fuel lx = (.ok t, lx')) (ht : t.isEof = true) : lx'.isEof = true := by
  rcases nextToken_skips hnext with hfuel | ⟨lx₁, hskips, ⟨hend, -, rfl⟩ | ⟨-, hround⟩⟩
  · cases hfuel
  · exact hend
  · have hrules : lx₁.Ordinary lx.done := hskips.kept (preserves_ordinary lx.done) ⟨h, rfl⟩
    rw [isEof_of_round hrules.1 hround] at ht
    exact nomatch ht

/-! ## Steps of the sequence -/

/-- How a step of the sequence ends. -/
inductive Stepped (fuel : Nat) (lx : Lexer ρ κ) :
    Except (Halt LexError) (Option (Token κ)) → Lexer ρ κ → Prop where
  | behind : lx.done = true → Stepped fuel lx (.ok none) lx
  | token {t : Token κ} {lx' : Lexer ρ κ} : lx.done = false →
      nextToken fuel lx = (.ok t, lx') → t.isEof = false → Stepped fuel lx (.ok (some t)) lx'
  | closed {t : Token κ} {lx' : Lexer ρ κ} : lx.done = false →
      nextToken fuel lx = (.ok t, lx') → t.isEof = true → Stepped fuel lx (.ok none) lx'.finish
  | failed {e : LexError} {lx' : Lexer ρ κ} : lx.done = false →
      nextToken fuel lx = (.error (.failed e), lx') →
      Stepped fuel lx (.error (.failed e)) lx'.finish
  | halted {h : Halt LexError} {lx' : Lexer ρ κ} : isSettled (.error h : Except _ Unit) = false →
      Stepped fuel lx (.error h) lx'

/-- The four ways of a step: the sequence was closed, or a call gives a token of it, its end, or an
    error. -/
theorem next?_stepped (fuel : Nat) (lx : Lexer ρ κ) :
    Stepped fuel lx (next? fuel lx).1 (next? fuel lx).2 := by
  cases hdone : lx.done with
  | true =>
      rw [next?_of_done hdone]
      exact .behind hdone
  | false =>
      rcases hnext : nextToken fuel lx with ⟨(e | _ | _) | t, lx'⟩
      · rw [next?_of_error hdone hnext]
        exact .failed hdone hnext
      · rw [next?, Run.read_bind, hdone, if_neg Bool.false_ne_true,
          Run.bind_of_error (Run.settle_of_fault hnext)]
        exact .halted rfl
      · rw [next?, Run.read_bind, hdone, if_neg Bool.false_ne_true,
          Run.bind_of_error (Run.settle_of_outOfFuel hnext)]
        exact .halted rfl
      · cases ht : t.isEof with
        | false =>
            rw [next?_of_token hdone hnext ht]
            exact .token hdone hnext ht
        | true =>
            rw [next?_of_eof hdone hnext ht]
            exact .closed hdone hnext ht

/-- Calls for the next token give these tokens one after the other, and then the end-of-input token,
    at the end of the input. -/
inductive Reads : Lexer ρ κ → List (Token κ) → Lexer ρ κ → Prop where
  | nil {fuel : Nat} {lx lx' : Lexer ρ κ} {t : Token κ} : nextToken fuel lx = (.ok t, lx') →
      t.isEof = true → lx'.isEof = true → Reads lx [] lx'
  | cons {fuel : Nat} {lx lx₁ lx' : Lexer ρ κ} {t : Token κ} {tokens : List (Token κ)} :
      nextToken fuel lx = (.ok t, lx₁) → t.isEof = false → Reads lx₁ tokens lx' →
      Reads lx (t :: tokens) lx'

/-- What has been read to the end has been read up to the end of the input. -/
theorem Reads.isEof {tokens : List (Token κ)} (h : Reads lx tokens lx') : lx'.isEof = true := by
  induction h with
  | nil _ _ hend => exact hend
  | cons _ _ _ ih => exact ih

/-- The sequence is closed at the end of the input only. -/
structure Awake (lx : Lexer ρ κ) : Prop where
  rules : ∀ r ∈ lx.rules, r.Ordinary
  closed : lx.done = true → lx.isEof = true

namespace Awake

/-- A call for a token neither closes the sequence nor hides its end. -/
theorem nextToken (h : lx.Awake) (fuel : Nat) : (nextToken fuel lx).2.Awake := by
  cases hdone : lx.done with
  | true =>
      rw [snd_nextToken_of_end (h.closed hdone)]
      exact h
  | false =>
      obtain ⟨hrules, hopen⟩ := preserves_nextToken (preserves_ordinary false) fuel lx
        ⟨h.rules, hdone⟩
      exact ⟨hrules, fun hclosed => nomatch hopen.symm.trans hclosed⟩

/-- A step that does not fail closes the sequence at the end of the input only. -/
theorem next? (h : lx.Awake) {answer : Option (Token κ)}
    (hnext : next? fuel lx = (.ok answer, lx')) : lx'.Awake := by
  have hstepped := next?_stepped fuel lx
  rw [hnext] at hstepped
  cases hstepped with
  | behind _ => exact h
  | token _ hcall _ =>
      have hawake := h.nextToken fuel
      rw [hcall] at hawake
      exact hawake
  | @closed t lx₁ _ hcall ht =>
      have hawake := h.nextToken fuel
      rw [hcall] at hawake
      have hend : lx₁.isEof = true := isEof_of_nextToken h.rules hcall ht
      exact ⟨hawake.rules, fun _ => hend⟩

/-- Without an error among the items, they are the tokens up to the end of the input. -/
theorem itemsUpTo {count : Nat} {items : List (Except LexError (Token κ))}
    {tokens : List (Token κ)} (h : lx.Awake) (hitems : itemsUpTo fuel count lx = (.ok items, lx'))
    (htokens : items.mapM id = .ok tokens) :
    lx'.Awake ∧ ∃ lx₁, Reads lx tokens lx₁ ∧ lx' = lx₁.finish := by
  -- on the count: each call is one of the ways a step of the sequence can go
  induction count generalizing lx items tokens with
  | zero => cases hitems
  | succ count ih =>
      have hstepped := next?_stepped fuel lx
      rcases hnext : Lexer.next? fuel lx with ⟨answer, lx₁⟩
      rw [hnext] at hstepped
      cases hstepped with
      | behind hdone =>
          rw [itemsUpTo_of_none hnext] at hitems
          cases hitems
          cases htokens
          have hend := h.closed hdone
          refine ⟨h, _, .nil (nextToken_of_end hend 0) (Token.isEof_endOfInput _ _) hend, ?_⟩
          rw [finish, ← hdone]
      -- the token goes before what the rest of the sequence reads
      | @token t _ _ hcall ht =>
          rcases hrest : Lexer.itemsUpTo fuel count lx₁ with ⟨e | rest, lx₂⟩
          · rw [Lexer.itemsUpTo, Run.bind_of_ok (Run.settle_of_ok hnext)] at hitems
            cases hitems.symm.trans (Run.bind_of_error hrest)
          · rw [itemsUpTo_of_some hnext hrest] at hitems
            cases hitems
            rw [List.mapM_cons] at htokens
            cases hlater : rest.mapM id with
            | error e =>
                rw [hlater] at htokens
                cases htokens
            | ok later =>
                rw [hlater] at htokens
                cases htokens
                obtain ⟨hawake, lx₃, hreads, hlast⟩ := ih (h.next? hnext) hrest hlater
                exact ⟨hawake, lx₃, .cons hcall ht hreads, hlast⟩
      | @closed t lx₂ hdone hcall ht =>
          have hawake := h.next? hnext
          rw [itemsUpTo_of_none hnext] at hitems
          cases hitems
          cases htokens
          exact ⟨hawake, lx₂, .nil hcall ht (isEof_of_nextToken h.rules hcall ht), rfl⟩
      -- an error among the items is not a list of tokens, and the sequence was one
      | @failed e lx₂ hdone hcall =>
          rw [Lexer.itemsUpTo, Run.bind_of_ok (Run.settle_of_failed hnext)] at hitems
          obtain ⟨rest, lx₂, -, hlast⟩ := Run.bind_eq_ok hitems
          cases hlast
          rw [List.mapM_cons] at htokens
          cases htokens
      | @halted halt _ hhalt =>
          have hsettle : (Lexer.next? fuel).settle lx = (.error halt, lx₁) := by
            cases halt with
            | failed e => cases hhalt
            | fault c => exact Run.settle_of_fault hnext
            | outOfFuel => exact Run.settle_of_outOfFuel hnext
          rw [Lexer.itemsUpTo, Run.bind_of_error hsettle] at hitems
          cases hitems

/-- Without an error the tokens are all that was left, and the sequence is closed behind them. -/
theorem tokenize (h : lx.Awake) {tokens : List (Token κ)}
    (hall : tokenize fuel lx = (.ok tokens, lx')) :
    lx'.Awake ∧ ∃ lx₁, Reads lx tokens lx₁ ∧ lx' = lx₁.finish := by
  obtain ⟨items, lx₁, hitems, hmap⟩ := Run.bind_eq_ok hall
  cases htokens : items.mapM id with
  | error e =>
      rw [htokens] at hmap
      exact nomatch hmap
  | ok tokens' =>
      rw [htokens] at hmap
      cases hmap
      exact h.itemsUpTo hitems htokens

end Awake

/-! ## Calls in any order -/

/-- The lexers that calls for a token, steps of the sequence and readings of all of it lead to, each
    of which came to an answer.  It is noted whether a step or a reading has failed. -/
inductive Called (start : Lexer ρ κ) : (failed : Bool) → Lexer ρ κ → Prop where
  | start : Called start false start
  | nextToken {failed : Bool} {lx : Lexer ρ κ} (fuel : Nat) : Called start failed lx →
      isSettled (nextToken fuel lx).1 = true → Called start failed (nextToken fuel lx).2
  | next? {failed : Bool} {lx : Lexer ρ κ} (fuel : Nat) : Called start failed lx →
      isSettled (next? fuel lx).1 = true →
      Called start (failed || !(next? fuel lx).1.isOk) (next? fuel lx).2
  | tokenize {failed : Bool} {lx : Lexer ρ κ} (fuel : Nat) : Called start failed lx →
      isSettled (tokenize fuel lx).1 = true →
      Called start (failed || !(tokenize fuel lx).1.isOk) (tokenize fuel lx).2

/-- So it is after any calls of which none has failed. -/
theorem Called.awake {start : Lexer ρ κ} (hstart : start.Awake) {failed : Bool}
    (h : Called start failed lx) (hfailed : failed = false) : lx.Awake := by
  -- on the calls: the flag collects every failure, so that none of the earlier ones has failed
  induction h with
  | start => exact hstart
  | nextToken fuel _ _ ih => exact (ih hfailed).nextToken fuel
  | @next? _ lx fuel _ _ ih =>
      obtain ⟨hbefore, hok⟩ := Bool.or_eq_false_iff.mp hfailed
      rcases hnext : Lexer.next? fuel lx with ⟨e | answer, lx₁⟩
      · rw [hnext] at hok
        exact nomatch hok
      · exact (ih hbefore).next? hnext
  | @tokenize _ lx fuel _ _ ih =>
      obtain ⟨hbefore, hok⟩ := Bool.or_eq_false_iff.mp hfailed
      rcases hall : Lexer.tokenize fuel lx with ⟨e | tokens, lx₁⟩
      · rw [hall] at hok
        exact nomatch hok
      · exact ((ih hbefore).tokenize hall).1

/-- A new lexer has not begun with the sequence. -/
theorem awake_new {declared : List (Rule ρ κ)} (h : ∀ r ∈ declared, r.Ordinary) (c : Cursor)
    (atEnd : Cursor → Bool) : (new declared c atEnd).Awake where
  rules r hr := h r ((byPriority_perm declared).mem_iff.mp hr)
  closed := nofun

/-- **A list of all tokens leaves nothing unread**: on a lexer whose rules make no end-of-input
    token, whatever calls came before, if none that read the sequence has failed, then the lexer is
    at the end of the input behind a reading that succeeds, and the tokens read are those that calls
    for the next token would have given one after the other until then. -/
theorem tokenize_reads_on {declared : List (Rule ρ κ)} (hrules : ∀ r ∈ declared, r.Ordinary)
    {c : Cursor} {atEnd : Cursor → Bool} (hcalled : Called (new declared c atEnd) false lx)
    {tokens : List (Token κ)} (hall : tokenize fuel lx = (.ok tokens, lx')) :
    lx'.isEof = true ∧ ∃ lx₁, Reads lx tokens lx₁ ∧ lx' = lx₁.finish := by
  have hawake : lx.Awake := hcalled.awake (awake_new hrules c atEnd) rfl
  obtain ⟨-, lx₁, hreads, rfl⟩ := hawake.tokenize hall
  exact ⟨hreads.isEof, lx₁, hreads, rfl⟩

end Lexer

/-- The rules of the list language make no end-of-input token. -/
theorem ListLang.ordinary_of_mem_rules {r : Rule Unit Kind} (hr : r ∈ rules) : r.Ordinary := by
  simp only [rules, List.mem_cons, List.not_mem_nil, or_false] at hr
  intro memory c t memory' c' hmatch
  rcases hr with rfl | rfl | rfl
  · rw [blankRule] at hmatch
    dsimp only at hmatch
    split at hmatch
    · cases hmatch
    · cases hmatch
  · rw [punctuationRule] at hmatch
    dsimp only at hmatch
    cases hpeek : c.peek with
    | none =>
        rw [hpeek] at hmatch
        cases hmatch
    | some ch =>
        rw [hpeek, Option.bind_some] at hmatch
        cases hkind : Kind.ofPunctuation? ch with
        | none =>
            rw [hkind] at hmatch
            cases hmatch
        | some kind =>
            rw [hkind] at hmatch
            cases hmatch
            -- no mark of the grammar has the kind of the end of input
            unfold Kind.ofPunctuation? at hkind
            split at hkind <;> cases hkind <;> rfl
  · rw [identRule] at hmatch
    dsimp only at hmatch
    split at hmatch
    · cases hmatch
    · cases hmatch
      rfl

namespace Lexer

/-- The first token is called for, the second is a step of the sequence, and the rest is read. -/
theorem tokenize_reads_on_behind_steps :
    let start := ListLang.ListLexer.ofText "a [b "
    let once := (nextToken 9 start).2
    let twice := (next? 9 once).2
    ∃ tokens lx', tokenize 9 twice = (.ok tokens, lx') ∧ tokens.map Token.kind = [.ident] ∧
      lx'.isEof = true ∧ ∃ lx₁, Reads twice tokens lx₁ ∧ lx' = lx₁.finish := by
  intro start once twice
  have hcalled : Called start false twice :=
    .next? 9 (.nextToken 9 .start (by decide +kernel)) (by decide +kernel)
  have hall : (tokenize 9 twice).1.isOk = true := by decide +kernel
  have hkinds : ((tokenize 9 twice).1.toOption.map fun tokens => tokens.map Token.kind) =
      some [.ident] := by decide +kernel
  rcases htokens : tokenize 9 twice with ⟨e | tokens, lx'⟩
  · rw [htokens] at hall
    exact nomatch hall
  · rw [htokens] at hkinds
    obtain ⟨hend, hreads⟩ :=
      tokenize_reads_on (fun _ => ListLang.ordinary_of_mem_rules) hcalled htokens
    exact ⟨tokens, lx', rfl, Option.some.inj hkinds, hend, hreads⟩

/-- **An empty rest need not be the end**: behind an error the sequence is closed and its rest
    empty, with the character in question still ahead.  And a rule that marks a token as the last
    ends the sequence with it, in the middle of the text. -/
theorem tokenize_breaks_off :
    (∃ lx, Called (ListLang.ListLexer.ofText "?") true lx ∧
        tokenize 9 lx = (.ok [], lx) ∧ lx.isEof = false ∧ lx.cursor.peek = some '?') ∧
      let marker : Pattern := ⟨"end", .borrowed fun c =>
        (some (.token (.endOfInput c.position (c.sliceFrom c.offset))), c.advance.2), 0, .unknown,
        false, none⟩
      ∃ lx, tokenize 9 (new [marker.rule] (.ofText "ab") Cursor.isEof) = (.ok [], lx) ∧
        lx.isEof = false ∧ lx.cursor.peek = some 'b' := by
  constructor
  · exact ⟨_, .next? 9 .start (by decide +kernel), rfl, by decide +kernel, by decide +kernel⟩
  · exact ⟨_, rfl, by decide +kernel, by decide +kernel⟩

end Lexer

end Packrat
