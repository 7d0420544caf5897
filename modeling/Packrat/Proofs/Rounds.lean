import Packrat.Lex.Lexer

/-! # A lexer step by step

    Each way in which a round of rules, a call for the next token and a step of the
    sequence of tokens can end, as an equation.  Nothing after it has to open these
    functions again. -/

namespace Packrat

variable {ρ κ : Type}

/-- A rule whose guess is a class of characters declines all others. -/
theorem Rule.declines_class {r : Rule ρ κ} (p : Char → Bool)
    (h : r.quickCheck r.memory = Option.map p) (c : Char) : r.declines (some c) = !p c := by
  rw [declines, h]
  cases hc : p c <;> simp [hc]

namespace Lexer

variable {next : Option Char} {r r' : Rule ρ κ} {c c' : Cursor}

/-- A rule that declines is passed over. -/
theorem firstMatch_of_declines {rs : List (Rule ρ κ)} (h : r.declines next = true) :
    firstMatch next c (r :: rs) = ((firstMatch next c rs).1, (firstMatch next c rs).2.1,
      r :: (firstMatch next c rs).2.2) := by
  rw [firstMatch, if_pos h]

/-- A rule that matches decides the round. -/
theorem firstMatch_of_hit {lexeme : Lexeme (Token κ)} (rs : List (Rule ρ κ))
    (h : r.declines next = false) (hhit : r.attempt c = (some lexeme, c', r')) :
    firstMatch next c (r :: rs) = (some lexeme, c', r' :: rs) := by
  rw [firstMatch, h, if_neg Bool.false_ne_true, hhit]

/-- After a rule that fails the next one gets the cursor. -/
theorem firstMatch_of_miss {rs : List (Rule ρ κ)} (h : r.declines next = false)
    (hmiss : r.attempt c = (none, c', r')) :
    firstMatch next c (r :: rs) = ((firstMatch next c' rs).1, (firstMatch next c' rs).2.1,
      r' :: (firstMatch next c' rs).2.2) := by
  rw [firstMatch, h, if_neg Bool.false_ne_true, hmiss]

/-- A match that moves the cursor onward is the answer. -/
theorem round_of_hit {lx : Lexer ρ κ} {lexeme : Lexeme (Token κ)}
    (h : firstMatch lx.cursor.peek lx.cursor lx.rules = (some lexeme, c, lx.rules))
    (hmoved : lx.cursor.offset < c.offset) : round lx = (.ok lexeme, { lx with cursor := c }) := by
  rw [round, h]
  exact if_neg (Nat.ne_of_gt hmoved)

/-- However a round ends, it leaves the rules as their turns have left them. -/
theorem rules_snd_round (lx : Lexer ρ κ) :
    (round lx).2.rules = (firstMatch lx.cursor.peek lx.cursor lx.rules).2.2 := by
  rw [round]
  rcases firstMatch lx.cursor.peek lx.cursor lx.rules with ⟨_ | lexeme, c, rules⟩
  · rfl
  · dsimp only
    split
    · rfl
    · rfl

variable [TokenKind κ]

/-- At the end of the input no rule is tried. -/
theorem nextToken_of_end {lx : Lexer ρ κ} (h : lx.isEof = true) (fuel : Nat) :
    nextToken (fuel + 1) lx = (.ok lx.eofToken, lx) := by
  rw [nextToken, Run.read_bind, if_pos h]
  rfl

/-- A token that a round has found is the answer. -/
theorem nextToken_of_token {lx lx' : Lexer ρ κ} {t : Token κ} (h : lx.isEof = false)
    (hround : round lx = (.ok (.token t), lx')) (fuel : Nat) :
    nextToken (fuel + 1) lx = (.ok t, lx') := by
  rw [nextToken, Run.read_bind, h, if_neg Bool.false_ne_true, Run.bind_of_ok hround]
  rfl

/-- A lexeme that is skipped takes one round, and the call goes on. -/
theorem nextToken_of_skip {lx lx' : Lexer ρ κ} (h : lx.isEof = false)
    (hround : round lx = (.ok .skip, lx')) (fuel : Nat) :
    nextToken (fuel + 1) lx = nextToken fuel lx' := by
  rw [nextToken, Run.read_bind, h, if_neg Bool.false_ne_true, Run.bind_of_ok hround]

/-- An error of a round is one of the call. -/
theorem nextToken_of_error {lx lx' : Lexer ρ κ} {e : Halt LexError} (h : lx.isEof = false)
    (hround : round lx = (.error e, lx')) (fuel : Nat) :
    nextToken (fuel + 1) lx = (.error e, lx') := by
  rw [nextToken, Run.read_bind, h, if_neg Bool.false_ne_true, Run.bind_of_error hround]

variable [DecidableEq κ]

/-- Behind its end the sequence is empty. -/
theorem next?_of_done {lx : Lexer ρ κ} (h : lx.done = true) (fuel : Nat) :
    next? fuel lx = (.ok none, lx) := by
  rw [next?, Run.read_bind, if_pos h]
  rfl

/-- An ordinary token is the next one of the sequence. -/
theorem next?_of_token {lx lx' : Lexer ρ κ} {fuel : Nat} {t : Token κ} (h : lx.done = false)
    (hnext : nextToken fuel lx = (.ok t, lx')) (ht : t.isEof = false) :
    next? fuel lx = (.ok (some t), lx') := by
  rw [next?, Run.read_bind, h, if_neg Bool.false_ne_true,
    Run.bind_of_ok (Run.settle_of_ok hnext)]
  show (if t.isEof = true then _ else _ : Run (Lexer ρ κ) LexError (Option (Token κ))) lx' = _
  rw [ht, if_neg Bool.false_ne_true]
  rfl

/-- The end-of-input token closes the sequence and is not part of it. -/
theorem next?_of_eof {lx lx' : Lexer ρ κ} {fuel : Nat} {t : Token κ} (h : lx.done = false)
    (hnext : nextToken fuel lx = (.ok t, lx')) (ht : t.isEof = true) :
    next? fuel lx = (.ok none, lx'.finish) := by
  rw [next?, Run.read_bind, h, if_neg Bool.false_ne_true,
    Run.bind_of_ok (Run.settle_of_ok hnext)]
  show (if t.isEof = true then _ else _ : Run (Lexer ρ κ) LexError (Option (Token κ))) lx' = _
  rw [if_pos ht]
  rfl

/-- An error closes it, too. -/
theorem next?_of_error {lx lx' : Lexer ρ κ} {fuel : Nat} {e : LexError} (h : lx.done = false)
    (hnext : nextToken fuel lx = (.error (.failed e), lx')) :
    next? fuel lx = (.error (.failed e), lx'.finish) := by
  rw [next?, Run.read_bind, h, if_neg Bool.false_ne_true,
    Run.bind_of_ok (Run.settle_of_failed hnext)]
  rfl

/-- Behind the end there are no items. -/
theorem itemsUpTo_of_none {lx lx' : Lexer ρ κ} {fuel : Nat} (h : next? fuel lx = (.ok none, lx'))
    (count : Nat) : itemsUpTo fuel (count + 1) lx = (.ok [], lx') := by
  rw [itemsUpTo, Run.bind_of_ok (Run.settle_of_ok h)]
  rfl

/-- A token is an item, and the others follow. -/
theorem itemsUpTo_of_some {lx lx' lx'' : Lexer ρ κ} {fuel count : Nat} {t : Token κ}
    {rest : List (Except LexError (Token κ))} (h : next? fuel lx = (.ok (some t), lx'))
    (hrest : itemsUpTo fuel count lx' = (.ok rest, lx'')) :
    itemsUpTo fuel (count + 1) lx = (.ok (.ok t :: rest), lx'') := by
  rw [itemsUpTo, Run.bind_of_ok (Run.settle_of_ok h)]
  exact Run.bind_of_ok hrest

/-- An error is an item, too, and it does not keep the rest from being read. -/
theorem itemsUpTo_of_error {lx lx' lx'' : Lexer ρ κ} {fuel count : Nat} {e : LexError}
    {rest : List (Except LexError (Token κ))} (h : next? fuel lx = (.error (.failed e), lx'))
    (hrest : itemsUpTo fuel count lx' = (.ok rest, lx'')) :
    itemsUpTo fuel (count + 1) lx = (.ok (.error e :: rest), lx'') := by
  rw [itemsUpTo, Run.bind_of_ok (Run.settle_of_failed h)]
  exact Run.bind_of_ok hrest

end Lexer

end Packrat
