import Packrat.Lex.Error
import Packrat.Lex.Rule
import Packrat.Run

/-! # The lexer

    A lexer cuts a text into tokens in rounds.  In a round one cursor is handed from
    rule to rule, in the order of descending priority, and taken back to where the
    round began whenever a rule fails.  The first rule that matches decides; a match
    that leaves the cursor where it was, or a round without a match, is a lexical
    error.  Rounds whose lexeme is skipped are followed by the next round.

    When the input ends is for the lexer to say and need not agree with its text, so
    a round may run at the end of the text, too.  A rule may also move its cursor
    back.  For both reasons `nextToken` takes a bound on the number of rounds; it
    halts with `outOfFuel` when the bound is reached first.

    `next?` reads the lexer as a sequence that ends before the end-of-input token or
    after the first error, and then stays at its end. -/

namespace Packrat

/-- A text on its way to becoming tokens. -/
structure Lexer (ρ κ : Type) where
  /-- The rules, in the order in which they are tried. -/
  rules : List (Rule ρ κ)
  /-- The place that is reached. -/
  cursor : Cursor
  /-- The input counts as ended at this place. -/
  atEnd : Cursor → Bool
  /-- The sequence of tokens has come to its end. -/
  done : Bool

namespace Lexer

variable {ρ κ : Type}

/-- Puts a rule in front of the first one whose priority is not higher. -/
def insertRule (r : Rule ρ κ) : List (Rule ρ κ) → List (Rule ρ κ)
  | [] => [r]
  | s :: rs => if s.priority ≤ r.priority then r :: s :: rs else s :: insertRule r rs

/-- Higher priority first; rules of one priority keep their order. -/
def byPriority : List (Rule ρ κ) → List (Rule ρ κ)
  | [] => []
  | r :: rs => insertRule r (byPriority rs)

/-- A lexer over `rules` from `cursor` on. -/
def new (rules : List (Rule ρ κ)) (cursor : Cursor) (atEnd : Cursor → Bool) : Lexer ρ κ :=
  ⟨byPriority rules, cursor, atEnd, false⟩

/-- The input counts as ended. -/
def isEof (lx : Lexer ρ κ) : Bool := lx.atEnd lx.cursor

/-- Hands the cursor `c` from rule to rule until one of them matches.  Rules that decline the
    character `next` are passed over.  Gives the lexeme if there is one, the cursor at last, and the
    rules with what they remember of being tried; rules after the first match are left alone. -/
def firstMatch (next : Option Char) (c : Cursor) :
    List (Rule ρ κ) → Option (Lexeme (Token κ)) × Cursor × List (Rule ρ κ)
  | [] => (none, c, [])
  | r :: rs =>
      if r.declines next then
        let (found, c', rs') := firstMatch next c rs
        (found, c', r :: rs')
      else
        match r.attempt c with
        | (some lexeme, c', r') => (some lexeme, c', r' :: rs)
        -- the next rule starts where this one has left the cursor, taken back to its offset
        | (none, c', r') =>
            let (found, c'', rs') := firstMatch next c' rs
            (found, c'', r' :: rs')

/-- The complaint of a round that began at `c` and in which no rule matched. -/
def unmatched (c : Cursor) : LexError :=
  match c.peek with
  | some ch => .invalidCharacter ch c.position
  | none => .noProgress c.position

/-- One round of rules.  The character that the rules may decline is the next one when the round
    begins. -/
def round : Run (Lexer ρ κ) LexError (Lexeme (Token κ)) := fun lx =>
  match firstMatch lx.cursor.peek lx.cursor lx.rules with
  | (some lexeme, c, rules) =>
      -- the same match could be made again, and again
      if c.offset = lx.cursor.offset then
        (.error (.failed (.noProgress lx.cursor.position)), { lx with rules, cursor := c })
      else (.ok lexeme, { lx with rules, cursor := c })
  | (none, c, rules) => (.error (.failed (unmatched lx.cursor)), { lx with rules, cursor := c })

/-! ### The order of the rules -/

theorem insertRule_perm (r : Rule ρ κ) (rs : List (Rule ρ κ)) :
    (insertRule r rs).Perm (r :: rs) := by
  induction rs with
  | nil => exact .refl _
  | cons s rs ih =>
      rw [insertRule]
      split
      · exact .refl _
      · exact (ih.cons s).trans (.swap r s rs)

/-- No rule is lost and none is added. -/
theorem byPriority_perm (rules : List (Rule ρ κ)) : (byPriority rules).Perm rules := by
  induction rules with
  | nil => exact .refl _
  | cons r rs ih => exact (insertRule_perm r _).trans (ih.cons r)

theorem insertRule_pairwise {r : Rule ρ κ} {rs : List (Rule ρ κ)}
    (h : rs.Pairwise fun a b => b.priority ≤ a.priority) :
    (insertRule r rs).Pairwise fun a b => b.priority ≤ a.priority := by
  induction rs with
  | nil => exact List.pairwise_singleton _ _
  | cons s rs ih =>
      obtain ⟨hs, hrs⟩ := List.pairwise_cons.1 h
      rw [insertRule]
      split
      · next hle =>
          refine List.pairwise_cons.2 ⟨fun a ha => ?_, h⟩
          rcases List.mem_cons.1 ha with rfl | ha
          · exact hle
          · exact Int.le_trans (hs a ha) hle
      · next hlt =>
          refine List.pairwise_cons.2 ⟨fun a ha => ?_, ih hrs⟩
          rcases List.mem_cons.1 ((insertRule_perm r rs).mem_iff.1 ha) with rfl | ha
          · omega
          · exact hs a ha

/-- A rule is tried before every rule of lower priority. -/
theorem byPriority_pairwise (rules : List (Rule ρ κ)) :
    (byPriority rules).Pairwise fun a b => b.priority ≤ a.priority := by
  induction rules with
  | nil => exact .nil
  | cons r rs ih => exact insertRule_pairwise ih

theorem filter_insertRule (p : Int) (r : Rule ρ κ) (rs : List (Rule ρ κ)) :
    (insertRule r rs).filter (fun a => decide (a.priority = p)) =
      (r :: rs).filter (fun a => decide (a.priority = p)) := by
  induction rs with
  | nil => rfl
  | cons s rs ih =>
      rw [insertRule]
      split
      · rfl
      · next hlt =>
          rw [List.filter_cons, ih]
          -- the two rules differ in priority, so at most one of them is kept
          by_cases hs : s.priority = p
          · have hr : r.priority ≠ p := by omega
            simp [hs, hr]
          · simp [List.filter_cons, hs]

/-- Rules of one priority are tried in the order in which they were given. -/
theorem filter_byPriority (p : Int) (rules : List (Rule ρ κ)) :
    (byPriority rules).filter (fun a => decide (a.priority = p)) =
      rules.filter (fun a => decide (a.priority = p)) := by
  induction rules with
  | nil => rfl
  | cons r rs ih =>
      rw [byPriority, filter_insertRule, List.filter_cons, List.filter_cons, ih]

variable [TokenKind κ]

/-- The token that marks the end of the input at the lexer's place. -/
def eofToken (lx : Lexer ρ κ) : Token κ :=
  .endOfInput lx.cursor.position (lx.cursor.sliceFrom lx.cursor.offset)

/-- The next token, found in at most `fuel` steps.  At the end of the input it is the end-of-input
    token, every time. -/
def nextToken : Nat → Run (Lexer ρ κ) LexError (Token κ)
  | 0 => Run.halt .outOfFuel
  | fuel + 1 => do
      if ← Run.read isEof then
        Run.read eofToken
      else
        match ← round with
        | .token t => return t
        | .skip => nextToken fuel

variable [DecidableEq κ]

/-- Closes the sequence of tokens. -/
def finish (lx : Lexer ρ κ) : Lexer ρ κ := { lx with done := true }

/-- The next token of the sequence; `none` at its end. -/
def next? (fuel : Nat) : Run (Lexer ρ κ) LexError (Option (Token κ)) := do
  if ← Run.read done then
    return none
  else
    match ← (nextToken fuel).settle with
    | .ok t =>
        if t.isEof then
          Run.update finish
          return none
        else return some t
    | .error e =>
        Run.update finish
        Run.fail e

/-- Everything that the sequence still holds, at most `count` items. -/
def itemsUpTo (fuel : Nat) : Nat → Run (Lexer ρ κ) LexError (List (Except LexError (Token κ)))
  | 0 => Run.halt .outOfFuel
  | count + 1 => do
      match ← (next? fuel).settle with
      | .ok none => return []
      | .ok (some t) => return .ok t :: (← itemsUpTo fuel count)
      | .error e => return .error e :: (← itemsUpTo fuel count)

/-- Everything that the sequence still holds. -/
def items (fuel : Nat) : Run (Lexer ρ κ) LexError (List (Except LexError (Token κ))) :=
  itemsUpTo fuel fuel

/-- All tokens that the sequence still holds, or its error. -/
def tokenize (fuel : Nat) : Run (Lexer ρ κ) LexError (List (Token κ)) := do
  match (← items fuel).mapM id with
  | .ok tokens => return tokens
  | .error e => Run.fail e

end Lexer

end Packrat
