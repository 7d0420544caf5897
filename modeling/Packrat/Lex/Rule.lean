import Packrat.Lex.Cursor
import Packrat.Token

/-! # Lexing rules

    A rule looks at the text from a cursor on and either makes a lexeme of some of
    it or fails.  It may keep a state of its own from one try to the next, and when
    it fails it may leave the cursor anywhere: whoever tries it takes the cursor
    back to the offset and the position where it stood (`Rule.attempt`).  A text
    that the rule has put under the cursor is not taken away again. -/

namespace Packrat

/-- What a rule makes of the characters it consumed. -/
inductive Lexeme (α : Type) where
  /-- Something for the parser. -/
  | token (value : α)
  /-- Nothing for the parser, such as white space. -/
  | skip
deriving DecidableEq, Repr

/-- Changes the token, if there is one. -/
def Lexeme.map {α β : Type} (f : α → β) : Lexeme α → Lexeme β
  | token a => token (f a)
  | skip => skip

/-- A rule for tokens of the kinds `κ` that remembers a `ρ` between tries. -/
structure Rule (ρ κ : Type) where
  /-- Rules of higher priority are tried first. -/
  priority : Int
  /-- A guess from the next character alone; only `some false` keeps the rule from being tried. -/
  quickCheck : ρ → Option Char → Option Bool
  /-- Tries the rule from a cursor; gives the lexeme if it matches, the new memory and the cursor as
      the rule leaves it. -/
  tryMatch : ρ → Cursor → Option (Lexeme (Token κ)) × ρ × Cursor
  /-- What the rule remembers now. -/
  memory : ρ

namespace Rule

variable {ρ κ : Type}

/-- The rule says from the next character that it will not match. -/
def declines (r : Rule ρ κ) (next : Option Char) : Bool :=
  r.quickCheck r.memory next == some false

/-- Tries the rule and updates its memory.  When the rule fails, the cursor is taken back. -/
def attempt (r : Rule ρ κ) (c : Cursor) :
    Option (Lexeme (Token κ)) × Cursor × Rule ρ κ :=
  let (found, memory, c') := r.tryMatch r.memory c
  (found, if found.isSome then c' else c'.restore c.checkpoint, { r with memory })

end Rule

end Packrat
