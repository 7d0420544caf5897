import Packrat.Lex.Error
import Packrat.Token

/-! # Parse errors

    A parse fails on a lexical error, on a token of the wrong kind, or at a decision
    none of whose alternatives matches.  Only the second can be recovered from, by
    trying something else; the third carries the mismatch that got furthest, so that
    readers learn what was wrong inside the best alternative. -/

namespace Packrat

/-- A token as an error shows it. -/
structure Sighting (κ : Type) where
  /-- Its kind. -/
  found : κ
  /-- The text that it covers. -/
  text : String
  /-- Its position in the stream of tokens. -/
  position : Nat
  /-- The position of its first character. -/
  location : Position
deriving DecidableEq, Repr

namespace Sighting

variable {κ : Type}

/-- The sight of the token `t` at `position`. -/
def ofToken (position : Nat) (t : Token κ) : Sighting κ :=
  ⟨t.kind, t.text.text, position, t.position⟩

/-- The token as messages describe it. -/
def describe [TokenKind κ] (s : Sighting κ) : String :=
  TokenKind.label s.found ++ " " ++ Text.quoteText s.text ++ " at token " ++
    toString s.position ++ " (" ++ s.location.render ++ ")"

end Sighting

/-- Why a parse failed. -/
inductive ParseError (κ : Type) where
  /-- The text could not be cut into tokens. -/
  | lexical (error : LexError)
  /-- A token of one kind was required and one of another kind was seen. -/
  | mismatch (expected : κ) (seen : Sighting κ)
  /-- No alternative of the decision `rule` matched from the token seen. -/
  | exhausted (rule : String) (seen : Sighting κ) (furthest : Option (ParseError κ))
deriving Repr

namespace ParseError

variable {κ : Type}

/-- The error can be recovered from. -/
def isMismatch : ParseError κ → Bool
  | mismatch _ _ => true
  | _ => false

/-- The position in the stream of tokens; lexical errors have none. -/
def position? : ParseError κ → Option Nat
  | lexical _ => none
  | mismatch _ seen => some seen.position
  | exhausted _ seen _ => some seen.position

/-- The mismatch behind the error: itself, or the furthest one behind an exhausted decision. -/
def furthestMismatch : ParseError κ → Option (ParseError κ)
  | lexical _ => none
  | mismatch expected seen => some (mismatch expected seen)
  | exhausted _ _ none => none
  | exhausted _ _ (some e) => e.furthestMismatch

/-- The error as readers are told it. -/
def message [TokenKind κ] : ParseError κ → String
  | lexical e => e.message
  | mismatch expected seen =>
      "expecting " ++ TokenKind.label expected ++ "; found " ++ seen.describe
  | exhausted rule seen none =>
      "no alternative of `" ++ rule ++ "` matches " ++ seen.describe
  | exhausted rule seen (some e) =>
      "no alternative of `" ++ rule ++ "` matches " ++ seen.describe ++
        "; furthest failure: " ++ e.message

/-- The one of two errors that got further; of two equally far the first. -/
def further (best : Option (ParseError κ)) (e : ParseError κ) : ParseError κ :=
  match best with
  | none => e
  | some b => if b.position?.lt (· < ·) e.position? then e else b

/-- Decides whether two errors are equal. -/
def decEq [DecidableEq κ] : (a b : ParseError κ) → Decidable (a = b)
  | lexical e, lexical f => decidable_of_iff (e = f) (by simp)
  | mismatch k s, mismatch l t => decidable_of_iff (k = l ∧ s = t) (by simp)
  | exhausted r s none, exhausted q t none => decidable_of_iff (r = q ∧ s = t) (by simp)
  | exhausted r s (some e), exhausted q t (some f) =>
      match decEq e f with
      | isTrue h => decidable_of_iff (r = q ∧ s = t) (by simp [h])
      | isFalse h => isFalse (by simp [h])
  | exhausted _ _ none, exhausted _ _ (some _) => isFalse (by simp)
  | exhausted _ _ (some _), exhausted _ _ none => isFalse (by simp)
  | lexical _, mismatch _ _ => isFalse (by simp)
  | lexical _, exhausted _ _ _ => isFalse (by simp)
  | mismatch _ _, lexical _ => isFalse (by simp)
  | mismatch _ _, exhausted _ _ _ => isFalse (by simp)
  | exhausted _ _ _, lexical _ => isFalse (by simp)
  | exhausted _ _ _, mismatch _ _ => isFalse (by simp)

instance [DecidableEq κ] : DecidableEq (ParseError κ) := decEq

end ParseError

end Packrat
