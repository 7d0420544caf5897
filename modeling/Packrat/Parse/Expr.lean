import Packrat.Parse.Parser

/-! # Parsing expressions

    The operations of a parser as data, closed under sequence, decision, loop and
    reference to named expressions.  A grammar is a table of expressions, one for
    each name; references may be recursive, so `Expr.eval` takes a bound on the
    depth of the evaluation and halts with `outOfFuel` when it is reached. -/

namespace Packrat

/-- A parsing expression over the kinds `κ` with references to names `ν`. -/
inductive Expr (κ ν : Type) where
  /-- Does nothing. -/
  | done
  /-- The token at a depth. -/
  | peek (depth : Nat)
  /-- The kind of the token at a depth. -/
  | peekKind (depth : Nat)
  /-- Whether the current token is of a kind. -/
  | check (kind : κ)
  /-- Moves past a token of a kind. -/
  | expect (kind : κ)
  /-- Moves past any token. -/
  | advance
  /-- Sets a mark. -/
  | mark
  /-- Takes the newest mark back, with or without rewinding to it. -/
  | release (restore : Bool)
  /-- Whether an expression matches; nothing is consumed. -/
  | attempt (body : Expr κ ν)
  /-- The first alternative that matches. -/
  | choose (name : String) (alternatives : List (Expr κ ν))
  /-- An expression that is remembered under a name. -/
  | memo (name : String) (body : Expr κ ν)
  /-- One expression after the other. -/
  | seq (first second : Expr κ ν)
  /-- One of two expressions, by the kind of the token at a depth. -/
  | cond (kind : κ) (depth : Nat) (yes no : Expr κ ν)
  /-- An expression again and again, as long as the current token is of a kind. -/
  | loop (kind : κ) (body : Expr κ ν)
  /-- One of two expressions, by whether a third matches. -/
  | trial (guard yes no : Expr κ ν)
  /-- The expression of a name. -/
  | call (name : ν)

/-- What an expression yields. -/
inductive Value (κ : Type) where
  /-- Nothing. -/
  | nothing
  /-- An answer to a yes-or-no question. -/
  | flag (answer : Bool)
  /-- A number. -/
  | count (n : Nat)
  /-- A kind. -/
  | kind (k : κ)
  /-- A token. -/
  | token (t : Token κ)
deriving DecidableEq, Repr

namespace Expr

variable {σ κ ν : Type}

/-- The expressions one after the other. -/
def sequence (es : List (Expr κ ν)) : Expr κ ν := es.foldr seq done

variable [TokenStream σ κ] [DecidableEq κ] [TokenKind κ]

/-- Runs an expression on a parser, with `rules` for the names and `fuel` for the depth. -/
def eval (rules : ν → Expr κ ν) : Nat → Expr κ ν → Parsing σ κ (Value κ)
  | 0, _ => Run.halt .outOfFuel
  | _ + 1, done => return .nothing
  | _ + 1, peek depth => return .token (← Parser.peek depth)
  | _ + 1, peekKind depth => return .kind (← Parser.peekKind depth)
  | _ + 1, check k => return .flag (← Parser.check k)
  | _ + 1, expect k => do
      Parser.expect k
      return .nothing
  | _ + 1, advance => do
      Parser.advance
      return .nothing
  | _ + 1, mark => return .count (← Parser.mark)
  | _ + 1, release restore => do
      Parser.release restore
      return .nothing
  | fuel + 1, attempt body =>
      return .flag (← Parser.attempt (discard (eval rules fuel body)))
  | fuel + 1, choose name alternatives => do
      Parser.choose name (alternatives.map fun e => discard (eval rules fuel e))
      return .nothing
  | fuel + 1, memo name body => do
      Parser.memoize name (discard (eval rules fuel body))
      return .nothing
  | fuel + 1, seq first second => do
      discard (eval rules fuel first)
      discard (eval rules fuel second)
      return .nothing
  | fuel + 1, cond k depth yes no => do
      if (← Parser.peekKind depth) = k then eval rules fuel yes else eval rules fuel no
  | fuel + 1, loop k body => do
      if ← Parser.check k then
        discard (eval rules fuel body)
        eval rules fuel (loop k body)
      else return .nothing
  | fuel + 1, trial guard yes no => do
      if ← Parser.attempt (discard (eval rules fuel guard)) then eval rules fuel yes
      else eval rules fuel no
  | fuel + 1, call name => eval rules fuel (rules name)

end Expr

end Packrat
