import Packrat.Lex.CharClass
import Packrat.Lex.Rule

/-! # Rules described by data

    A `Pattern` says in data what a lexing rule does: run over characters of a
    class, match a literal, match nothing, stumble, go back to a place it has been,
    or do as a rule of another language.  Every pattern has a name, which becomes
    the kind of its tokens, and can be given a priority, a quick check, a wish to be
    skipped and a number of uses after which it never matches again.

    `Pattern.rule` turns it into a rule. -/

namespace Packrat

/-- The kinds of tokens that patterns make. -/
inductive PatternKind where
  /-- The end of the input. -/
  | endOfInput
  /-- What the pattern of this name matched. -/
  | named (name : String)
deriving DecidableEq, Repr

namespace PatternKind

/-- The kind's name. -/
def name : PatternKind → String
  | endOfInput => "$eof"
  | named n => n

instance : TokenKind PatternKind := ⟨endOfInput, name, name⟩

end PatternKind

/-- What a pattern matches. -/
inductive PatternBody where
  /-- A run of at least `least` and at most `most` characters of a class. -/
  | run (cls : CharClass) (least : Nat) (most : Option Nat)
  /-- These characters. -/
  | literal (chars : List Char)
  /-- The empty text. -/
  | nothing
  /-- Nothing at all, after moving the cursor over two characters. -/
  | stumble
  /-- Nothing on the first try, which remembers the place; afterwards the empty text there. -/
  | goBack
  /-- Whatever the given function matches. -/
  | borrowed (tryMatch : Cursor → Option (Lexeme (Token PatternKind)) × Cursor)

/-- What a pattern guesses from the next character. -/
inductive QuickGuess where
  /-- Nothing. -/
  | unknown
  /-- Always the same. -/
  | always (answer : Bool)
  /-- Whether the character is of a class; nothing at the end of the text. -/
  | byClass (cls : CharClass)
  /-- Whatever the given function guesses. -/
  | borrowed (guess : Option Char → Option Bool)

/-- The guess for a next character. -/
def QuickGuess.guess : QuickGuess → Option Char → Option Bool
  | unknown, _ => none
  | always b, _ => some b
  | byClass cls, next => next.map cls.accepts
  | borrowed f, next => f next

/-- A rule described by data. -/
structure Pattern where
  /-- The name of the pattern and of the kind of its tokens. -/
  name : String
  /-- What it matches. -/
  body : PatternBody
  /-- Its priority as a rule. -/
  priority : Int
  /-- Its quick check as a rule. -/
  quick : QuickGuess
  /-- Its matches are skipped. -/
  skipped : Bool
  /-- The number of matches after which it never matches again. -/
  uses : Option Nat

/-- What a pattern remembers between tries. -/
structure PatternMemory where
  /-- How often it has matched. -/
  matched : Nat
  /-- The place it goes back to. -/
  place : Option Checkpoint
deriving DecidableEq, Repr

namespace Pattern

/-- Moves over `chars` one by one as long as they agree with the text.  The character that disagrees
    is still moved over. -/
def followLiteral : List Char → Cursor → Bool × Cursor
  | [], c => (true, c)
  | ch :: chs, c =>
      match c.advance with
      | (none, c') => (false, c')
      | (some found, c') => if found = ch then followLiteral chs c' else (false, c')

/-- What the pattern makes of the text from byte `start` to `c`, tried at `position`. -/
def lexeme (p : Pattern) (position : Position) (start : Nat) (c : Cursor) :
    Lexeme (Token PatternKind) :=
  if p.skipped then .skip else .token ⟨.named p.name, c.sliceFrom start, position⟩

/-- Tries what the pattern matches, its number of uses aside. -/
def tryBody (p : Pattern) (place : Option Checkpoint) (c : Cursor) :
    Option (Lexeme (Token PatternKind)) × Option Checkpoint × Cursor :=
  match p.body with
  | .run cls least most =>
      let c' := match most with
        | none => (c.consumeWhile cls.accepts).2
        | some limit => (c.consumeUpTo limit cls.accepts).2
      -- a run that is too short has moved the cursor all the same
      let count := c.rest.length - c'.rest.length
      (if least ≤ count then some (p.lexeme c.position c.offset c') else none, place, c')
  | .literal chars =>
      let (hit, c') := followLiteral chars c
      (if hit then some (p.lexeme c.position c.offset c') else none, place, c')
  | .nothing => (some (p.lexeme c.position c.offset c), place, c)
  | .stumble => (none, place, c.advance.2.advance.2)
  | .goBack =>
      match place with
      | none => (none, some c.checkpoint, c)
      | some saved =>
          let c' := c.restore saved
          (some (p.lexeme c.position c'.offset c'), place, c')
  | .borrowed tryMatch =>
      let (found, c') := tryMatch c
      (found, place, c')

/-- The pattern has no uses left. -/
def spent (p : Pattern) (m : PatternMemory) : Bool :=
  p.uses.any fun limit => decide (limit ≤ m.matched)

/-- Tries the pattern, unless its uses are spent. -/
def tryMatch (p : Pattern) (m : PatternMemory) (c : Cursor) :
    Option (Lexeme (Token PatternKind)) × PatternMemory × Cursor :=
  if p.spent m then (none, m, c)
  else
    match p.tryBody m.place c with
    | (some lexeme, place, c') => (some lexeme, ⟨m.matched + 1, place⟩, c')
    | (none, place, c') => (none, ⟨m.matched, place⟩, c')

/-- The rule that the pattern describes. -/
def rule (p : Pattern) : Rule PatternMemory PatternKind where
  priority := p.priority
  quickCheck _ := p.quick.guess
  tryMatch := p.tryMatch
  memory := ⟨0, none⟩

end Pattern

namespace PatternBody

variable {κ : Type} [TokenKind κ]

/-- A match by a rule of another language.  Its tokens are renamed to the pattern's name, a colon
    and the name of their kind there. -/
def ofRule (name : String) (r : Rule Unit κ) : PatternBody :=
  .borrowed fun c =>
    let (found, _, c') := r.tryMatch () c
    (found.map (Lexeme.map (Token.mapKind fun k => .named (name ++ ":" ++ TokenKind.name k))), c')

end PatternBody

end Packrat
