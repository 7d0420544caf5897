import Packrat.ListLang.Grammar
import Packrat.ListLang.Lexer

/-! # Recognizing statements

    `readStatement` reads one statement of the list language, through to the end of
    the input, and tells how much work that took.  `recognizeWith` sets up a parser
    for that, if there is room for what its options ask for; `recognize` takes the
    room for granted.  `recognizeText` reads a text, with enough fuel for the number
    of its characters: every character adds a bounded number of steps to the depth
    of the evaluation. -/

namespace Packrat.ListLang

/-- The outcome of a recognition: the work that an accepted statement took, or the complaint. -/
abbrev Verdict := Except (Halt (ParseError Kind)) Stats

section Streams

variable {σ : Type} [TokenStream σ Kind]

/-- Reads one statement, to at most the depth `fuel`. -/
def readStatement (fuel : Nat) : Parsing σ Kind Stats := do
  parse fuel .statement
  Run.read Parser.stats

/-- Reads one statement from `stream` with a new parser. -/
def recognize (fuel : Nat) (options : Options) (stream : σ) : Verdict × Parser σ Kind :=
  readStatement fuel (Parser.new stream options)

/-- The bytes that a token takes: 32 of them hold its slice, 24 its position, and 8 its kind. -/
def tokenBytes : Nat := 64

/-- Sets up a parser for `stream` and reads one statement with it.  Where there is no room for the
    parser, `stream` is not asked for anything. -/
def recognizeWith (fuel : Nat) (options : Options) (stream : σ) :
    Verdict × Option (Parser σ Kind) :=
  match Parser.setUp tokenBytes stream options with
  | .error cause => (.error (.fault cause), none)
  | .ok p =>
      let (verdict, p') := readStatement fuel p
      (verdict, some p')

end Streams

/-- Fuel for a text of `length` characters. -/
def fuelFor (length : Nat) : Nat := 16 * (length + 2)

/-- Reads `text` as one statement. -/
def recognizeText (options : Options) (text : String) : Verdict :=
  (recognizeWith (fuelFor text.length) options (ListLexer.ofText text)).1

end Packrat.ListLang
