import Packrat.Lex.Lexer
import Packrat.ListLang.Kind
import Packrat.Text.Blank
import Packrat.TokenStream

/-! # The lexer of the list language

    Three rules cut a text into tokens of the list language: white space is skipped,
    a punctuation mark is a token, and so is a run of ASCII letters.  No character
    begins a match of two of them.  None of the rules remembers anything, and each
    consumes at least one character when it matches, so a lexer with as much fuel as
    there are characters ahead, and one more, always finds an answer. -/

namespace Packrat.ListLang

/-- Skips a run of white space. -/
def blankRule : Rule Unit Kind where
  priority := 2
  quickCheck _ next := next.map Text.isBlank
  tryMatch _ c :=
    let (skipped, c') := c.consumeWhile Text.isBlank
    (if skipped.isEmpty then none else some .skip, (), c')
  memory := ()

/-- Takes a punctuation mark. -/
def punctuationRule : Rule Unit Kind where
  priority := 1
  quickCheck _ next := next.map fun ch => (Kind.ofPunctuation? ch).isSome
  tryMatch _ c :=
    match c.peek.bind Kind.ofPunctuation? with
    | none => (none, (), c)
    | some kind =>
        let c' := c.advance.2
        (some (.token ⟨kind, c'.sliceFrom c.offset, c.position⟩), (), c')
  memory := ()

/-- Takes a run of ASCII letters. -/
def identRule : Rule Unit Kind where
  priority := 0
  quickCheck _ next := next.map Char.isAlpha
  tryMatch _ c :=
    let (text, c') := c.consumeWhile Char.isAlpha
    (if text.isEmpty then none else some (.token ⟨.ident, text, c.position⟩), (), c')
  memory := ()

/-- The rules of the list language. -/
def rules : List (Rule Unit Kind) := [blankRule, punctuationRule, identRule]

/-- A lexer over the rules of the list language. -/
abbrev ListLexer := Lexer Unit Kind

namespace ListLexer

/-- A lexer from the cursor `c` on. -/
def ofCursor (c : Cursor) : ListLexer := Lexer.new rules c Cursor.isEof

/-- A lexer at the beginning of `text`. -/
def ofText (text : String) : ListLexer := ofCursor (.ofText text)

/-- As many steps as the lexer can take to its next answer. -/
def fuel (lx : ListLexer) : Nat := lx.cursor.rest.length + 1

/-- Draws the next token. -/
def next (lx : ListLexer) : Except LexError (Token Kind) × ListLexer :=
  match Lexer.nextToken (fuel lx) lx with
  | (.ok t, lx') => (.ok t, lx')
  | (.error (.failed e), lx') => (.error e, lx')
  | (.error _, lx') => (.error (.noProgress lx'.cursor.position), lx') -- the fuel suffices

instance : TokenStream ListLexer Kind := ⟨next⟩

end ListLexer

/-- The tokens of `text` up to the end of the input, or the first lexical error. -/
def tokenize (text : String) : Except LexError (List (Token Kind)) :=
  let lx := ListLexer.ofText text
  match Lexer.tokenize (ListLexer.fuel lx) lx with
  | (.ok tokens, _) => .ok tokens
  | (.error (.failed e), _) => .error e
  | (.error _, lx') => .error (.noProgress lx'.cursor.position) -- the fuel suffices

end Packrat.ListLang
