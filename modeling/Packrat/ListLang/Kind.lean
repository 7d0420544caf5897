import Packrat.Token

/-! # Tokens of the list language

    The list language has identifiers, four punctuation marks and the end of the
    input. -/

namespace Packrat.ListLang

/-- The kinds of tokens of the list language. -/
inductive Kind where
  /-- The end of the input. -/
  | eof
  /-- An identifier. -/
  | ident
  /-- A comma. -/
  | comma
  /-- An opening bracket. -/
  | lbrack
  /-- A closing bracket. -/
  | rbrack
  /-- An equals sign. -/
  | equals
deriving DecidableEq, Repr

namespace Kind

/-- The kind's name among programs. -/
def name : Kind → String
  | eof => "Eof"
  | ident => "Ident"
  | comma => "Comma"
  | lbrack => "LBrack"
  | rbrack => "RBrack"
  | equals => "Equals"

/-- How messages call the kind. -/
def label : Kind → String
  | eof => "<EOF>"
  | ident => "identifier"
  | comma => "','"
  | lbrack => "'['"
  | rbrack => "']'"
  | equals => "'='"

/-- The kind of a punctuation mark. -/
def ofPunctuation? : Char → Option Kind
  | '[' => some lbrack
  | ']' => some rbrack
  | ',' => some comma
  | '=' => some equals
  | _ => none

/-- The kind with a name. -/
def ofName? (name : String) : Option Kind :=
  [eof, ident, comma, lbrack, rbrack, equals].find? (·.name == name)

/-- No two kinds share a name. -/
@[simp] theorem ofName?_name (k : Kind) : ofName? k.name = some k := by
  cases k <;> decide +kernel

instance : TokenKind Kind := ⟨eof, name, label⟩

end Kind

end Packrat.ListLang
