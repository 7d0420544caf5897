import Packrat.ListLang.Kind
import Packrat.Parse.Expr

/-! # The grammar of the list language

        statement  := list END | assignment END
        assignment := list '=' list
        list       := '[' elements? ']'
        elements   := element (',' element)*
        element    := IDENT '=' IDENT | IDENT | list

    Both forms of a statement start with a list of any length, so the choice between
    them is made by lookahead over the whole of it.  Lists and assignments are memoized:
    the second attempt and the run that follows it use what the first attempt has found.

    The grammar refers to its rules through a function into the names of the table it is
    put in, so that it can stand beside other expressions. -/

namespace Packrat.ListLang

/-- The rules of the grammar. -/
inductive Nonterminal where
  /-- A list or an assignment, up to the end of the input. -/
  | statement
  /-- Two lists with an equals sign between. -/
  | assignment
  /-- Elements between brackets. -/
  | list
  /-- Elements with commas between. -/
  | elements
  /-- An identifier, a pair of identifiers or a list. -/
  | element
deriving DecidableEq, Repr

namespace Nonterminal

/-- The rule's name. -/
def name : Nonterminal → String
  | statement => "statement"
  | assignment => "assignment"
  | list => "list"
  | elements => "elements"
  | element => "element"

/-- The rule with a name. -/
def ofName? (name : String) : Option Nonterminal :=
  [statement, assignment, list, elements, element].find? (·.name == name)

/-- No two rules share a name. -/
@[simp] theorem ofName?_name (r : Nonterminal) : ofName? r.name = some r := by
  cases r <;> decide +kernel

variable {ν : Type} (ref : Nonterminal → ν)

/-- The expression of a rule, with `ref` for the names of the rules. -/
def body : Nonterminal → Expr Kind ν
  | statement =>
      .choose statement.name
        [.seq (.call (ref list)) (.expect .eof), .seq (.call (ref assignment)) (.expect .eof)]
  | assignment =>
      .memo assignment.name
        (.seq (.call (ref list)) (.seq (.expect .equals) (.call (ref list))))
  | list =>
      .memo list.name
        (.seq (.expect .lbrack)
          (.seq (.cond .rbrack 0 .done (.call (ref elements))) (.expect .rbrack)))
  | elements =>
      .seq (.call (ref element)) (.loop .comma (.seq (.expect .comma) (.call (ref element))))
  | element =>
      .cond .ident 0
        (.cond .equals 1
          (.seq (.expect .ident) (.seq (.expect .equals) (.expect .ident)))
          (.expect .ident))
        (.call (ref list))

end Nonterminal

variable {σ : Type} [TokenStream σ Kind]

/-- Runs a rule of the grammar on a parser, to at most the depth `fuel`. -/
def parse (fuel : Nat) (rule : Nonterminal) : Parsing σ Kind Unit :=
  discard (Expr.eval (Nonterminal.body id) fuel (.call rule))

end Packrat.ListLang
