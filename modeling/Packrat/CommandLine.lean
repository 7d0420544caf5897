import Packrat.ListLang.Recognizer

/-! # The command line

        list-parser [--no-memo] [--stats] [--tokens] [INPUT...]

    Every argument that is no flag is an input; without one, every line of the standard
    input is.  Each input is reported on: whether it is a statement of the list
    language, or under `--tokens` what its tokens are.  The exit status is 0 when nothing
    was wrong with any input, 1 when something was, and 2 when the command line or the
    standard input could not be understood.

    `CommandLine.run` is the whole program as a function of its arguments and its
    standard input. -/

namespace Packrat.CommandLine

open ListLang

/-- What a program leaves behind. -/
structure Outcome where
  /-- The exit status. -/
  status : Nat
  /-- The text on the standard output. -/
  output : String
  /-- The text on the standard error stream. -/
  errors : String
deriving DecidableEq, Repr

/-- What the arguments ask for. -/
structure Request where
  /-- How the parser is set up. -/
  options : Options := {}
  /-- The work done is reported with every accepted input. -/
  stats : Bool := false
  /-- Tokens are reported in the place of verdicts. -/
  tokens : Bool := false
  /-- The inputs, in order. -/
  inputs : List String := []
deriving DecidableEq, Repr

/-- What one input's report says. -/
structure Report where
  /-- Nothing was wrong with the input. -/
  accepted : Bool
  /-- The lines. -/
  lines : List String
deriving DecidableEq, Repr

/-- The line that explains the command line. -/
def usage : String := "usage: list-parser [--no-memo] [--stats] [--tokens] [INPUT...]"

/-- Takes one argument into account, or refuses a flag that is not known. -/
def Request.add (request : Request) (arg : String) : Except String Request :=
  if arg = "--no-memo" then
    .ok { request with options := { request.options with memoize := false } }
  else if arg = "--stats" then .ok { request with stats := true }
  else if arg = "--tokens" then .ok { request with tokens := true }
  else if ['-', '-'].isPrefixOf arg.toList then .error arg
  else .ok { request with inputs := request.inputs ++ [arg] }

/-- What the arguments ask for, or the first flag that is not known. -/
def Request.ofArgs (args : List String) : Except String Request := args.foldlM Request.add {}

/-- The lines of a text.  A line ends with a line feed, and a carriage return before that belongs to
    the ending; what follows the last line feed is a line, too, unless it is empty.  `line` holds
    the characters of the current line, the last one first. -/
def splitLines (line : List Char) : List Char → List (List Char)
  | [] => if line.isEmpty then [] else [line.reverse]
  | c :: cs =>
      if c = '\n' then
        -- the line is held back to front
        let ended := match line with
          | '\r' :: rest => rest
          | _ => line
        ended.reverse :: splitLines [] cs
      else splitLines (c :: line) cs

/-- The lines of a text. -/
def lines (text : String) : List String := (splitLines [] text.toList).map String.ofList

/-- The text with blanks before it up to a width. -/
def padLeft (width : Nat) (s : String) : String :=
  String.ofList (s.toList.leftpad width ' ')

/-- The text with blanks after it up to a width. -/
def padRight (width : Nat) (s : String) : String :=
  String.ofList (s.toList.rightpad width ' ')

/-- The line for a token. -/
def tokenLine (t : Token Kind) : String :=
  padLeft 6 t.position.render ++ "  " ++ padRight 10 t.kind.label ++ " " ++
    Text.quoteText t.text.text

/-- The line for an item of a sequence of tokens. -/
def itemLine : Except LexError (Token Kind) → String
  | .ok t => tokenLine t
  | .error e => "error: " ++ e.message

/-- Reports the tokens of an input, up to the first lexical error. -/
def reportTokens (input : String) : Report :=
  let lx := ListLexer.ofText input
  match Lexer.items (ListLexer.fuel lx) lx with
  | (.ok items, _) => ⟨items.all Except.toBool, items.map itemLine⟩
  | (.error _, _) => ⟨false, []⟩ -- the fuel suffices

/-- The line for the work done. -/
def statsLine (s : Stats) : String :=
  "  ParseStats \x7b tokens_pulled: " ++ toString s.tokensPulled ++
    ", memo_hits: " ++ toString s.memoHits ++
    ", memo_misses: " ++ toString s.memoMisses ++
    ", memo_entries: " ++ toString s.memoEntries ++
    ", truncations: " ++ toString s.truncations ++
    ", retired: " ++ toString s.retired ++
    ", peak_buffered: " ++ toString s.peakBuffered ++ " \x7d"

/-- Reports whether an input is a statement. -/
def reportVerdict (request : Request) (input : String) : Report :=
  match recognizeText request.options input with
  | .ok stats => ⟨true, "accept" :: if request.stats then [statsLine stats] else []⟩
  | .error (.failed e) => ⟨false, ["reject: " ++ e.message]⟩
  | .error _ => ⟨false, []⟩ -- there is room, no rule of use is broken, and the fuel suffices

/-- Reports on an input. -/
def report (request : Request) (input : String) : Report :=
  if request.tokens then reportTokens input else reportVerdict request input

/-- Each line with a line feed after it. -/
def unlines (lines : List String) : String := String.join (lines.map (· ++ "\n"))

/-- Reports on all inputs. -/
def conclude (request : Request) (inputs : List String) : Outcome :=
  let reports := inputs.map (report request)
  ⟨if reports.all Report.accepted then 0 else 1, unlines (reports.flatMap Report.lines), ""⟩

/-- The program: what it leaves behind for these arguments and this standard input. -/
def run (args : List String) (stdin : ByteArray) : Outcome :=
  match Request.ofArgs args with
  | .error flag => ⟨2, "", unlines ["unknown flag `" ++ flag ++ "`", usage]⟩
  | .ok request =>
      if request.inputs.isEmpty then
        match String.fromUTF8? stdin with
        | some text => conclude request (lines text)
        | none =>
            ⟨2, "", unlines ["failed to read stdin: stream did not contain valid UTF-8"]⟩
      else conclude request request.inputs

end Packrat.CommandLine
