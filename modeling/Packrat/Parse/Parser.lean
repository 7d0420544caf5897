import Packrat.Parse.Error
import Packrat.Parse.Marks
import Packrat.Parse.Memo
import Packrat.Parse.Window

/-! # The parser

    A parser is what the rules of a grammar share: the window on the token stream, the
    marks of the speculations under way and the memo table.  A rule is a computation
    over it, a `Parsing`.

    The parser *speculates* while a mark is outstanding.  Then the window keeps its
    tokens, so that every mark can be rewound to.  Otherwise the window lets its tokens
    go as soon as the cursor runs past the last of them, and with the tokens go the memo
    entries recorded against that layout.

    * `attempt` runs a rule as pure lookahead and tells whether it matched;
    * `choose` runs the first of several alternatives that matches;
    * `memoize` runs a rule at most once at a position, as long as the window keeps its
      layout.

    Only a mismatch makes an attempt fail quietly.  Every other complaint ends the
    parse. -/

namespace Packrat

/-- The ways in which a parser can be set up. -/
structure Options where
  /-- Memoized rules ask and fill the memo table. -/
  memoize : Bool := true
  /-- The number of tokens that the window has room for from the beginning.  Without that much room
      there is no parser (`Parser.setUp`); with it the number makes no difference. -/
  capacity : Nat := 16
deriving DecidableEq, Repr

/-- A count of the work that a parser has done. -/
structure Stats where
  /-- Tokens that the stream has answered with. -/
  tokensPulled : Nat
  /-- Memo questions that were answered with a span. -/
  memoHits : Nat
  /-- Memo questions that were not. -/
  memoMisses : Nat
  /-- Memo entries alive. -/
  memoEntries : Nat
  /-- How often the window let its tokens go. -/
  truncations : Nat
  /-- Tokens that have left the window. -/
  retired : Nat
  /-- The largest number of tokens held after a fill. -/
  peakBuffered : Nat
deriving DecidableEq, Repr

/-- A parse under way. -/
structure Parser (σ κ : Type) where
  /-- The window on the token stream. -/
  window : Window σ κ
  /-- The speculations under way. -/
  marks : Marks
  /-- Where memoized rules have succeeded. -/
  memo : Memo
  /-- How the parser was set up. -/
  options : Options
  /-- How often the window let its tokens go. -/
  truncations : Nat

/-- A rule of a grammar: a computation over a parser. -/
abbrev Parsing (σ κ α : Type) : Type := Run (Parser σ κ) (ParseError κ) α

namespace Parser

variable {σ κ α : Type}

/-- A parser at the beginning of `stream`, for which there has been room. -/
def new (stream : σ) (options : Options) : Parser σ κ :=
  ⟨.new stream, .empty, .empty, options, 0⟩

/-- Sets up a parser at the beginning of `stream`, with room for as many tokens as `options` say.
    Each of them takes `tokenBytes` bytes. -/
def setUp (tokenBytes : Nat) (stream : σ) (options : Options) : Except Fault (Parser σ κ) := do
  let window ← Window.withCapacity tokenBytes options.capacity stream
  return ⟨window, .empty, .empty, options, 0⟩

/-- A parser for which there is room is a new one. -/
theorem setUp_of_fits {tokenBytes : Nat} {options : Options} (stream : σ)
    (h : Window.Fits tokenBytes options.capacity) :
    setUp tokenBytes stream options = .ok (new stream options : Parser σ κ) := by
  rw [setUp, Window.withCapacity, if_pos h]
  rfl

theorem setUp_of_not_fits {tokenBytes : Nat} {options : Options} (stream : σ)
    (h : ¬ Window.Fits tokenBytes options.capacity) :
    (setUp tokenBytes stream options : Except Fault (Parser σ κ)) = .error .capacityOverflow := by
  rw [setUp, Window.withCapacity, if_neg h]
  rfl

/-- Position of the current token in the stream. -/
def absolute (p : Parser σ κ) : Nat := p.window.absolute

/-- Some mark is outstanding. -/
def isSpeculating (p : Parser σ κ) : Bool := p.marks.isSpeculating

/-- The work done so far. -/
def stats (p : Parser σ κ) : Stats where
  tokensPulled := p.window.pulled
  memoHits := p.memo.hits
  memoMisses := p.memo.misses
  memoEntries := p.memo.size
  truncations := p.truncations
  retired := p.window.retired
  peakBuffered := p.window.peak

/-- Does something with the window.  Its lexical errors are the parser's. -/
def onWindow (m : Run (Window σ κ) LexError α) : Parsing σ κ α :=
  Run.zoom window (fun w p => { p with window := w }) .lexical m

/-! ### Marks -/

/-- Marks the current token and tells how many marks are outstanding. -/
def mark : Parsing σ κ Nat := do
  Run.update fun p => { p with marks := p.marks.push p.window.cursor }
  Run.read fun p => p.marks.depth

/-- Takes the newest mark back and, with `restore`, rewinds to it.  Without a mark nothing
    happens. -/
def release (restore : Bool) : Parsing σ κ Unit := fun p =>
  match p.marks.pop with
  | (none, _) => (.ok (), p)
  | (some cursor, marks) =>
      if restore then onWindow (Window.seek cursor) { p with marks }
      else (.ok (), { p with marks })

/-! ### Tokens -/

/-- Lets the tokens before the cursor go, and the memo entries recorded against the old layout.  The
    window is drained here, so an entry at the new first position belongs to the old layout, too. -/
def truncate (p : Parser σ κ) : Parser σ κ :=
  let window := p.window.truncate
  { p with
    window
    memo := p.memo.dropBefore (window.retired + 1)
    truncations := p.truncations + 1 }

variable [TokenStream σ κ] [DecidableEq κ] [TokenKind κ]

/-- The token `depth` places behind the current one, which is at depth zero. -/
def peek (depth : Nat) : Parsing σ κ (Token κ) := onWindow (Window.peek depth)

/-- The kind of the token at `depth`. -/
def peekKind (depth : Nat) : Parsing σ κ κ := do
  return (← peek depth).kind

/-- The current token is of the kind `kind`. -/
def check (kind : κ) : Parsing σ κ Bool := do
  return decide ((← peekKind 0) = kind)

/-- Moves past the current token. -/
def advance : Parsing σ κ Unit := do
  onWindow Window.advance
  Run.update fun p =>
    if p.window.isDrained && !p.isSpeculating then p.truncate else p

/-- The current token as an error shows it. -/
def sight : Parsing σ κ (Sighting κ) := do
  let t ← peek 0
  Run.read fun p => .ofToken p.absolute t

/-- Moves past the current token if it is of the kind `kind`, and fails otherwise. -/
def expect (kind : κ) : Parsing σ κ Unit := do
  if ← check kind then advance
  else Run.fail (.mismatch kind (← sight))

/-! ### Speculation -/

/-- Runs `rule` as pure lookahead and hands back the mismatch it ended in, if it did. -/
def speculate (rule : Parsing σ κ Unit) : Parsing σ κ (Option (ParseError κ)) := do
  let _ ← mark
  let outcome ← rule.settle
  -- behind a fault or without fuel there is no outcome, and the mark stays
  release true
  match outcome with
  | .ok () => return none
  | .error e => if e.isMismatch then return some e else Run.fail e

/-- Tells whether `rule` matches from the current token on, and stays there. -/
def attempt (rule : Parsing σ κ Unit) : Parsing σ κ Bool := do
  return (← speculate rule).isNone

/-- Runs the first of `alternatives` that matches; `furthest` is the furthest mismatch of those
    before them. -/
def chooseFrom (name : String) (furthest : Option (ParseError κ)) :
    List (Parsing σ κ Unit) → Parsing σ κ Unit
  | [] => do Run.fail (.exhausted name (← sight) furthest)
  | alternative :: rest => do
      match ← speculate alternative with
      -- the trial has been taken back, so the alternative runs once more
      | none => alternative
      | some e => chooseFrom name (some (.further furthest e)) rest

/-- Runs the first of `alternatives` that matches from the current token on.  When none does, the
    error names the decision and the current token. -/
def choose (name : String) (alternatives : List (Parsing σ κ Unit)) : Parsing σ κ Unit :=
  chooseFrom name none alternatives

/-! ### Memoization -/

/-- Jumps over a recorded span, which must start at the current token. -/
def jump (span : Span) : Parsing σ κ Unit := do
  if span.start = (← Run.read fun p => p.window.cursor) then
    onWindow (Window.seek span.stop)
  else Run.fault .staleSpan

/-- Records that `rule` led from position `position` and index `start` to the current token.  When
    the window has let the tokens from `position` on go, there is nothing to record. -/
def record (rule : String) (position start : Nat) : Parsing σ κ Unit := fun p =>
  if p.window.retired ≤ position then
    match Span.of? start p.window.cursor with
    | some span => (.ok (), { p with memo := p.memo.store rule position span })
    | none => (.error (.fault .reversedSpan), p)
  else (.ok (), p)

/-- Asks the memo table for `rule` at the current token. -/
def consult (rule : String) : Parsing σ κ (Option Span) := fun p =>
  let (span, memo) := p.memo.lookup rule p.absolute
  (.ok span, { p with memo })

/-- Runs `body` and records where it ended. -/
def runAndRecord (rule : String) (body : Parsing σ κ Unit) : Parsing σ κ Unit := do
  let position ← Run.read absolute
  let start ← Run.read fun p => p.window.cursor
  body
  record rule position start

/-- Runs `body`, the body of the rule `rule`, unless it is known where that rule ends from the
    current token on.  Only successes are recorded. -/
def memoize (rule : String) (body : Parsing σ κ Unit) : Parsing σ κ Unit := do
  if ← Run.read fun p => p.options.memoize then
    match ← consult rule with
    | some span => jump span
    | none => runAndRecord rule body
  else body

end Parser

end Packrat
