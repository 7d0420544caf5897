import Packrat.Assoc
import Packrat.CharStream
import Packrat.CommandLine
import Packrat.Fault
import Packrat.Lex.CharClass
import Packrat.Lex.Cursor
import Packrat.Lex.Error
import Packrat.Lex.Lexer
import Packrat.Lex.Pattern
import Packrat.Lex.Rule
import Packrat.ListLang.Grammar
import Packrat.ListLang.Kind
import Packrat.ListLang.Lexer
import Packrat.ListLang.Recognizer
import Packrat.Main
import Packrat.Parse.Error
import Packrat.Parse.Expr
import Packrat.Parse.Marks
import Packrat.Parse.Memo
import Packrat.Parse.Parser
import Packrat.Parse.Window
import Packrat.Position
import Packrat.Run
import Packrat.Text.Blank
import Packrat.Text.Extender
import Packrat.Text.Ignorable
import Packrat.Text.Printable
import Packrat.Text.Quoted
import Packrat.Text.RangeTable
import Packrat.Text.Slice
import Packrat.Token
import Packrat.TokenStream
import Packrat.Proofs.Discipline
import Packrat.Proofs.Layout
import Packrat.Proofs.Orderly
import Packrat.Proofs.Invariant
import Packrat.Proofs.Tape
import Packrat.Proofs.Replay
import Packrat.Proofs.Simulation
import Packrat.Proofs.Transparency
import Packrat.Proofs.Script
import Packrat.Proofs.ListLang.Derivation
import Packrat.Proofs.ListLang.Outcome
import Packrat.Proofs.ListLang.Recognition
import Packrat.Proofs.ListLang.Interruption
import Packrat.Proofs.Lockstep
import Packrat.Proofs.Fidelity
import Packrat.Proofs.Places
import Packrat.Proofs.Rounds
import Packrat.Proofs.ListLang.Lexemes
import Packrat.Proofs.ListLang.Lexing
import Packrat.Proofs.Evaluation
import Packrat.Proofs.Steady
import Packrat.Proofs.Recovery
import Packrat.Proofs.Lookahead
import Packrat.Proofs.Truthful
import Packrat.Proofs.Tame
import Packrat.Proofs.Choice
import Packrat.Proofs.CursorRuns
import Packrat.Proofs.Selection
import Packrat.Proofs.Intact
import Packrat.Proofs.ListLang.Passes
import Packrat.Proofs.ListLang.Work
import Packrat.Proofs.Renaming
import Packrat.Proofs.ListLang.Prefixes
import Packrat.Proofs.LexerRuns
import Packrat.Proofs.LexerProgress
import Packrat.Proofs.Occupancy
import Packrat.Proofs.LexerSequence
import Packrat.Proofs.ListLang.Verdicts
import Packrat.Proofs.CommandLine
import Packrat.Proofs.ListLang.Indifference
import Packrat.Proofs.Fitting
import Packrat.Proofs.Halting
import Packrat.Proofs.ListLang.Termination
import Packrat.Proofs.MemoTable
import Packrat.Proofs.PositionLimits
