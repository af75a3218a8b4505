import TermLang.Command.Arguments
import TermLang.Command.Help
import TermLang.Command.Option
import TermLang.Command.Run
import TermLang.Decimal.Double
import TermLang.Decimal.Rounding
import TermLang.Decimal.Shortest
import TermLang.Decimal.Style
import TermLang.Dump.Debug
import TermLang.Dump.Decode
import TermLang.Dump.Format
import TermLang.Dump.Json
import TermLang.Dump.JsonGrammar
import TermLang.Dump.JsonReader
import TermLang.Dump.Reading
import TermLang.Dump.Ron
import TermLang.Dump.Tree
import TermLang.Files.Disk
import TermLang.Files.Load
import TermLang.Files.Path
import TermLang.Files.Tree
import TermLang.Frontend
import TermLang.Grammar.Argument
import TermLang.Grammar.Chain
import TermLang.Grammar.Declaration
import TermLang.Grammar.Head
import TermLang.Grammar.Parse
import TermLang.Grammar.Program
import TermLang.Grammar.Rule
import TermLang.Grammar.Stream
import TermLang.Grammar.SyntaxError
import TermLang.Layout.Piece
import TermLang.Layout.Printer
import TermLang.Layout.Spelling
import TermLang.Log
import TermLang.Main
import TermLang.Proofs.Alike
import TermLang.Proofs.Allowance
import TermLang.Proofs.Alone
import TermLang.Proofs.Attempts
import TermLang.Proofs.Balance
import TermLang.Proofs.Brackets
import TermLang.Proofs.Breaks
import TermLang.Proofs.Counters
import TermLang.Proofs.Coverage
import TermLang.Proofs.CutTerms
import TermLang.Proofs.DecimalText
import TermLang.Proofs.Decoded
import TermLang.Proofs.Detached
import TermLang.Proofs.DigitText
import TermLang.Proofs.Dumps
import TermLang.Proofs.Ending
import TermLang.Proofs.ErrorPlaces
import TermLang.Proofs.GuardTerms
import TermLang.Proofs.Guards
import TermLang.Proofs.Headroom
import TermLang.Proofs.HeadroomTerms
import TermLang.Proofs.Integers
import TermLang.Proofs.JsonNumbers
import TermLang.Proofs.JsonText
import TermLang.Proofs.Juxtaposed
import TermLang.Proofs.Layouts
import TermLang.Proofs.Leads
import TermLang.Proofs.Levels
import TermLang.Proofs.Lines
import TermLang.Proofs.Lossless
import TermLang.Proofs.Marks
import TermLang.Proofs.NestedValues
import TermLang.Proofs.Nesting
import TermLang.Proofs.NestingLimit
import TermLang.Proofs.NormalForm
import TermLang.Proofs.OpenTerms
import TermLang.Proofs.Orderly
import TermLang.Proofs.OrderlyTerms
import TermLang.Proofs.Partners
import TermLang.Proofs.Places
import TermLang.Proofs.Positions
import TermLang.Proofs.PrintedTerms
import TermLang.Proofs.PrintedText
import TermLang.Proofs.Quoting
import TermLang.Proofs.Reading
import TermLang.Proofs.ReadingTerms
import TermLang.Proofs.Relaxed
import TermLang.Proofs.Respaced
import TermLang.Proofs.RoundTrip
import TermLang.Proofs.Rows
import TermLang.Proofs.Rules
import TermLang.Proofs.Runs
import TermLang.Proofs.Scanned
import TermLang.Proofs.SeamTerms
import TermLang.Proofs.Seams
import TermLang.Proofs.Spelled
import TermLang.Proofs.Spires
import TermLang.Proofs.Steady
import TermLang.Proofs.Steps
import TermLang.Proofs.TermRuns
import TermLang.Proofs.Towers
import TermLang.Proofs.Truthful
import TermLang.Proofs.TruthfulTerms
import TermLang.Proofs.Unended
import TermLang.Proofs.WindowTerms
import TermLang.Proofs.Windows
import TermLang.Proofs.Yield
import TermLang.Report.Code
import TermLang.Report.Diagnostic
import TermLang.Report.Emitter
import TermLang.Settings.Basic
import TermLang.Settings.Decode
import TermLang.Settings.Resolve
import TermLang.Source.File
import TermLang.Source.Position
import TermLang.Term.Basic
import TermLang.Term.Outline
import TermLang.Text.Bytes
import TermLang.Text.Digits
import TermLang.Text.Extender
import TermLang.Text.Hidden
import TermLang.Text.Quoted
import TermLang.Text.Ranges
import TermLang.Token.Basic
import TermLang.Token.Kind
import TermLang.Token.KindSet
import TermLang.Token.LexError
import TermLang.Token.Lexer
import TermLang.Token.Scan
import TermLang.Token.Trivia
import TermLang.Toml.Reader
import TermLang.Toml.Scalar
import TermLang.Toml.Value
