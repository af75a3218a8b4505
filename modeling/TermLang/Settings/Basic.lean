import TermLang.Dump.Format
import TermLang.Grammar.Program
import TermLang.Log

/-!
# Settings

The nesting limit of the parser, the format and the indentation of dumps, and the level of the log.
Settings are written as a TOML document of three sections, and in one line for the log.
-/

namespace TermLang

/-- What can be set. -/
structure Settings where
  /-- The nesting levels that the parser allows. -/
  maxDepth : Nat
  format : DumpFormat
  /-- The spaces of one level of source text. -/
  indent : Nat
  logLevel : LogLevel
deriving DecidableEq, Repr

namespace Settings

/-- What holds where nothing is set. -/
def default : Settings := ⟨defaultMaxDepth, .debug, 4, .warn⟩

instance : Inhabited Settings := ⟨default⟩

/-- The settings as a TOML document. -/
def document (s : Settings) : String :=
  s!"[parser]\nmax_depth = {s.maxDepth}\n\n" ++
  s!"[output]\nformat = \"{s.format.text}\"\nindent = {s.indent}\n\n" ++
  s!"[log]\nlevel = \"{s.logLevel.text}\"\n"

/-- The settings in one line. -/
def listing (s : Settings) : String :=
  s!"ShllConfig \x7b parser: ParserConfig \x7b max_depth: {s.maxDepth} \x7d, " ++
  s!"output: OutputConfig \x7b format: {s.format.label}, indent: {s.indent} \x7d, " ++
  s!"log: LogConfig \x7b level: {s.logLevel.label} \x7d \x7d"

end Settings

end TermLang
