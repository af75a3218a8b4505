/-!
# Subcommands and options

What may stand on the command line: the subcommands, the options with their spellings, and which
options each subcommand takes.
-/

namespace TermLang

/-- A subcommand. -/
inductive Subcommand
  | tokens
  | parse
  | check
  | fmt
  | explain
  | version
  | help
deriving DecidableEq, Repr

namespace Subcommand

/-- Every subcommand. -/
def all : List Subcommand := [.tokens, .parse, .check, .fmt, .explain, .version, .help]

/-- The name of a subcommand. -/
def name : Subcommand → String
  | .tokens => "tokens"
  | .parse => "parse"
  | .check => "check"
  | .fmt => "fmt"
  | .explain => "explain"
  | .version => "version"
  | .help => "help"

/-- The subcommand with a given name. -/
def ofName? (name : String) : Option Subcommand := all.find? fun c => c.name == name

theorem ofName?_name (c : Subcommand) : ofName? c.name = some c := by cases c <;> decide

end Subcommand

/-- An option. -/
inductive CommandOption
  | eval
  | format
  | check
  | verbose
  | config
  | help
  | version
deriving DecidableEq, Repr

namespace CommandOption

/-- The long spelling, without its dashes. -/
def long : CommandOption → String
  | .eval => "eval"
  | .format => "format"
  | .check => "check"
  | .verbose => "verbose"
  | .config => "config"
  | .help => "help"
  | .version => "version"

/-- The short spelling, without its dash. -/
def short? : CommandOption → Option Char
  | .eval => some 'e'
  | .format => some 'f'
  | .verbose => some 'v'
  | .help => some 'h'
  | .version => some 'V'
  | .check | .config => none

/-- A value follows the option. -/
def takesValue : CommandOption → Bool
  | .eval | .format | .config => true
  | .check | .verbose | .help | .version => false

/-- The options that may stand before any subcommand. -/
def common : List CommandOption := [.verbose, .config, .help, .version]

/-- The options that may stand after a subcommand. -/
def ofSubcommand : Subcommand → List CommandOption
  | .parse => [.eval, .format, .verbose, .config, .help]
  | .fmt => [.check, .verbose, .config, .help]
  | .tokens | .check | .explain | .version => [.verbose, .config, .help]
  | .help => []

/-- The options that may stand where the given subcommand, if any, is the last one named. -/
def allowed : Option Subcommand → List CommandOption
  | none => common
  | some c => ofSubcommand c

end CommandOption

end TermLang
