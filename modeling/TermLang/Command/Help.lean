import TermLang.Command.Option

/-!
# Help texts

The help on the program, or on one of its subcommands: what it does, how it is called, and its
subcommands, operands and options in columns.
-/

namespace TermLang

/-- The name of the language. -/
def languageName : String := "SHLL"

/-- The name that the program is called by. -/
def programName : String := "shll"

/-- The version of the program. -/
def versionText : String := "0.1.0"

/-- What a subcommand does. -/
def Subcommand.summary : Subcommand → String
  | .tokens => "Print the tokens of a source file"
  | .parse => "Parse a source file or inline code and dump the AST"
  | .check => "Check a source file for syntax errors"
  | .fmt => "Pretty print a source file"
  | .explain => "Explain an error code, such as E0201"
  | .version => "Print version information"
  | .help => "Print this message or the help of the given subcommand(s)"

/-- What an option does. -/
def CommandOption.summary : CommandOption → String
  | .eval => "Parse CODE instead of a file"
  | .format => "Dump format, defaults to the configured one"
  | .check => "Exit with status 1 if the file is not formatted instead of printing it"
  | .verbose => "Enable debug logging"
  | .config => "Configuration file, overriding ./shll.toml and the user config"
  | .help => "Print help"
  | .version => "Print version"

/-- An option in its spellings, with the name of its value. -/
def CommandOption.usage (o : CommandOption) : String :=
  let short :=
    match o.short? with
    | some c => s!"-{c}, "
    | none => "    "
  let value :=
    match o with
    | .eval => " <CODE>"
    | .format => " <FORMAT>"
    | .config => " <PATH>"
    | _ => ""
  s!"{short}--{o.long}{value}"

/-- The operand of a subcommand and what it is, if it has one. -/
def Subcommand.operand? : Subcommand → Option (String × String)
  | .tokens | .check | .fmt => some ("<FILE>", "")
  | .parse => some ("[FILE]", "Source file to parse")
  | .explain => some ("<CODE>", "")
  | .help => some ("[COMMAND]...", "Print help for the subcommand(s)")
  | .version => none

namespace Help

/-- The options in the order in which they are listed. -/
def listed : Option Subcommand → List CommandOption
  | none => CommandOption.common
  | some .parse => [.eval, .verbose, .config, .format, .help]
  | some .fmt => [.check, .verbose, .config, .help]
  | some .help => []
  | some _ => [.verbose, .config, .help]

/-- Rows of two columns, the second aligned. -/
def columns (rows : List (String × String)) : String :=
  let width := rows.foldl (fun w (first, _) => max w first.length) 0
  String.join (rows.map fun (first, second) =>
    let gap := "".pushn ' ' (width - first.length)
    s!"  {first}{gap}  {second}\n")

/-- A block of rows under a title, left out if there are none. -/
def block (title : String) (rows : List (String × String)) : String :=
  if rows.isEmpty then "" else s!"\n{title}:\n{columns rows}"

/-- The help on a subcommand, or on the program as a whole. -/
def text (topic : Option Subcommand) : String :=
  let options := block "Options" ((listed topic).map fun o => (o.usage, o.summary))
  match topic with
  | none =>
    let commands := block "Commands" (Subcommand.all.map fun c => (c.name, c.summary))
    s!"{languageName}\n\nUsage: {programName} [OPTIONS] <COMMAND>\n{commands}{options}"
  | some c =>
    let marker := if (listed topic).isEmpty then "" else " [OPTIONS]"
    let operand := (c.operand?.map fun (name, _) => s!" {name}").getD ""
    let operands := block "Arguments" c.operand?.toList
    s!"{c.summary}\n\nUsage: {programName} {c.name}{marker}{operand}\n{operands}{options}"

end Help

end TermLang
