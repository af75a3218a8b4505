import TermLang.Command.Arguments
import TermLang.Command.Help
import TermLang.Files.Load
import TermLang.Report.Emitter
import TermLang.Settings.Resolve

/-!
# Running commands

A run answers an exit code and what it writes to its two output streams. Errors in source text are
reported as diagnostics; any other failure is told with its causes. Log entries and diagnostics go
to the error stream, so that the output stream holds results only.
-/

namespace TermLang

/-- What a run of the program leaves. -/
structure Outcome where
  exitCode : UInt8
  output : String
  errors : String
deriving DecidableEq, Repr

namespace Outcome

/-- A run that did what was asked for. -/
def success (output : String) : Outcome := ⟨0, output, ""⟩

/-- A run that could not do what was asked for. -/
def failure (errors : String) : Outcome := ⟨1, "", errors⟩

/-- The run with log lines in front of what it writes to the error stream. -/
def after (o : Outcome) (log : String) : Outcome := { o with errors := log ++ o.errors }

@[simp] theorem exitCode_after (o : Outcome) (log : String) : (o.after log).exitCode = o.exitCode :=
  rfl

@[simp] theorem output_after (o : Outcome) (log : String) : (o.after log).output = o.output := rfl

end Outcome

namespace Command

/-- A text with each further line indented by so many spaces. -/
def hanging (indent : Nat) (text : String) : String :=
  ("\n" ++ "".pushn ' ' indent).intercalate (text.splitOn "\n")

/-- A failure with its causes, which are numbered from zero if there are several. -/
def failureText : List String → String
  | [] => ""
  | [failed] => s!"Error: {failed}\n"
  | [failed, cause] => s!"Error: {failed}\n\nCaused by:\n    {hanging 4 cause}\n"
  | failed :: causes =>
    let rows := causes.mapIdx fun i cause =>
      let number := toString i
      let gap := "".pushn ' ' (5 - number.length)
      s!"{gap}{number}: {hanging 7 cause}\n"
    s!"Error: {failed}\n\nCaused by:\n{String.join rows}"

/-- The diagnostic of an error in a source file, as the program reports it. -/
def reportText (file : SourceFile) (e : SourceError) : String :=
  { Emitter.default with useColors := false }.render (some file) (.ofSourceError file e)

/-- The outcome of a reading with the log and, unless it fails, what is done with its result. -/
def finish {α : Type} (file : SourceFile) (level : LogLevel) (reading : Logged α)
    (use : α → Outcome) : Outcome :=
  let outcome :=
    match reading.result with
    | .ok a => use a
    | .error e => .failure (reportText file e)
  outcome.after (LogEntry.lines level reading.log)

/-- A token with its place. -/
def tokenLine (t : Token) : String :=
  s!"{t.span.start.text} {t.kind.label} {t.lexeme}\n"

/-- Prints the tokens of a file. -/
def listTokens (file : SourceFile) (level : LogLevel) : Outcome :=
  finish file level (readTokens file.content) fun ts =>
    .success (String.join (ts.map tokenLine))

/-- Dumps the program in a file. -/
def dump (file : SourceFile) (format : DumpFormat) (s : Settings) (level : LogLevel) : Outcome :=
  finish file level (readProgram file.content s.maxDepth) fun p =>
    match p.render format s.indent with
    | .ok text => .success (if text.endsWith "\n" then text else text ++ "\n")
    | .error e => .failure (failureText e.chain)

/-- Tells whether a file holds a program. -/
def confirm (file : SourceFile) (s : Settings) (level : LogLevel) : Outcome :=
  finish file level (readProgram file.content s.maxDepth) fun _ => .success "ok\n"

/-- Prints a file in its pretty layout, or tells whether it has that layout. -/
def layOut (file : SourceFile) (checkOnly : Bool) (s : Settings) (level : LogLevel) : Outcome :=
  finish file level (readProgram file.content s.maxDepth) fun p =>
    let text := p.pretty s.indent
    if ¬ checkOnly then .success text
    else if text = file.content then .success ""
    else .failure s!"{file.name} is not formatted\n"

/-- Explains a code, its letters capital or not. -/
def explainCode (code : String) : Outcome :=
  match ErrorCode.find? (String.ofList (code.toList.map Char.toUpper)) with
  | some c => .success s!"{c.code}: {c.title}\nhelp: {c.help}\n"
  | none => .failure (failureText [s!"Unknown error code: {code}"])

/-- Prints the version, and in full the system and the settings as well. -/
def showVersion (inFull : Bool) (s : Settings) : Outcome :=
  let details := if inFull then s!"Host: linux\n{s.document}" else ""
  .success s!"{languageName} {versionText}\n{details}"

/-- The outcome of a command on a file, or of the failure to load it. -/
def withFile {m : Type → Type} [Monad m] (disk : Disk m) (path : String)
    (use : SourceFile → Outcome) : m Outcome :=
  return match ← SourceFile.load disk path with
    | .ok file => use file
    | .error e => .failure (failureText e.chain)

/-- Runs a command under some settings. -/
def run {m : Type → Type} [Monad m] (disk : Disk m) (verbose : Bool) (s : Settings) :
    Command → m Outcome :=
  let level := if verbose then .debug else s.logLevel
  fun
  | .tokens path => withFile disk path fun file => listTokens file level
  | .parse (.file path) format =>
    withFile disk path fun file => dump file (format.getD s.format) s level
  | .parse (.inline code) format =>
    return dump ⟨"<eval>", code⟩ (format.getD s.format) s level
  | .check path => withFile disk path fun file => confirm file s level
  | .fmt path checkOnly => withFile disk path fun file => layOut file checkOnly s level
  | .explain code => return explainCode code
  | .version => return showVersion verbose s

end Command

/-- Runs a command after finding its settings, which are logged first. -/
def Invocation.run {m : Type → Type} [Monad m] (disk : Disk m) (e : Environment)
    (directory : String) (i : Invocation) : m Outcome := do
  match ← Settings.resolve disk e i.settingsPath directory with
  | .error e =>
    return .failure (Command.failureText ("Failed to load configuration" :: e.chain))
  | .ok s =>
    let level := if i.verbose then .debug else s.logLevel
    let log := LogEntry.lines level [⟨.debug, s!"Using configuration {s.listing}"⟩]
    return (← i.command.run disk i.verbose s).after log

/-- Runs the program on its arguments in a directory. -/
def runProgram {m : Type → Type} [Monad m] (disk : Disk m) (e : Environment) (directory : String)
    (args : List String) : m (Except UsageError Outcome) := do
  match Arguments.read args with
  | .error e => return .error e
  | .ok (.help topic) => return .ok (.success (Help.text topic))
  | .ok .version => return .ok (.success s!"{programName} {versionText}\n")
  | .ok (.run i) => return .ok (← i.run disk e directory)

end TermLang
