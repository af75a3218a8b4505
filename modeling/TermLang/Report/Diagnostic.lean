import TermLang.Report.Code
import TermLang.Source.File

/-!
# Diagnostics

A diagnostic is a message with a severity, a code, advice and, where it has one, the span of source
text that it is about. Notes that belong to it are diagnostics themselves.
-/

namespace TermLang

/-- How bad a finding is. -/
inductive Severity
  | error
  | warning
  | info
  | hint
deriving DecidableEq, Repr

namespace Severity

/-- Every severity, the worst first. -/
def all : List Severity := [.error, .warning, .info, .hint]

/-- The name of a severity. -/
def text : Severity → String
  | .error => "error"
  | .warning => "warning"
  | .info => "info"
  | .hint => "hint"

/-- The severity with a given name. -/
def ofText? (name : String) : Option Severity := all.find? fun s => s.text == name

/-- Only an error is one. -/
def isError (s : Severity) : Bool := s = .error

theorem ofText?_text (s : Severity) : ofText? s.text = some s := by cases s <;> decide

end Severity

/-- A finding to report. -/
inductive Diagnostic
  | mk (severity : Severity) (code message help : String) (span : Option Span)
      (related : List Diagnostic)

namespace Diagnostic

def severity : Diagnostic → Severity
  | .mk severity _ _ _ _ _ => severity

/-- The text of the code; it need not be registered. -/
def code : Diagnostic → String
  | .mk _ code _ _ _ _ => code

def message : Diagnostic → String
  | .mk _ _ message _ _ _ => message

/-- The advice, empty for none. -/
def help : Diagnostic → String
  | .mk _ _ _ help _ _ => help

def span : Diagnostic → Option Span
  | .mk _ _ _ _ span _ => span

/-- The notes that follow the report. -/
def related : Diagnostic → List Diagnostic
  | .mk _ _ _ _ _ related => related

/-- An error with a registered code and its advice. -/
def error (code : ErrorCode) (message : String) (span : Option Span) : Diagnostic :=
  .mk .error code.code message code.help span []

/-- The span, if it stands in a text. -/
def place? (d : Diagnostic) : Option Span := d.span.filter (!·.isNowhere)

/-- The diagnostic on one line, with the place where its span begins. -/
def text (d : Diagnostic) : String :=
  let place := (d.place?.map fun s => s!" at {s.start.text}").getD ""
  s!"{d.severity.text} [{d.code}] {d.message}{place}"

/-- The report of an error in a source file. The span covers the offending text. -/
def ofSourceError (file : SourceFile) : SourceError → Diagnostic
  | .lexical e =>
    let offset := e.position.offset
    let span := file.spanOf offset (offset + Text.byteSize e.found.toList)
    .error (.ofLexFault e.fault) e.description (some span)
  | .syntactic e =>
    let offset := e.position.offset
    let span := file.spanOf offset (offset + Text.byteSize e.lexeme.toList)
    .error (.ofSyntaxError e) e.description (some span)

end Diagnostic

end TermLang
