import TermLang.Report.Diagnostic

/-!
# Rendering diagnostics

A report begins with a line of severity, code and message, goes on with the place, the lines of
source text that the span covers and a row of marks under its first line, and closes with the
advice and the related notes. Which parts are shown is set by an emitter.

Lines and columns are 64-bit counters. A span may carry any values for them, column zero included:
the difference to the column before it wraps.
-/

namespace TermLang

/-- What is shown of a diagnostic, and how. -/
structure Emitter where
  /-- Severity and code are coloured for a terminal. -/
  useColors : Bool
  showSource : Bool
  showHelp : Bool
  showRelated : Bool
  showLineNumbers : Bool
  /-- The mark under the span. -/
  indicator : Char
  /-- The most source lines shown of a span. -/
  maxLines : Nat
deriving Repr

namespace Emitter

/-- Everything is shown, in colour, with at most six source lines. -/
def default : Emitter := ⟨true, true, true, true, true, '^', 6⟩

instance : Inhabited Emitter := ⟨default⟩

/-! ## Colours -/

/-- The terminal code of bold text. -/
def bold : String := "1"

/-- The terminal code of the colour of a severity: red, yellow, blue, cyan. -/
def colorOf : Severity → String
  | .error => "31"
  | .warning => "33"
  | .info => "34"
  | .hint => "36"

/-- A text in a terminal style, if colours are on. -/
def paint (m : Emitter) (style text : String) : String :=
  if m.useColors then s!"\x1b[{style}m{text}\x1b[0m" else text

/-! ## The parts of a report -/

/-- Severity, code and message; an empty code is left out. -/
def header (m : Emitter) (d : Diagnostic) : String :=
  let severity := m.paint (colorOf d.severity) d.severity.text
  if d.code.isEmpty then s!"{severity}: {d.message}\n"
  else s!"{severity} [{m.paint bold d.code}] {d.message}\n"

/-- The name of the file and the place where the span begins. -/
def location (file : Option SourceFile) (span : Span) : String :=
  let name := (file.map (·.name)).getD "<unknown>"
  s!" --> {name}:{span.start.line}:{span.start.column}\n"

/-- The number of 64-bit counter values. -/
def counterValues : Nat := UInt64.size

/-- The counter before a 64-bit counter; the one before zero is the largest. -/
def counterBefore (n : Nat) : Nat := (n + counterValues - 1) % counterValues

theorem counterBefore_succ {n : Nat} (h : n < counterValues) : counterBefore (n + 1) = n := by
  simp only [counterBefore]
  rw [show n + 1 + counterValues - 1 = n + counterValues by omega, Nat.add_mod_right,
    Nat.mod_eq_of_lt h]

/-- The number of marks under the first line of a span: its columns if it ends on that line, else
the columns from its start to the end of the line, and always one at least. -/
def markCount (span : Span) (lastLine : Nat) (line : String) : Nat :=
  if span.start.line = lastLine then max (span.stop.column - span.start.column) 1
  else max (line.length - counterBefore span.start.column) 1

/-- The margin in front of a source line: its number, right-aligned to four characters. -/
def gutter (m : Emitter) (number : Nat) : String :=
  if m.showLineNumbers then
    let digits := toString number
    "".pushn ' ' (4 - digits.length) ++ digits ++ " | "
  else "     | "

/-- The row of marks under the first line of a span. -/
def markLine (m : Emitter) (span : Span) (lastLine : Nat) (line : String) : String :=
  "     | " ++ "".pushn ' ' (span.start.column - 1) ++
    "".pushn m.indicator (markCount span lastLine line) ++ "\n"

/-- At most so many source lines from a line on, up to the first that the file does not have. -/
def linesFrom (m : Emitter) (file : SourceFile) (number : Nat) : Nat → String
  | 0 => ""
  | count + 1 =>
    match file.lineText? number with
    | none => ""
    | some line => m.gutter number ++ line ++ "\n" ++ linesFrom m file (number + 1) count

/-- The source lines of a span, with the marks under the first. -/
def snippet (m : Emitter) (file : SourceFile) (span : Span) : String :=
  let firstLine := span.start.line
  let lastLine := max span.stop.line firstLine
  match min (lastLine - firstLine + 1) m.maxLines with
  | 0 => ""
  | further + 1 =>
    match file.lineText? firstLine with
    | none => ""
    | some line =>
      m.gutter firstLine ++ line ++ "\n" ++ m.markLine span lastLine line ++
        m.linesFrom file (firstLine + 1) further

/-! ## The whole report -/

/-- A report without the notes that follow it. -/
def alone (m : Emitter) (file : Option SourceFile) (d : Diagnostic) : String :=
  let place :=
    match d.place? with
    | none => ""
    | some span =>
      let lines :=
        match file with
        | some f => if m.showSource then m.snippet f span else ""
        | none => ""
      location file span ++ lines
  let help := if m.showHelp && !d.help.isEmpty then s!"help: {d.help}\n" else ""
  m.header d ++ place ++ help

mutual

/-- A report and the notes that follow it. -/
def render (m : Emitter) (file : Option SourceFile) : Diagnostic → String
  | .mk severity code message help span related =>
    m.alone file (.mk severity code message help span []) ++
      if m.showRelated then renderAll m file related else ""

/-- Reports one after another. -/
def renderAll (m : Emitter) (file : Option SourceFile) : List Diagnostic → String
  | [] => ""
  | d :: ds => render m file d ++ renderAll m file ds

end

end Emitter

end TermLang
