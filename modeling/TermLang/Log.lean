/-!
# Log entries

A computation that reports on its way keeps its entries in order. An entry is shown if its level is
at least the one that is set.
-/

namespace TermLang

/-- The level of a log entry. -/
inductive LogLevel
  | trace
  | debug
  | info
  | warn
  | error
deriving DecidableEq, Repr, Inhabited

namespace LogLevel

/-- Every level, the most detailed first. -/
def all : List LogLevel := [.trace, .debug, .info, .warn, .error]

/-- The name of a level. -/
def text : LogLevel → String
  | .trace => "trace"
  | .debug => "debug"
  | .info => "info"
  | .warn => "warn"
  | .error => "error"

/-- The level as it stands in front of an entry. -/
def tag : LogLevel → String
  | .trace => "TRACE"
  | .debug => "DEBUG"
  | .info => "INFO"
  | .warn => "WARN"
  | .error => "ERROR"

/-- The level as it stands in a listing of settings. -/
def label : LogLevel → String
  | .trace => "Trace"
  | .debug => "Debug"
  | .info => "Info"
  | .warn => "Warn"
  | .error => "Error"

/-- The level with a given name, in exactly this spelling. -/
def ofText? (name : String) : Option LogLevel := all.find? fun l => l.text == name

/-- An ASCII capital letter as a small one; any other character as it is. -/
def lowered (name : String) : String := String.ofList (name.toList.map Char.toLower)

/-- The level that a word names, in capitals or not; `warning` stands for `warn`. -/
def ofWord? (word : String) : Option LogLevel :=
  if lowered word = "warning" then some .warn else ofText? (lowered word)

/-- What is wrong with a word that names no level. -/
def unknownMessage (word : String) : String := s!"unknown log level '{lowered word}'"

/-- How severe a level is. -/
def severity : LogLevel → Nat
  | .trace => 0
  | .debug => 1
  | .info => 2
  | .warn => 3
  | .error => 4

/-- An entry of this level is shown where the other level is set. -/
def shownAt (level set : LogLevel) : Bool := set.severity ≤ level.severity

theorem ofText?_text (l : LogLevel) : ofText? l.text = some l := by cases l <;> decide

theorem shownAt_refl (l : LogLevel) : l.shownAt l = true := by cases l <;> rfl

end LogLevel

/-- A level and a message. -/
structure LogEntry where
  level : LogLevel
  message : String
deriving DecidableEq, Repr

namespace LogEntry

/-- The level, right-aligned to five characters, and the message. -/
def line (e : LogEntry) : String :=
  let tag := e.level.tag
  "".pushn ' ' (5 - tag.length) ++ tag ++ " " ++ e.message

/-- The lines of the entries that are shown where a level is set. -/
def lines (set : LogLevel) (entries : List LogEntry) : String :=
  String.join ((entries.filter (·.level.shownAt set)).map fun e => e.line ++ "\n")

end LogEntry

end TermLang
