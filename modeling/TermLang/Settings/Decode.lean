import TermLang.Settings.Basic
import TermLang.Toml.Reader

/-!
# Settings from a TOML document

A document has the sections `parser`, `output` and `log`. A section is a table, whose other entries
are ignored, or an array with the entries of the section in order. What is left out keeps its
default.
-/

namespace TermLang

/-- Why a text describes no settings. -/
inductive SettingsFault
  | notToml
  /-- An entry or section has a value of the wrong sort. -/
  | wrongValue
deriving DecidableEq, Repr

/-- The reason in words. -/
def SettingsFault.text : SettingsFault → String
  | .notToml => "not a TOML document"
  | .wrongValue => "a setting has a value that it cannot take"

namespace Settings

/-- The number that a value is, which must not be negative. -/
def natural? : Toml.Value → Option Nat
  | .integer n => if 0 ≤ n then some n.toNat else none
  | _ => none

/-- The name that a value stands for: a string, or a table with the name as its only key and
nothing under it. -/
def name? : Toml.Value → Option String
  | .string s => some s
  | .table [(key, .table [])] | .table [(key, .array [])] => some key
  | _ => none

/-- The entries of a section with some names. -/
def section? (names : List String) : Toml.Value → Option (String → Option Toml.Value)
  | .table entries => some fun name => entries.lookup name
  | .array items => some fun name => (names.zip items).lookup name
  | .dateTime => some fun _ => none
  | _ => none

/-- The value of an entry, or a default if it is left out. -/
def entryOr {α : Type} (fallback : α) (read : Toml.Value → Option α) (entry : Option Toml.Value) :
    Option α :=
  match entry with
  | none => some fallback
  | some value => read value

/-- The settings with those of the section `parser`. -/
def withParser (s : Settings) (value : Toml.Value) : Option Settings := do
  let entry ← section? ["max_depth"] value
  return { s with maxDepth := ← entryOr s.maxDepth natural? (entry "max_depth") }

/-- The settings with those of the section `output`. -/
def withOutput (s : Settings) (value : Toml.Value) : Option Settings := do
  let entry ← section? ["format", "indent"] value
  let format? := fun v => (name? v).bind DumpFormat.ofText?
  return { s with
    format := ← entryOr s.format format? (entry "format")
    indent := ← entryOr s.indent natural? (entry "indent") }

/-- The settings with those of the section `log`. -/
def withLog (s : Settings) (value : Toml.Value) : Option Settings := do
  let entry ← section? ["level"] value
  let level? := fun v => (name? v).bind LogLevel.ofText?
  return { s with logLevel := ← entryOr s.logLevel level? (entry "level") }

/-- The settings that a document describes. -/
def ofToml? (value : Toml.Value) : Option Settings := do
  let entry ← section? ["parser", "output", "log"] value
  let s ← entryOr .default (withParser .default) (entry "parser")
  let s ← entryOr s (withOutput s) (entry "output")
  entryOr s (withLog s) (entry "log")

/-- The settings that a text describes. -/
def read (text : String) : Except SettingsFault Settings :=
  match Toml.read? text with
  | none => .error .notToml
  | some value =>
    match ofToml? value with
    | none => .error .wrongValue
    | some s => .ok s

end Settings

end TermLang
