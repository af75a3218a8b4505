import TermLang.Dump.Debug
import TermLang.Dump.Json
import TermLang.Dump.Ron
import TermLang.Layout.Printer

/-!
# Dump formats

A program is dumped as a tree in one of three formats, or printed as source text. Only the RON
format can refuse a program, for nesting too many values.
-/

namespace TermLang

/-- A dump format. -/
inductive DumpFormat
  | debug
  | json
  | ron
  | pretty
deriving DecidableEq, Repr, Inhabited

namespace DumpFormat

/-- The name of a format. -/
def text : DumpFormat → String
  | .debug => "debug"
  | .json => "json"
  | .ron => "ron"
  | .pretty => "pretty"

/-- The format as it stands in a listing of settings. -/
def label : DumpFormat → String
  | .debug => "Debug"
  | .json => "Json"
  | .ron => "Ron"
  | .pretty => "Pretty"

/-- Every format. -/
def all : List DumpFormat := [.debug, .json, .ron, .pretty]

/-- The format with a given name, in exactly this spelling. -/
def ofText? (name : String) : Option DumpFormat := all.find? fun f => f.text == name

/-- What is wrong with a name that no format has. -/
def unknownMessage (name : String) : String := s!"unknown output format '{name}'"

theorem ofText?_text (f : DumpFormat) : ofText? f.text = some f := by cases f <;> decide

end DumpFormat

/-- A dump that cannot be written. -/
inductive DumpError
  /-- A RON dump would nest too many values. -/
  | ronTooDeep
deriving DecidableEq, Repr

/-- What failed, and the reason. -/
def DumpError.chain : DumpError → List String
  | .ronTooDeep =>
    ["Failed to encode RON",
     "Exceeded recursion limit, try increasing `ron::Options::recursion_limit` and using " ++
     "`serde_stacker` to protect against a stack overflow"]

/-- A program in a dump format; the width is the indentation of source text. -/
def Program.render (p : Program) (format : DumpFormat) (width : Nat)
    (limits : RonLimits := .standard) : Except DumpError String :=
  match format with
  | .debug => .ok p.tree.debug
  | .json => .ok p.json.pretty
  | .ron =>
    match p.tree.ron? limits with
    | some text => .ok text
    | none => .error .ronTooDeep
  | .pretty => .ok (p.pretty width)

end TermLang
