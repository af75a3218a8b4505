/-!
# Grammar rules

The rules that an error can name, with the name each has in a message and its label in an answer.
-/

namespace TermLang

/-- A rule of the grammar. -/
inductive Rule
  | program | term | blocked | block | anno | param | kwArg | arg | letRule | forRule
  | structOf | struct | enumOf | enum | traitOf | trait | funOf | fun_ | fatArrow
  | kindOf | kind | whenRule | caseRule | generic | deref | selector
  | implicitApplier | positionalApplier | namedApplier | assigner
deriving DecidableEq, Repr, Inhabited

namespace Rule

/-- The rule as it stands in an error message. -/
def text : Rule → String
  | .program => "program"
  | .term => "term"
  | .blocked => "blocked"
  | .block => "block"
  | .anno => "anno"
  | .param => "param"
  | .kwArg => "kwArg"
  | .arg => "arg"
  | .letRule => "let"
  | .forRule => "for"
  | .structOf => "structof"
  | .struct => "struct"
  | .enumOf => "enumof"
  | .enum => "enum"
  | .traitOf => "traitof"
  | .trait => "trait"
  | .funOf => "funof"
  | .fun_ => "fun"
  | .fatArrow => "fatArrow"
  | .kindOf => "kindof"
  | .kind => "kind"
  | .whenRule => "when"
  | .caseRule => "case"
  | .generic => "generic"
  | .deref => "deref"
  | .selector => "selector"
  | .implicitApplier => "implicitApplier"
  | .positionalApplier => "positionalApplier"
  | .namedApplier => "namedApplier"
  | .assigner => "assigner"

/-- The rule by its label. -/
def label : Rule → String
  | .program => "Program"
  | .term => "Term"
  | .blocked => "Blocked"
  | .block => "Block"
  | .anno => "Anno"
  | .param => "Param"
  | .kwArg => "KwArg"
  | .arg => "Arg"
  | .letRule => "Let"
  | .forRule => "For"
  | .structOf => "StructOf"
  | .struct => "Struct"
  | .enumOf => "EnumOf"
  | .enum => "Enum"
  | .traitOf => "TraitOf"
  | .trait => "Trait"
  | .funOf => "FunOf"
  | .fun_ => "Fun"
  | .fatArrow => "FatArrow"
  | .kindOf => "KindOf"
  | .kind => "Kind"
  | .whenRule => "When"
  | .caseRule => "Case"
  | .generic => "Generic"
  | .deref => "Deref"
  | .selector => "Selector"
  | .implicitApplier => "ImplicitApplier"
  | .positionalApplier => "PositionalApplier"
  | .namedApplier => "NamedApplier"
  | .assigner => "Assigner"

/-- Every rule, in declaration order. -/
def all : List Rule :=
  [.program, .term, .blocked, .block, .anno, .param, .kwArg, .arg, .letRule, .forRule,
   .structOf, .struct, .enumOf, .enum, .traitOf, .trait, .funOf, .fun_, .fatArrow,
   .kindOf, .kind, .whenRule, .caseRule, .generic, .deref, .selector,
   .implicitApplier, .positionalApplier, .namedApplier, .assigner]

/-- The rule with a given label. -/
def ofLabel? (label : String) : Option Rule := all.find? fun r => r.label == label

theorem mem_all (r : Rule) : r ∈ all := by cases r <;> decide

end Rule

end TermLang
