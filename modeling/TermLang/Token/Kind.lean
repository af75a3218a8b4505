/-!
# Kinds of tokens

Punctuation and keywords have one fixed spelling each; literals and identifiers carry a value or a
name; the last kind marks the end of the input. The declaration order is the order in which sets
of kinds are listed.
-/

namespace TermLang

/-- The kind of a token. -/
inductive Kind
  | braceOpen | braceClose | colon | star | starStar | equals | parenOpen | parenClose
  | arrow | fatArrow | bracketOpen | bracketClose | dot
  | kwBlock | kwLet | kwFor | kwIn | kwStructOf | kwStruct | kwEnumOf | kwEnum
  | kwTraitOf | kwTrait | kwKindOf | kwKind | kwWhen | kwCase
  | bool | ident | integer | decimal | string | char
  | eof
deriving DecidableEq, Repr, Inhabited

namespace Kind

/-- Every kind, in declaration order. -/
def all : List Kind :=
  [.braceOpen, .braceClose, .colon, .star, .starStar, .equals, .parenOpen, .parenClose,
   .arrow, .fatArrow, .bracketOpen, .bracketClose, .dot,
   .kwBlock, .kwLet, .kwFor, .kwIn, .kwStructOf, .kwStruct, .kwEnumOf, .kwEnum,
   .kwTraitOf, .kwTrait, .kwKindOf, .kwKind, .kwWhen, .kwCase,
   .bool, .ident, .integer, .decimal, .string, .char, .eof]

theorem mem_all (k : Kind) : k ∈ all := by cases k <;> decide

theorem all_nodup : all.Nodup := by decide

/-- The spelling of a punctuation mark or a keyword. -/
def text? : Kind → Option String
  | .braceOpen => some "\x7b"
  | .braceClose => some "\x7d"
  | .colon => some ":"
  | .star => some "*"
  | .starStar => some "**"
  | .equals => some "="
  | .parenOpen => some "("
  | .parenClose => some ")"
  | .arrow => some "->"
  | .fatArrow => some "=>"
  | .bracketOpen => some "["
  | .bracketClose => some "]"
  | .dot => some "."
  | .kwBlock => some "block"
  | .kwLet => some "let"
  | .kwFor => some "for"
  | .kwIn => some "in"
  | .kwStructOf => some "structof"
  | .kwStruct => some "struct"
  | .kwEnumOf => some "enumof"
  | .kwEnum => some "enum"
  | .kwTraitOf => some "traitof"
  | .kwTrait => some "trait"
  | .kwKindOf => some "kindof"
  | .kwKind => some "kind"
  | .kwWhen => some "when"
  | .kwCase => some "case"
  | _ => none

/-- The spelling, empty for a kind that has none of its own. -/
def spelling (k : Kind) : String := k.text?.getD ""

/-- The keywords, in declaration order. -/
def keywords : List Kind :=
  [.kwBlock, .kwLet, .kwFor, .kwIn, .kwStructOf, .kwStruct, .kwEnumOf, .kwEnum,
   .kwTraitOf, .kwTrait, .kwKindOf, .kwKind, .kwWhen, .kwCase]

/-- The keyword that a word spells. -/
def keyword? (word : String) : Option Kind :=
  keywords.find? fun k => k.text? == some word

/-- The kind carries a name or a value. -/
def isLiteral : Kind → Bool
  | .bool | .ident | .integer | .decimal | .string | .char => true
  | _ => false

/-- The kind as it stands in an error message: a quoted spelling, or a word in capitals. -/
def text (k : Kind) : String :=
  match k.text? with
  | some spelling => s!"'{spelling}'"
  | none =>
    match k with
    | .bool => "BOOL"
    | .ident => "IDENT"
    | .integer => "INTEGER"
    | .decimal => "DECIMAL"
    | .string => "STRING"
    | .char => "CHAR"
    | _ => "<EOF>"

/-- The kind as it stands in a listing of tokens. -/
def label : Kind → String
  | .braceOpen => "LBrace"
  | .braceClose => "RBrace"
  | .colon => "Colon"
  | .star => "Star"
  | .starStar => "StarStar"
  | .equals => "Eq"
  | .parenOpen => "LParen"
  | .parenClose => "RParen"
  | .arrow => "Arrow"
  | .fatArrow => "FatArrow"
  | .bracketOpen => "LBracket"
  | .bracketClose => "RBracket"
  | .dot => "Dot"
  | .kwBlock => "KwBlock"
  | .kwLet => "KwLet"
  | .kwFor => "KwFor"
  | .kwIn => "KwIn"
  | .kwStructOf => "KwStructOf"
  | .kwStruct => "KwStruct"
  | .kwEnumOf => "KwEnumOf"
  | .kwEnum => "KwEnum"
  | .kwTraitOf => "KwTraitOf"
  | .kwTrait => "KwTrait"
  | .kwKindOf => "KwKindOf"
  | .kwKind => "KwKind"
  | .kwWhen => "KwWhen"
  | .kwCase => "KwCase"
  | .bool => "Bool"
  | .ident => "Ident"
  | .integer => "Integer"
  | .decimal => "Decimal"
  | .string => "String"
  | .char => "Char"
  | .eof => "Eof"

/-- The kind with a given label. -/
def ofLabel? (label : String) : Option Kind := all.find? fun k => k.label == label

theorem keyword?_spelling {k : Kind} (h : k ∈ keywords) : keyword? k.spelling = some k := by
  revert h
  cases k <;> decide

theorem text?_of_keyword? {word : String} {k : Kind} (h : keyword? word = some k) :
    k.text? = some word := by
  have := List.find?_some h
  simpa using this

/-! ## Brackets -/

/-- How a kind counts when brackets of every shape are counted alike. -/
inductive Bracket
  | opening
  | closing
  | neither
deriving DecidableEq, Repr

/-- Round, square and curly brackets open and close; nothing else does. -/
def bracket : Kind → Bracket
  | .parenOpen | .bracketOpen | .braceOpen => .opening
  | .parenClose | .bracketClose | .braceClose => .closing
  | _ => .neither

end Kind

end TermLang
