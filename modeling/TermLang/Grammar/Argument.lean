import TermLang.Grammar.Parse
import TermLang.Term.Basic

/-!
# Annotations, parameters, fields and arguments

The parts of terms are read by parsers that are given the parser of terms, so that each can be
stated by itself. An identifier in front of an argument may begin a named one; that is settled by
the token after it, or by trying to read an annotation and an equals sign.
-/

namespace TermLang

/-- What the top level of a term leaves to the rule around it. Terms inside brackets are read
without restrictions. -/
structure Restrictions where
  /-- A closing `= value` is not part of the term. -/
  noAssign : Bool
  /-- A closing `{ … }` is not part of the term. -/
  noNamed : Bool
  /-- A list with a result is a function type even before `=>`. -/
  preferFunType : Bool
deriving DecidableEq, Repr

namespace Restrictions

/-- A term as it stands by itself. -/
def free : Restrictions := ⟨false, false, false⟩

/-- A term before an equals sign of the rule around it. -/
def beforeAssign : Restrictions := ⟨true, false, false⟩

/-- A term before the body of a loop. -/
def beforeBody : Restrictions := ⟨false, true, false⟩

/-- A term before the arrow of a branch. -/
def beforeArrow : Restrictions := ⟨false, false, true⟩

end Restrictions

/-- A parser of terms under restrictions. -/
abbrev TermParser : Type := Restrictions → Parse Term

namespace Grammar

open Parse

/-- The kinds that can begin a term. -/
def termStart : List Kind :=
  [.kwBlock, .bracketOpen, .kwLet, .kwFor, .kwStructOf, .kwStruct, .kwEnumOf, .kwEnum,
   .kwTraitOf, .kwTrait, .parenOpen, .kwKindOf, .kwKind, .kwCase, .star, .starStar,
   .bool, .ident, .integer, .decimal, .string, .char]

/-- The kind can begin a term. -/
def startsTerm (k : Kind) : Bool := termStart.contains k

/-- The kind is that of an identifier. -/
def isIdent (k : Kind) : Bool := k = .ident

/-! ## Lists of terms and parameters -/

/-- Terms up to a closing kind. -/
def termsUntil (term : TermParser) (close : Kind) (rule : Rule) : Parse (List Term) :=
  itemsUntil close startsTerm rule (close :: termStart) (term .free)

/-- `{ … }` -/
def blocked (term : TermParser) (rule : Rule) : Parse (List Term) := do
  let _ ← expect .braceOpen rule
  termsUntil term .braceClose .blocked

/-- `: type`, `: *type` or `: **type` -/
def anno (term : TermParser) (r : Restrictions) : Parse Anno := do
  let _ ← expect .colon .anno
  let sort : Option Spread ←
    match ← kind with
    | .star => bump; pure (some .tuple)
    | .starStar => bump; pure (some .dict)
    | _ => pure none
  return .mk sort (← term r)

/-- An annotation if a colon follows. -/
def anno? (term : TermParser) (r : Restrictions) : Parse (Option Anno) := do
  if ← at? .colon then return some (← anno term r) else return none

/-- An identifier, annotated or not. -/
def param (term : TermParser) : Parse Param := do
  let name ← expectIdent .param
  return .mk name (← anno? term .free)

/-- Parameters up to a closing kind. -/
def paramsUntil (term : TermParser) (close : Kind) (rule : Rule) : Parse (List Param) :=
  itemsUntil close isIdent rule [.ident, close] (param term)

/-! ## Fields and arguments -/

/-- An identifier for itself. -/
def shorthand : Parse Field := return .shorthand (← expectIdent .kwArg)

/-- An identifier, an equals sign and a value. -/
def given (term : TermParser) : Parse Field := do
  let name ← expectIdent .kwArg
  let _ ← expect .equals .kwArg
  return .given name none (← term .free)

/-- An annotated identifier and the equals sign after it. -/
def annotatedName (term : TermParser) : Parse (String × Anno) := do
  let name ← expectIdent .kwArg
  let type ← anno term .beforeAssign
  let _ ← expect .equals .kwArg
  return (name, type)

/-- An annotated identifier, an equals sign and a value; or nothing, if no equals sign follows the
annotation. -/
def annotatedField? (term : TermParser) : Parse (Option Field) := do
  match ← speculate (annotatedName term) with
  | some (name, type) => return some (.given name (some type) (← term .free))
  | none => return none

/-- A field of a declaration or of a named application. -/
def field (term : TermParser) : Parse Field := do
  match ← nthKind 1 with
  | .equals => given term
  | .colon =>
    match ← annotatedField? term with
    | some f => return f
    | none => shorthand
  | _ => shorthand

/-- Fields up to a closing kind. -/
def fieldsUntil (term : TermParser) (close : Kind) (rule : Rule) : Parse (List Field) :=
  itemsUntil close isIdent rule [.ident, close] (field term)

/-- An argument that is a term. -/
def positional (term : TermParser) : Parse Arg := return .positional (← term .free)

/-- An argument: named if it begins with an identifier before an equals sign, or before an
annotation and an equals sign; else a term. -/
def arg (term : TermParser) : Parse Arg := do
  if ← at? .ident then
    match ← nthKind 1 with
    | .equals => return .named (← given term)
    | .colon =>
      match ← annotatedField? term with
      | some f => return .named f
      | none => positional term
    | _ => positional term
  else positional term

/-- Arguments up to a closing kind. -/
def argsUntil (term : TermParser) (close : Kind) (rule : Rule) : Parse (List Arg) :=
  itemsUntil close startsTerm rule (close :: termStart) (arg term)

end Grammar

end TermLang
