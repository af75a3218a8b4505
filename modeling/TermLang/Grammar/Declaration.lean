import TermLang.Grammar.Argument

/-!
# Forms led by a keyword

Bindings, loops, the declarations of structures, enumerations, traits and kinds, and case
distinctions. A loop head and a guard are read without restrictions first; when what follows does
not fit, the head gives its closing named application back as the body, or is read again.
-/

namespace TermLang.Grammar

open Parse

/-- `=> { … }` or `=> term` -/
def body (term : TermParser) (r : Restrictions) : Parse Body := do
  let _ ← expect .fatArrow .fatArrow
  if ← at? .braceOpen then return .block (← blocked term .fatArrow)
  else return .single (← term r)

/-- `let name`, or `let name = value` with the name annotated or not. -/
def binding (term : TermParser) (r : Restrictions) : Parse Binding := do
  let _ ← expect .kwLet .letRule
  let name ← expectIdent .letRule
  let next ← kind
  if next = .colon ∨ next = .equals then
    let type ← anno? term .beforeAssign
    let _ ← expect .equals .letRule
    return .init name type (← term r)
  else return .bare name

/-! ## Loops -/

/-- The term between `for` or `in` and the body of the loop.

The term may have taken the body as a closing named application. If no curly bracket is left, that
application is given back: the cursor moves to its bracket and its target is the head. Any other
term is read again, without a closing named application. -/
def loopHead (term : TermParser) : Parse Term := do
  let start ← cursor
  let head ← term .free
  if ← at? .braceOpen then return head
  else
    match head, ← openingBefore? with
    | .applyNamed target _, some opening => do
      note (.bodyReclaimed opening)
      seek opening
      return target
    | _, _ => do
      restore start
      term .beforeBody

/-- `for name in source { … }`, `for { … }` or `for condition { … }` -/
def loop (term : TermParser) : Parse Term := do
  let _ ← expect .kwFor .forRule
  if (← at? .ident) && (← nthKind 1) == .kwIn then
    let name ← expectIdent .forRule
    bump
    let source ← loopHead term
    return .forEach name source (← blocked term .forRule)
  else if ← at? .braceOpen then
    return .forever (← blocked term .forRule)
  else
    let condition ← loopHead term
    return .forWhile condition (← blocked term .forRule)

/-! ## Declarations -/

/-- The name of a declaration, if it has one, and the curly bracket after it. -/
def declName (rule : Rule) : Parse (Option String) := do
  match ← current with
  | some t =>
    if t.kind = .ident then
      bump
      if ← skip .braceOpen then return some t.lexeme else reject rule [.braceOpen]
    else if ← skip .braceOpen then return none
    else reject rule [.ident, .braceOpen]
  | none => reject rule [.ident, .braceOpen]

/-- The rule of a signature. -/
def signatureRule : Signature → Rule
  | .struct => .structOf
  | .enum => .enumOf
  | .trait => .traitOf
  | .kind => .kindOf

/-- A declaration by parameters, from its keyword on. -/
def signature (term : TermParser) (sort : Signature) : Parse Term := do
  bump
  let name ← declName (signatureRule sort)
  return .signature sort name (← paramsUntil term .braceClose (signatureRule sort))

/-- The rule of a record. -/
def recordRule : Record → Rule
  | .struct => .struct
  | .enum => .enum
  | .kind => .kind

/-- A declaration by fields, from its keyword on. -/
def record (term : TermParser) (sort : Record) : Parse Term := do
  bump
  let name ← declName (recordRule sort)
  return .record sort name (← fieldsUntil term .braceClose (recordRule sort))

/-- A binding of a trait, which nests one level deep. -/
def traitBinding (term : TermParser) : Parse Binding := do
  descend
  let b ← binding term .free
  ascend
  return b

/-- `trait name { … }` -/
def trait (term : TermParser) : Parse Term := do
  let _ ← expect .kwTrait .trait
  let name ← declName .trait
  let bindings ← itemsUntil .braceClose (· = .kwLet) .trait [.kwLet, .braceClose]
    (traitBinding term)
  return .trait name bindings

/-! ## Case distinctions -/

/-- `when guard => body`.

A guard such as `(a) -> b => c` reads as a function first and leaves no arrow for the branch; then
it is read again with `(a) -> b` as a function type. -/
def branch (term : TermParser) : Parse Branch := do
  let _ ← expect .kwWhen .whenRule
  let start ← cursor
  let first ← term .free
  let guard ←
    if ← at? .fatArrow then pure first
    else do
      note (.guardReread (← cursor).pos)
      restore start
      term .beforeArrow
  return .mk guard (← body term .free)

/-- `case { … }` -/
def caseOf (term : TermParser) : Parse Term := do
  let _ ← expect .kwCase .caseRule
  let _ ← expect .braceOpen .caseRule
  return .cases (← itemsUntil .braceClose (· = .kwWhen) .caseRule [.kwWhen, .braceClose]
    (branch term))

end TermLang.Grammar
