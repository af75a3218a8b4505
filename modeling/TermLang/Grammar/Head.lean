import TermLang.Grammar.Chain
import TermLang.Grammar.Declaration

/-!
# Heads and whole terms

The kind of its first token tells what a head is, except for a round bracket: there the token after
the matching bracket decides between a function and a function type, and after a result the token
that follows the result. A result is read only once; then the list before it is read, and the
cursor moves on to where the result ended.
-/

namespace TermLang.Grammar

open Parse

/-- A literal or an identifier. A literal token must carry a value of its own kind. -/
def literal : Parse Term := do
  match ← current with
  | some t =>
    match t.kind, t.literal with
    | .ident, _ => bump; return .ident t.lexeme
    | .bool, some (.bool b) => bump; return .literal (.bool b)
    | .integer, some (.int n) => bump; return .literal (.int n)
    | .decimal, some (.decimal x) => bump; return .literal (.decimal x)
    | .string, some (.string s) => bump; return .literal (.string s)
    | .char, some (.char c) => bump; return .literal (.char c)
    | _, _ => reject .term termStart
  | none => reject .term termStart

/-- `*operand` or `**operand`, from its mark on. -/
def spread (term : TermParser) (r : Restrictions) (sort : Spread) : Parse Term := do
  bump
  return .spread sort (← term r)

/-- `[ … ] => body` -/
def generic (term : TermParser) (r : Restrictions) : Parse Term := do
  let _ ← expect .bracketOpen .generic
  let params ← paramsUntil term .bracketClose .generic
  return .generic params (← body term r)

/-- `( … )` as the parameter types of a function type. -/
def typeList (term : TermParser) : Parse (List Term) := do
  let _ ← expect .parenOpen .funOf
  termsUntil term .parenClose .funOf

/-- `( … ) => body`, from its bracket on. -/
def plainFunction (term : TermParser) (r : Restrictions) : Parse Term := do
  bump
  let params ← paramsUntil term .parenClose .fun_
  return .function params none (← body term r)

/-- `( … ) -> result`, as a function type or up to the body of a function. The list closes at the
given index. -/
def withResult (term : TermParser) (r : Restrictions) (close : Nat) : Parse Term := do
  let start ← cursor
  seek (close + 2)
  let result ← term r
  let afterResult ← cursor
  let isFunction := !r.preferFunType && (← kind) == .fatArrow
  note (.listRead close isFunction)
  restore start
  if isFunction then
    bump
    let params ← paramsUntil term .parenClose .fun_
    let _ ← expect .arrow .fun_
    restore afterResult
    return .function params (some result) (← body term r)
  else
    let params ← typeList term
    let _ ← expect .arrow .funOf
    restore afterResult
    return .funType params result

/-- A function or a function type. -/
def function (term : TermParser) (r : Restrictions) : Parse Term := do
  match ← matchingClose? with
  | none =>
    let _ ← typeList term
    reject .funOf [.arrow]
  | some close =>
    match ← kindAt (close + 1) with
    | .fatArrow => plainFunction term r
    | .arrow => withResult term r close
    | _ =>
      let _ ← typeList term
      reject .funOf [.arrow, .fatArrow]

/-- The head of a term. -/
def head (term : TermParser) (r : Restrictions) : Parse Term := do
  match ← kind with
  | .kwBlock => bump; return .block (← blocked term .block)
  | .bracketOpen => generic term r
  | .kwLet => return .binding (← binding term r)
  | .kwFor => loop term
  | .kwStructOf => signature term .struct
  | .kwEnumOf => signature term .enum
  | .kwTraitOf => signature term .trait
  | .kwKindOf => signature term .kind
  | .kwStruct => record term .struct
  | .kwEnum => record term .enum
  | .kwKind => record term .kind
  | .kwTrait => trait term
  | .parenOpen => function term r
  | .kwCase => caseOf term
  | .star => spread term r .tuple
  | .starStar => spread term r .dict
  | .bool | .ident | .integer | .decimal | .string | .char => literal
  | _ => reject .term termStart

/-- A term whose parts are read by a given parser: a head and its chain, one level deep. -/
def termOf (term : TermParser) (r : Restrictions) : Parse Term := do
  descend
  let first ← head term r
  let whole ← chain term r first
  ascend
  return whole

/-- A term with at most so many terms open inside one another. -/
def termWithin : Nat → TermParser
  | 0 => fun _ => called (reject .term termStart)
  | levels + 1 => fun r => called (termOf (termWithin levels) r)

/-- A term. A term inside another begins at a later token, so no more terms are ever open than
there are tokens left. -/
def term (r : Restrictions) : Parse Term := fun s c => termWithin (s.remaining c.pos) r s c

end TermLang.Grammar
