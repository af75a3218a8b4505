import TermLang.Grammar.Argument

/-!
# Chains

Selections, applications and an assignment are folded onto a head from left to right, until the
next token begins none of them. Each link puts the term one level deeper, so the levels of the
links stay open until the chain ends.
-/

namespace TermLang.Grammar

open Parse

/-- The kind begins a link that the restrictions leave to the term. -/
def continuesChain (r : Restrictions) : Kind → Bool
  | .dot | .bracketOpen | .parenOpen => true
  | .braceOpen => !r.noNamed
  | .equals => !r.noAssign
  | _ => false

/-- `{ … }` after a term. -/
def namedApplier (term : TermParser) : Parse (List Field) := do
  let _ ← expect .braceOpen .namedApplier
  fieldsUntil term .braceClose .namedApplier

/-- One link folded onto a target, or nothing if a curly bracket turns out to begin no named
application. -/
def link (term : TermParser) (r : Restrictions) (target : Term) : Parse (Option Term) := do
  match ← kind with
  | .dot =>
    bump
    return some (.select target (← expectIdent .selector))
  | .bracketOpen =>
    bump
    return some (.apply .implicit target (← argsUntil term .bracketClose .implicitApplier))
  | .parenOpen =>
    bump
    return some (.apply .positional target (← argsUntil term .parenClose .positionalApplier))
  | .braceOpen =>
    match ← speculate (namedApplier term) with
    | some fields => return some (.applyNamed target fields)
    | none =>
      note (.braceLeft (← cursor).pos)
      return none
  | .equals =>
    bump
    return some (.assign target (← term r))
  | _ => return none

/-- At most `bound` links folded onto a head. -/
def chainWithin (term : TermParser) (r : Restrictions) : Nat → Term → Parse Term
  | 0, head => return head
  | bound + 1, head => do
    if continuesChain r (← kind) then
      descend
      match ← link term r head with
      | some longer =>
        let whole ← chainWithin term r bound longer
        ascend
        return whole
      | none =>
        ascend
        return head
    else return head

/-- The links that follow a head. Every link moves the cursor forward, so there are no more of them
than tokens. -/
def chain (term : TermParser) (r : Restrictions) (head : Term) : Parse Term := do
  chainWithin term r (← remaining) head

end TermLang.Grammar
