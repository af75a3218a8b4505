import TermLang.Grammar.Rule
import TermLang.Source.Position
import TermLang.Text.Quoted
import TermLang.Token.KindSet

/-!
# Syntax errors

A syntax error tells which rule was being read, the token it met and why it stopped there.
-/

namespace TermLang

/-- Why a rule cannot go on. -/
inductive SyntaxFault
  /-- The token is none of those that the rule accepts. -/
  | unexpected (expected : KindSet)
  /-- One more level would pass the nesting limit. -/
  | tooDeep (limit : Nat)
deriving DecidableEq, Repr

/-- A fault, the rule it arose in and the token at which it did. -/
structure SyntaxError where
  fault : SyntaxFault
  rule : Rule
  position : Position
  found : Kind
  lexeme : String
deriving DecidableEq, Repr

namespace SyntaxError

/-- The kinds that would have been accepted; a nesting limit accepts none. -/
def expected (e : SyntaxError) : KindSet :=
  match e.fault with
  | .unexpected kinds => kinds
  | .tooDeep _ => .empty

/-- The nesting limit was hit. -/
def isTooDeep (e : SyntaxError) : Bool :=
  match e.fault with
  | .unexpected _ => false
  | .tooDeep _ => true

/-- The token met, in words. -/
def foundText (e : SyntaxError) : String :=
  if e.found = .eof then "end of input" else s!"{e.found.text} {Text.quoteString e.lexeme}"

/-- The error without its place. -/
def description (e : SyntaxError) : String :=
  match e.fault with
  | .unexpected kinds => s!"unexpected {e.foundText} in {e.rule.text}, expected {kinds.text}"
  | .tooDeep limit => s!"terms nested deeper than {limit} at {e.foundText}"

/-- The description with its place in front. -/
def message (e : SyntaxError) : String := s!"{e.position.text}: {e.description}"

end SyntaxError

end TermLang
