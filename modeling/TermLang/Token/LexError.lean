import TermLang.Source.Position
import TermLang.Text.Quoted

/-!
# Lexical errors

A lexical error names what is wrong, the place where the offending text begins and that text.
-/

namespace TermLang

/-- What stops the reading of a token. -/
inductive LexFault
  /-- A character that begins no token. -/
  | unexpectedChar
  | unterminatedString
  | unterminatedChar
  | emptyChar
  | unterminatedComment
  /-- A base prefix without a digit of that base after it. -/
  | missingDigits (base : Nat)
  /-- An integer outside the signed 64-bit range. -/
  | integerOutOfRange
  /-- A decimal too large for a finite double. -/
  | decimalOutOfRange
deriving DecidableEq, Repr

/-- The fault in words. -/
def LexFault.text : LexFault → String
  | .unexpectedChar => "unexpected character"
  | .unterminatedString => "unterminated string literal"
  | .unterminatedChar => "unterminated character literal"
  | .emptyChar => "empty character literal"
  | .unterminatedComment => "unterminated block comment"
  | .missingDigits base => s!"expected base-{base} digits after prefix"
  | .integerOutOfRange => "integer literal out of range"
  | .decimalOutOfRange => "decimal literal out of range"

/-- A fault, where the offending text begins, and that text. -/
structure LexError where
  fault : LexFault
  position : Position
  found : String
deriving DecidableEq, Repr

namespace LexError

/-- The fault and the quoted text. -/
def description (e : LexError) : String :=
  s!"{e.fault.text}, found {Text.quoteString e.found}"

/-- The description with its place in front. -/
def message (e : LexError) : String := s!"{e.position.text}: {e.description}"

end LexError

end TermLang
