import TermLang.Grammar.Head

/-!
# Programs

A program is read term by term up to the end of the input, which must be there.
-/

namespace TermLang

namespace Grammar

open Parse

/-- At most `bound` terms, up to the end of the input. -/
def topTermsWithin : Nat → Parse (List Term)
  | 0 => return []
  | bound + 1 => do
    if ← atEnd then return []
    else
      let first ← term .free
      let others ← topTermsWithin bound
      return first :: others

/-- The terms of a program and the end of the input. -/
def program : Parse Program := do
  let terms ← topTermsWithin (← remaining)
  let _ ← expect .eof .program
  return ⟨terms⟩

/-- One term and the end of the input. -/
def onlyTerm : Parse Term := do
  let t ← term .free
  let _ ← expect .eof .program
  return t

end Grammar

/-- The nesting levels that are allowed where nothing else is set. -/
def defaultMaxDepth : Nat := 256

/-- Reads tokens with a parser, from the first token on. -/
def Parse.run {α : Type} (p : Parse α) (tokens : List Token) (maxDepth : Nat) : Reply α :=
  p ⟨tokens.toArray, maxDepth⟩ .start

/-- The program that tokens make up. -/
def parseProgram (tokens : List Token) (maxDepth : Nat) : Except SyntaxError Program :=
  (Grammar.program.run tokens maxDepth).result

/-- The single term that tokens make up. -/
def parseTerm (tokens : List Token) : Except SyntaxError Term :=
  (Grammar.onlyTerm.run tokens defaultMaxDepth).result

end TermLang
