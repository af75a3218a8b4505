import TermLang.Decimal.Style
import TermLang.Token.Basic

/-!
# The spelling of literals

Every literal has one spelling that the lexer reads back: integers in base ten, decimals with all
their digits and a point, a string with a backslash before each quote, a character with its escape.
-/

namespace TermLang

/-- An integer in base ten. -/
def spellInt (n : Int) : List Char :=
  (if n < 0 then ['-'] else []) ++ Text.decimalDigits n.natAbs

/-- The text of a string between its quotes: only quotes are escaped. -/
def spellStringBody (cs : List Char) : List Char :=
  cs.flatMap fun c => if c = '"' then ['\\', '"'] else [c]

/-- The text of a character between its quotes. -/
def spellCharBody (c : Char) : List Char :=
  if c = '\n' then ['\\', 'n']
  else if c = '\t' then ['\\', 't']
  else if c = '\r' then ['\\', 'r']
  else if c = '\x00' then ['\\', '0']
  else if c = '\\' then ['\\', '\\']
  else if c = '\'' then ['\\', '\'']
  else [c]

/-- The word of a literal. -/
def Literal.word : Literal → Word
  | .int n => ⟨.integer, String.ofList (spellInt n.toInt), some (.int n)⟩
  | .decimal x => ⟨.decimal, x.write .source, some (.decimal x)⟩
  | .bool b => ⟨.bool, if b then "true" else "false", some (.bool b)⟩
  | .char c => ⟨.char, String.ofList ('\'' :: spellCharBody c ++ ['\'']), some (.char c)⟩
  | .string s =>
    ⟨.string, String.ofList ('"' :: spellStringBody s.toList ++ ['"']), some (.string s)⟩

@[simp] theorem Literal.literal_word (l : Literal) : l.word.literal = some l := by
  cases l <;> rfl

end TermLang
