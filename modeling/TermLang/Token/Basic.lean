import TermLang.Decimal.Double
import TermLang.Source.Position
import TermLang.Token.Kind

/-!
# Tokens

A word is what a token says: its kind, its exact text and the value it carries, if any. A token is
a word with the place where it stands.
-/

namespace TermLang

/-- The value of a literal. -/
inductive Literal
  | int (value : Int64)
  | decimal (value : Double)
  | bool (value : Bool)
  | char (value : Char)
  | string (value : String)
deriving DecidableEq, Repr

/-- The content of a token, without its place. -/
structure Word where
  kind : Kind
  lexeme : String
  literal : Option Literal
deriving DecidableEq, Repr, Inhabited

namespace Word

/-- A punctuation mark, a keyword or the end of the input, in its own spelling. -/
def ofKind (k : Kind) : Word := ⟨k, k.spelling, none⟩

/-- An identifier. -/
def ident (name : String) : Word := ⟨.ident, name, none⟩

@[simp] theorem kind_ofKind (k : Kind) : (ofKind k).kind = k := rfl

@[simp] theorem kind_ident (name : String) : (ident name).kind = .ident := rfl

end Word

/-- A word and the span of text it was read from. -/
structure Token extends Word where
  span : Span
deriving DecidableEq, Repr, Inhabited

namespace Token

/-- The end of the input. -/
def eof (p : Position) : Token := ⟨⟨.eof, "", none⟩, ⟨p, p⟩⟩

/-- A word that stands in no text. -/
def ofWord (w : Word) : Token := ⟨w, .nowhere⟩

@[simp] theorem kind_eof (p : Position) : (eof p).kind = .eof := rfl

end Token

end TermLang
