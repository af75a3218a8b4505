import TermLang.Text.Hidden
import TermLang.Text.Extender

/-!
# Quoted texts

A quoted text stands between two equal quotes. Backslash, tab, line feed, carriage return and the
null character have two-character escapes; a character that joins the one before it, or shows no
glyph, is written by its code point in hexadecimal; every other character is written as itself.
Which quotes are escaped depends on where the text is quoted.
-/

namespace TermLang.Text

/-- The quotes that get a backslash. -/
structure Quoting where
  single : Bool
  double : Bool
deriving DecidableEq, Repr

/-- Between double quotes only the double quote is escaped. -/
def Quoting.inString : Quoting := ⟨false, true⟩

/-- Between single quotes only the single quote is escaped. -/
def Quoting.inChar : Quoting := ⟨true, false⟩

/-- Both quotes are escaped wherever they stand. -/
def Quoting.everywhere : Quoting := ⟨true, true⟩

/-- A character by its code point, in lowercase hexadecimal between braces. -/
def codePointEscape (c : Char) : List Char :=
  ['\\', 'u', '\x7b'] ++ Nat.toDigits 16 c.toNat ++ ['\x7d']

/-- A character as it stands in a quoted text. -/
def escapeChar (quoting : Quoting) (c : Char) : List Char :=
  if c = '\x00' then ['\\', '0']
  else if c = '\t' then ['\\', 't']
  else if c = '\n' then ['\\', 'n']
  else if c = '\r' then ['\\', 'r']
  else if c = '\\' then ['\\', '\\']
  else if c = '\'' ∧ quoting.single then ['\\', '\'']
  else if c = '"' ∧ quoting.double then ['\\', '"']
  else if isExtender c || isHidden c then codePointEscape c
  else [c]

/-- A text with every character escaped as needed, without the quotes around it. -/
def escape (quoting : Quoting) (cs : List Char) : List Char :=
  cs.flatMap (escapeChar quoting)

/-- A text between double quotes. -/
def quoteString (s : String) : String :=
  String.ofList ('"' :: escape .inString s.toList ++ ['"'])

/-- A character between single quotes. -/
def quoteChar (c : Char) : String :=
  String.ofList ('\'' :: escapeChar .inChar c ++ ['\''])

/-! ## Small laws -/

@[simp] theorem escape_nil (q : Quoting) : escape q [] = [] := rfl

@[simp] theorem escape_cons (q : Quoting) (c : Char) (cs : List Char) :
    escape q (c :: cs) = escapeChar q c ++ escape q cs := rfl

theorem escape_append (q : Quoting) (a b : List Char) :
    escape q (a ++ b) = escape q a ++ escape q b := by
  simp [escape]

/-- A letter, digit or mark of ASCII that is no quote and no backslash stands for itself. -/
theorem escapeChar_plain {q : Quoting} {c : Char} (low : 0x20 ≤ c.toNat) (high : c.toNat < 0x7f)
    (hs : c ≠ '\'') (hd : c ≠ '"') (hb : c ≠ '\\') : escapeChar q c = [c] := by
  have h0 : c ≠ '\x00' := by rintro rfl; simp at low
  have ht : c ≠ '\t' := by rintro rfl; simp at low
  have hn : c ≠ '\n' := by rintro rfl; simp at low
  have hr : c ≠ '\r' := by rintro rfl; simp at low
  simp [escapeChar, h0, ht, hn, hr, hs, hd, hb, isHidden_eq_false_of_ascii low high,
    isExtender_eq_false_of_ascii high]

theorem escapeChar_ne_nil (q : Quoting) (c : Char) : escapeChar q c ≠ [] := by
  unfold escapeChar codePointEscape
  split <;> try simp
  repeat (split <;> try simp)

end TermLang.Text
