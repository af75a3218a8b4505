import TermLang.Dump.Json

/-!
# The grammar of JSON text

A text denotes a value if it spells the value, with any blanks between its parts and with any escapes
in its strings. Each relation here holds between a text, what stands at its front and the rest behind it.
A number is spelled as the writers spell it: an integer has no other spelling, and of a decimal nothing
more is asked than that it is read back from what is written.
-/

namespace TermLang.Json

/-! ## Blanks -/

/-- A blank between values and marks. -/
def isBlank (c : Char) : Bool := c = ' ' || c = '\n' || c = '\r' || c = '\t'

/-- The text is all blanks. -/
def Blank (bs : List Char) : Prop := ∀ c ∈ bs, isBlank c = true

/-! ## Strings -/

/-- The characters that are escaped by name, behind their names. -/
def escapes : List (Char × Char) :=
  [('"', '"'), ('\\', '\\'), ('/', '/'), ('b', '\x08'), ('f', '\x0c'), ('n', '\n'), ('r', '\r'),
    ('t', '\t')]

/-- Four hexadecimal digits of a number. -/
def IsHex (digits : List Char) (n : Nat) : Prop :=
  digits.length = 4 ∧ digits.all (Text.isDigitOf 16) = true ∧ Text.ofDigits 16 digits = n

/-- A text is a character of a string: as it is, by name, by its code unit or by its two. -/
inductive SpellsChar : List Char → Char → Prop
  | plain {c : Char} (hquote : c ≠ '"') (hbackslash : c ≠ '\\') (hcontrol : ¬ c.toNat < 0x20) :
    SpellsChar [c] c
  | named {name c : Char} (h : (name, c) ∈ escapes) : SpellsChar ['\\', name] c
  | unit {digits : List Char} {c : Char} (h : IsHex digits c.toNat) :
    SpellsChar ('\\' :: 'u' :: digits) c
  | pair {high low : List Char} {m n : Nat} {c : Char} (hhigh : IsHex high (0xd800 + m))
    (hlow : IsHex low (0xdc00 + n)) (hm : m < 0x400) (hn : n < 0x400)
    (hc : c.toNat = 0x10000 + m * 0x400 + n) :
    SpellsChar ('\\' :: 'u' :: (high ++ '\\' :: 'u' :: low)) c

/-- Characters of a string stand at the front of the text, a closing quote behind them. -/
inductive SpellsChars : List Char → List Char → List Char → Prop
  | close (rest : List Char) : SpellsChars ('"' :: rest) [] rest
  | cons {cs text rest : List Char} {c : Char} {chars : List Char} (hc : SpellsChar cs c)
    (hchars : SpellsChars text chars rest) : SpellsChars (cs ++ text) (c :: chars) rest

/-! ## Values -/

mutual

/-- A value stands at the front of the text. -/
inductive Spells : List Char → Json → List Char → Prop
  | null (rest : List Char) : Spells ("null".toList ++ rest) .null rest
  | bool (b : Bool) (rest : List Char) : Spells (putBool b rest) (.bool b) rest
  | int (n : Int) (rest : List Char) : Spells (putInt n rest) (.int n) rest
  | decimal (x : Double) (rest : List Char) :
    Spells ((x.write .json).toList ++ rest) (.decimal x) rest
  | string {text rest : List Char} {s : String} (hs : SpellsChars text s.toList rest) :
    Spells ('"' :: text) (.string s) rest
  | emptyArray {bs : List Char} (hbs : Blank bs) (rest : List Char) :
    Spells ('[' :: (bs ++ ']' :: rest)) (.array []) rest
  | array {text rest : List Char} {items : List Json} (hitems : SpellsItems text items rest) :
    Spells ('[' :: text) (.array items) rest
  | emptyObject {bs : List Char} (hbs : Blank bs) (rest : List Char) :
    Spells ('\x7b' :: (bs ++ '\x7d' :: rest)) (.object []) rest
  | object {text rest : List Char} {entries : List (String × Json)}
    (hentries : SpellsEntries text entries rest) : Spells ('\x7b' :: text) (.object entries) rest

/-- A value stands at the front of the text, with blanks around it. -/
inductive SpellsPadded : List Char → Json → List Char → Prop
  | mk {before text after rest : List Char} {j : Json} (hbefore : Blank before)
    (hj : Spells text j (after ++ rest)) (hafter : Blank after) :
    SpellsPadded (before ++ text) j rest

/-- Items stand at the front of the text, commas between them and a closing bracket behind. -/
inductive SpellsItems : List Char → List Json → List Char → Prop
  | last {text rest : List Char} {j : Json} (hj : SpellsPadded text j (']' :: rest)) :
    SpellsItems text [j] rest
  | cons {text mid rest : List Char} {j : Json} {items : List Json}
    (hj : SpellsPadded text j (',' :: mid)) (hitems : SpellsItems mid items rest) :
    SpellsItems text (j :: items) rest

/-- A name, a colon and a value stand at the front of the text. -/
inductive SpellsEntry : List Char → String × Json → List Char → Prop
  | mk {before chars after text rest : List Char} {name : String} {j : Json}
    (hbefore : Blank before) (hname : SpellsChars chars name.toList (after ++ ':' :: text))
    (hafter : Blank after) (hj : SpellsPadded text j rest) :
    SpellsEntry (before ++ '"' :: chars) (name, j) rest

/-- Entries stand at the front of the text, commas between them and a closing brace behind. -/
inductive SpellsEntries : List Char → List (String × Json) → List Char → Prop
  | last {text rest : List Char} {e : String × Json} (he : SpellsEntry text e ('\x7d' :: rest)) :
    SpellsEntries text [e] rest
  | cons {text mid rest : List Char} {e : String × Json} {entries : List (String × Json)}
    (he : SpellsEntry text e (',' :: mid)) (hentries : SpellsEntries mid entries rest) :
    SpellsEntries text (e :: entries) rest

end

/-- The whole text is a value, blanks around it apart. -/
def Denotes (text : String) (j : Json) : Prop := SpellsPadded text.toList j []

/-! ## Nesting -/

mutual

/-- The most arrays and objects open inside one another. -/
def openings : Json → Nat
  | .array items => 1 + itemsOpenings items
  | .object entries => 1 + entriesOpenings entries
  | _ => 0

/-- The most arrays and objects open inside one another in some items. -/
def itemsOpenings : List Json → Nat
  | [] => 0
  | j :: js => max j.openings (itemsOpenings js)

/-- The most arrays and objects open inside one another in some entries. -/
def entriesOpenings : List (String × Json) → Nat
  | [] => 0
  | (_, j) :: es => max j.openings (entriesOpenings es)

end

end TermLang.Json
