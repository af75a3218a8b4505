import TermLang.Decimal.Rounding
import TermLang.Dump.JsonGrammar

/-!
# Reading JSON text

A reader answers the value at the front of a text and the text after it, however many values are
open inside one another. Blanks may stand around every value and mark. A number is an integer if it
has neither fraction nor exponent; the one exception is `-0`, a decimal, since no integer has its
sign. These are readers of the library's own; one from elsewhere is a parameter (`DumpReader`).
-/

namespace TermLang.Json

/-- A reader of values of a type at the front of a text. -/
abbrev Reader (α : Type) : Type := List Char → Option (α × List Char)

/-- The text after the blanks at its front. -/
def dropBlanks (cs : List Char) : List Char := cs.dropWhile isBlank

/-! ## Strings -/

/-- The number of four hexadecimal digits. -/
def readHex : Reader Nat
  | a :: b :: c :: d :: rest =>
    if [a, b, c, d].all (Text.isDigitOf 16) then some (Text.ofDigits 16 [a, b, c, d], rest)
    else none
  | _ => none

/-- The character of one code unit, or of a high one and the low one escaped after it. -/
def readCodePoint : Reader Char := fun cs => do
  let (unit, rest) ← readHex cs
  if 0xd800 ≤ unit ∧ unit < 0xdc00 then
    match rest with
    | '\\' :: 'u' :: rest =>
      let (low, rest) ← readHex rest
      if 0xdc00 ≤ low ∧ low < 0xe000 then
        return (Char.ofNat (0x10000 + (unit - 0xd800) * 0x400 + (low - 0xdc00)), rest)
      else none
    | _ => none
  else if 0xdc00 ≤ unit ∧ unit < 0xe000 then none
  else return (Char.ofNat unit, rest)

/-- The character of an escape, after its backslash. -/
def readEscape : Reader Char
  | '"' :: rest => some ('"', rest)
  | '\\' :: rest => some ('\\', rest)
  | '/' :: rest => some ('/', rest)
  | 'b' :: rest => some ('\x08', rest)
  | 'f' :: rest => some ('\x0c', rest)
  | 'n' :: rest => some ('\n', rest)
  | 'r' :: rest => some ('\r', rest)
  | 't' :: rest => some ('\t', rest)
  | 'u' :: rest => readCodePoint rest
  | _ => none

/-- At most so many characters of a string, after its opening quote. -/
def readCharsWithin : Nat → Reader (List Char)
  | 0, _ => none
  | _ + 1, [] => none
  | bound + 1, c :: cs =>
    if c = '"' then some ([], cs)
    else if c = '\\' then do
      let (d, rest) ← readEscape cs
      let (ds, rest) ← readCharsWithin bound rest
      return (d :: ds, rest)
    else if c.toNat < 0x20 then none
    else do
      let (ds, rest) ← readCharsWithin bound cs
      return (c :: ds, rest)

/-- A string after its opening quote. -/
def readString : Reader String := fun cs => do
  let (chars, rest) ← readCharsWithin (cs.length + 1) cs
  return (String.ofList chars, rest)

/-! ## Numbers -/

/-- Digits, at least one of them. -/
def readDigits : Reader (List Char) := fun cs =>
  let digits := cs.takeWhile Char.isDigit
  if digits.isEmpty then none else some (digits, cs.dropWhile Char.isDigit)

/-- A point and digits, or nothing. -/
def readFraction : Reader (Option (List Char))
  | '.' :: cs => do
    let (digits, rest) ← readDigits cs
    return (some digits, rest)
  | cs => some (none, cs)

/-- An exponent and its digits, or nothing. -/
def readExponent : Reader (Option Int) := fun cs =>
  match cs with
  | c :: cs =>
    if c = 'e' ∨ c = 'E' then
      let (negative, cs) :=
        match cs with
        | '-' :: cs => (true, cs)
        | '+' :: cs => (false, cs)
        | _ => (false, cs)
      (readDigits cs).map fun (digits, rest) =>
        let n : Int := Text.ofDigits 10 digits
        (some (if negative then -n else n), rest)
    else some (none, c :: cs)
  | [] => some (none, [])

/-- A number after its sign. -/
def readMagnitude (negative : Bool) : Reader Json := fun cs => do
  let (whole, rest) ← readDigits cs
  if whole.head? = some '0' ∧ 1 < whole.length then none
  let (fraction, rest) ← readFraction rest
  let (exponent, rest) ← readExponent rest
  let n := Text.ofDigits 10 whole
  if fraction = none ∧ exponent = none ∧ ¬ (negative ∧ n = 0) then
    return (.int (if negative then -n else n), rest)
  else
    let places := fraction.getD []
    let x ← Double.ofScientific? negative (Text.ofDigits 10 (whole ++ places))
      (exponent.getD 0 - places.length)
    return (.decimal x, rest)

/-- A number. -/
def readNumber : Reader Json
  | '-' :: cs => readMagnitude true cs
  | cs => readMagnitude false cs

/-! ## Values -/

/-- Items and their closing bracket, with at most so many items. -/
def readItemsWithin (value : Reader Json) : Nat → Reader (List Json)
  | 0, _ => none
  | bound + 1, cs => do
    let (item, rest) ← value cs
    match dropBlanks rest with
    | ',' :: rest =>
      let (items, rest) ← readItemsWithin value bound rest
      return (item :: items, rest)
    | ']' :: rest => return ([item], rest)
    | _ => none

/-- A name, a colon and a value. -/
def readEntry (value : Reader Json) : Reader (String × Json) := fun cs => do
  match dropBlanks cs with
  | '"' :: cs =>
    let (name, rest) ← readString cs
    match dropBlanks rest with
    | ':' :: rest =>
      let (item, rest) ← value rest
      return ((name, item), rest)
    | _ => none
  | _ => none

/-- Entries and their closing bracket, with at most so many entries. -/
def readEntriesWithin (value : Reader Json) : Nat → Reader (List (String × Json))
  | 0, _ => none
  | bound + 1, cs => do
    let (entry, rest) ← readEntry value cs
    match dropBlanks rest with
    | ',' :: rest =>
      let (entries, rest) ← readEntriesWithin value bound rest
      return (entry :: entries, rest)
    | '\x7d' :: rest => return ([entry], rest)
    | _ => none

/-- A value whose parts are read by a given reader. -/
def readValue (value : Reader Json) : Reader Json := fun cs =>
  match dropBlanks cs with
  | 'n' :: 'u' :: 'l' :: 'l' :: rest => some (.null, rest)
  | 't' :: 'r' :: 'u' :: 'e' :: rest => some (.bool true, rest)
  | 'f' :: 'a' :: 'l' :: 's' :: 'e' :: rest => some (.bool false, rest)
  | '"' :: rest => (readString rest).map fun (s, rest) => (.string s, rest)
  | '[' :: rest =>
    match dropBlanks rest with
    | ']' :: rest => some (.array [], rest)
    | rest => (readItemsWithin value rest.length rest).map fun (js, rest) => (.array js, rest)
  | '\x7b' :: rest =>
    match dropBlanks rest with
    | '\x7d' :: rest => some (.object [], rest)
    | rest => (readEntriesWithin value rest.length rest).map fun (es, rest) => (.object es, rest)
  | rest => readNumber rest

/-- A value with at most so many values open inside one another. -/
def readWithin : Nat → Reader Json
  | 0 => fun _ => none
  | levels + 1 => readValue (readWithin levels)

/-- The value that a whole text is, blanks around it apart. -/
def read? (text : String) : Option Json := do
  let cs := text.toList
  let (j, rest) ← readWithin (cs.length + 1) cs
  if (dropBlanks rest).isEmpty then return j else none

end TermLang.Json
