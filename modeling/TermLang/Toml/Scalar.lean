import TermLang.Decimal.Rounding
import TermLang.Toml.Value

/-!
# Numbers and dates

Every scalar that is not a string is a row of letters, digits and the signs `+ - . : _`. The row is
read as a whole: as a truth value, a date, a time, an integer or a float.
-/

namespace TermLang.Toml

/-- Digits of a base with single underscores between them, without the underscores. -/
def groupedDigits? (base : Nat) : List Char → Option (List Char)
  | [] => none
  | [d] => if Text.isDigitOf base d then some [d] else none
  | d :: '_' :: rest =>
    if Text.isDigitOf base d then (groupedDigits? base rest).map (d :: ·) else none
  | d :: rest =>
    if Text.isDigitOf base d then (groupedDigits? base rest).map (d :: ·) else none

/-- A text without its sign, and whether the sign is a minus. -/
def splitSign : List Char → Bool × List Char
  | '-' :: cs => (true, cs)
  | '+' :: cs => (false, cs)
  | cs => (false, cs)

/-- The digits of a whole part: no zero in front of another digit. -/
def wholeDigits? (cs : List Char) : Option (List Char) := do
  let digits ← groupedDigits? 10 cs
  if digits.head? = some '0' ∧ 1 < digits.length then none else return digits

/-! ## Integers -/

/-- A magnitude with a sign, in the signed 64-bit range. -/
def integerInRange? (negative : Bool) (magnitude : Nat) : Option Value :=
  (Text.int64? (if negative then -magnitude else magnitude)).map fun n => .integer n.toInt

/-- An integer: decimal with a sign or none, or unsigned after a base prefix. -/
def integer? (cs : List Char) : Option Value :=
  let based (base : Nat) (digits : List Char) : Option Value := do
    integerInRange? false (Text.ofDigits base (← groupedDigits? base digits))
  match cs with
  | '0' :: 'x' :: digits => based 16 digits
  | '0' :: 'o' :: digits => based 8 digits
  | '0' :: 'b' :: digits => based 2 digits
  | _ => do
    let (negative, digits) := splitSign cs
    integerInRange? negative (Text.ofDigits 10 (← wholeDigits? digits))

/-! ## Floats -/

/-- An exponent after its letter. -/
def exponent? (cs : List Char) : Option Int := do
  let (negative, digits) := splitSign cs
  let n : Int := Text.ofDigits 10 (← groupedDigits? 10 digits)
  return if negative then -n else n

/-- The letter of an exponent. -/
def isExponentMark (c : Char) : Bool := c = 'e' || c = 'E'

/-- A float: a whole part with a fraction, an exponent or both; or infinity, or no number. A
positive float too large for a double is refused. -/
def float? (cs : List Char) : Option Value := do
  let (negative, cs) := splitSign cs
  if cs = ['i', 'n', 'f'] ∨ cs = ['n', 'a', 'n'] then return .float
  let exponent ←
    match cs.dropWhile (!isExponentMark ·) with
    | _ :: digits => (exponent? digits).map some
    | [] => some none
  let mantissa := cs.takeWhile (!isExponentMark ·)
  let whole ← wholeDigits? (mantissa.takeWhile (· ≠ '.'))
  let fraction ←
    match mantissa.dropWhile (· ≠ '.') with
    | _ :: digits => (groupedDigits? 10 digits).map some
    | [] => some none
  if fraction.isNone ∧ exponent.isNone then none
  else
    let places := fraction.getD []
    let value := Double.ofScientific? negative (Text.ofDigits 10 (whole ++ places))
      (exponent.getD 0 - places.length)
    if value.isNone ∧ ¬ negative then none else return .float

/-! ## Dates and times -/

/-- Two digits as a number of at most a bound. -/
def twoDigits? (low high : Nat) (a b : Char) : Option Nat :=
  let n := Text.ofDigits 10 [a, b]
  if a.isDigit ∧ b.isDigit ∧ low ≤ n ∧ n ≤ high then some n else none

/-- The number of days of a month. -/
def daysIn (year month : Nat) : Nat :=
  if month = 2 then
    if year % 4 = 0 ∧ (year % 100 ≠ 0 ∨ year % 400 = 0) then 29 else 28
  else if month = 4 ∨ month = 6 ∨ month = 9 ∨ month = 11 then 30
  else 31

/-- A date at the front of a text, and the text after it. -/
def date? : List Char → Option (List Char)
  | a :: b :: c :: d :: '-' :: e :: f :: '-' :: g :: h :: rest => do
    if [a, b, c, d].all Char.isDigit then
      let month ← twoDigits? 1 12 e f
      let _ ← twoDigits? 1 (daysIn (Text.ofDigits 10 [a, b, c, d]) month) g h
      return rest
    else none
  | _ => none

/-- The text after a fraction of a second, if there is one. -/
def afterFraction? : List Char → Option (List Char)
  | '.' :: cs => if cs.head?.any Char.isDigit then some (cs.dropWhile Char.isDigit) else none
  | cs => some cs

/-- A time at the front of a text, and the text after it. -/
def time? : List Char → Option (List Char)
  | a :: b :: ':' :: c :: d :: ':' :: e :: f :: rest => do
    let _ ← twoDigits? 0 23 a b
    let _ ← twoDigits? 0 59 c d
    let _ ← twoDigits? 0 60 e f
    afterFraction? rest
  | _ => none

/-- The text is an offset from universal time, or empty. -/
def isOffset : List Char → Bool
  | [] | ['Z'] | ['z'] => true
  | [sign, a, b, ':', c, d] =>
    (sign = '+' || sign = '-') && (twoDigits? 0 23 a b).isSome && (twoDigits? 0 59 c d).isSome
  | _ => false

/-- A date, a time, or a date and a time with an offset or without. -/
def dateTime? (cs : List Char) : Option Value :=
  let isTime : Bool := time? cs == some []
  let isDate : Bool :=
    match date? cs with
    | some [] => true
    | some (c :: rest) =>
      (c = 'T' || c = 't' || c = ' ') && (time? rest).any isOffset
    | none => false
  if isTime || isDate then some .dateTime else none

/-! ## Any of them -/

/-- A character of a scalar that is no string. -/
def isScalarChar (c : Char) : Bool :=
  c.isAlphanum || c = '+' || c = '-' || c = '.' || c = ':' || c = '_'

/-- A scalar that is no string. -/
def scalar? (cs : List Char) : Option Value :=
  if cs = ['t', 'r', 'u', 'e'] then some (.boolean true)
  else if cs = ['f', 'a', 'l', 's', 'e'] then some (.boolean false)
  else dateTime? cs <|> integer? cs <|> float? cs

end TermLang.Toml
