import TermLang.Decimal.Shortest

/-!
# Writing a double

The digits of the shortest decimal are written with a point, or in scientific form when the power
of ten of the first digit is outside the bounds of a style. A number without a fraction keeps the
place `.0`, so that it reads back as a decimal and not as an integer.
-/

namespace TermLang.Double

/-- The bounds of pointed writing, the mark of a positive exponent, and the choice of a tie. -/
structure Style where
  /-- The lowest power of ten of a first digit that is written with a point. -/
  lowest : Option Int
  /-- The highest power of ten of a first digit that is written with a point. -/
  highest : Option Int
  /-- A positive exponent gets a plus sign. -/
  plus : Bool
  tie : Tie
deriving Repr

/-- Source text writes every digit out. -/
def Style.source : Style := ⟨none, none, false, .up⟩

/-- Tree dumps write `1e-5` and `1e16` in scientific form. -/
def Style.dump : Style := ⟨some (-4), some 15, false, .up⟩

/-- JSON text writes `1e-6` and `1e+16` in scientific form. -/
def Style.json : Style := ⟨some (-5), some 15, true, .even⟩

/-- A power of ten inside the bounds of a style. -/
def Style.pointed (style : Style) (power : Int) : Bool :=
  style.lowest.all (· ≤ power) && style.highest.all (power ≤ ·)

/-- The digits without the zeros they close with. -/
def trimZeros (digits : List Char) : List Char :=
  (digits.reverse.dropWhile (· == '0')).reverse

/-- Digits with the decimal point after so many of them. -/
def writePointed (digits : List Char) (point : Int) : List Char :=
  match point with
  | .ofNat p =>
    if p = 0 then '0' :: '.' :: digits
    else if digits.length ≤ p then
      digits ++ List.replicate (p - digits.length) '0' ++ ['.', '0']
    else digits.take p ++ '.' :: digits.drop p
  | .negSucc p => '0' :: '.' :: (List.replicate (p + 1) '0' ++ digits)

/-- One digit, the others after a point, and the power of ten of the first. -/
def writeScientific (plus : Bool) (digits : List Char) (power : Int) : List Char :=
  let mantissa :=
    match digits with
    | [] => ['0']
    | [d] => [d]
    | d :: ds => d :: '.' :: ds
  let mark :=
    match power with
    | .ofNat _ => if plus then ['+'] else []
    | .negSucc _ => ['-']
  mantissa ++ 'e' :: mark ++ Text.decimalDigits power.natAbs

/-- A magnitude in a style. -/
def writeRank (style : Style) (rank : Nat) : List Char :=
  if rank = 0 then ['0', '.', '0']
  else
    let decimal := shortest style.tie rank
    let all := Text.decimalDigits decimal.coefficient
    let power := (all.length : Int) + decimal.exponent - 1
    let digits := trimZeros all
    if style.pointed power then writePointed digits (power + 1)
    else writeScientific style.plus digits power

/-- A double in a style; zero keeps its sign. -/
def write (style : Style) (x : Double) : String :=
  String.ofList ((if x.negative then ['-'] else []) ++ writeRank style x.rank)

end TermLang.Double
