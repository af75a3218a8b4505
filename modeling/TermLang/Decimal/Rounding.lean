import TermLang.Decimal.Double
import TermLang.Text.Digits

/-!
# Rounding to the nearest double

A ratio of natural numbers is rounded to the nearest magnitude of a binary64 number, a tie going
to the even rank. The result counts on past the last finite rank, so a ratio is out of range
exactly where its rank is.
-/

namespace TermLang.Double

/-- A power of ten. -/
def tenTo (n : Nat) : Nat := Nat.pow 10 n

/-- The whole number nearest to a ratio, a tie going to the even one. -/
def divideToEven (num den : Nat) : Nat :=
  let quotient := num / den
  let twice := 2 * (num % den)
  if twice < den then quotient
  else if den < twice then quotient + 1
  else quotient + quotient % 2

/-- The rank of the magnitude nearest to a ratio.

The ratio is counted in units of `2 ^ -1074`. Past `2 ^ 53` units only the leading fifty-three bits
are kept, and the units dropped per kept one fix the binade. -/
def nearestRank (num den : Nat) : Nat :=
  let units := num <<< places
  let binade := (units / den).log2 - 52
  binadeSize * binade + divideToEven units (den <<< binade)

/-- The double nearest to a signed ratio, unless it is out of range. -/
def ofRatio? (negative : Bool) (num den : Nat) : Option Double :=
  let rank := nearestRank num den
  if h : rank < 2047 * binadeSize then some ⟨negative, rank, h⟩ else none

/-- The double nearest to `coefficient * 10 ^ exponent`, unless it is out of range.

Exponents far out of range are settled without computing the power: past 400 any number but zero is
too large, and a number with so many more places than bits rounds to zero. -/
def ofScientific? (negative : Bool) (coefficient : Nat) (exponent : Int) : Option Double :=
  if coefficient = 0 ∨ exponent + coefficient.log2 < -1100 then ofRatio? negative 0 1
  else if 400 < exponent then none
  else
    match exponent with
    | .ofNat e => ofRatio? negative (coefficient * tenTo e) 1
    | .negSucc e => ofRatio? negative coefficient (tenTo (e + 1))

/-- The double nearest to a decimal written with a point, unless it is out of range. -/
def ofPointed? (negative : Bool) (whole fraction : List Char) : Option Double :=
  ofRatio? negative (Text.ofDigits 10 (whole ++ fraction)) (tenTo fraction.length)

theorem divideToEven_of_dvd {num den : Nat} (hd : 0 < den) (h : num % den = 0) :
    divideToEven num den = num / den := by
  simp [divideToEven, h, hd]

theorem divideToEven_mul_right {k : Nat} (num den : Nat) (hk : 0 < k) :
    divideToEven (num * k) (den * k) = divideToEven num den := by
  have hq : num * k / (den * k) = num / den := Nat.mul_div_mul_right _ _ hk
  have hr : num * k % (den * k) = num % den * k := Nat.mul_mod_mul_right _ _ _
  have hlt : ∀ a b : Nat, 2 * (a * k) < b * k ↔ 2 * a < b := fun a b => by
    rw [← Nat.mul_assoc]; exact Nat.mul_lt_mul_right hk
  have hgt : ∀ a b : Nat, b * k < 2 * (a * k) ↔ b < 2 * a := fun a b => by
    rw [← Nat.mul_assoc]; exact Nat.mul_lt_mul_right hk
  simp only [divideToEven, hq, hr, hlt, hgt]

/-- Only the ratio matters. -/
theorem nearestRank_mul_right {k : Nat} (num den : Nat) (hk : 0 < k) :
    nearestRank (num * k) (den * k) = nearestRank num den := by
  have hs : ∀ a b : Nat, (a * k) <<< b = a <<< b * k := fun a b => by
    rw [Nat.shiftLeft_eq, Nat.shiftLeft_eq, Nat.mul_right_comm]
  simp only [nearestRank, hs, Nat.mul_div_mul_right _ _ hk, divideToEven_mul_right _ _ hk]

end TermLang.Double
