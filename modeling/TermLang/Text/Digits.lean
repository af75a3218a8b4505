/-!
# Digits and integers

The value of a row of digits in a base from two to sixteen, the decimal digits of a number, and the
integers that sixty-four bits can hold.
-/

namespace TermLang.Text

/-- The value of a digit, letters of either case counting on from ten. -/
def digitValue? (c : Char) : Option Nat :=
  if '0' ≤ c ∧ c ≤ '9' then some (c.toNat - '0'.toNat)
  else if 'a' ≤ c ∧ c ≤ 'f' then some (c.toNat - 'a'.toNat + 10)
  else if 'A' ≤ c ∧ c ≤ 'F' then some (c.toNat - 'A'.toNat + 10)
  else none

/-- The character is a digit of the base. -/
def isDigitOf (base : Nat) (c : Char) : Bool :=
  (digitValue? c).any (· < base)

/-- The number that a row of digits denotes. -/
def ofDigits (base : Nat) (digits : List Char) : Nat :=
  digits.foldl (fun n c => n * base + (digitValue? c).getD 0) 0

/-- The decimal digits of a number, without leading zeros. -/
def decimalDigits (n : Nat) : List Char :=
  Nat.toDigits 10 n

/-- An integer as a signed 64-bit one, if it is in range. -/
def int64? (n : Int) : Option Int64 :=
  if Int64.minValue.toInt ≤ n ∧ n ≤ Int64.maxValue.toInt then some (Int64.ofInt n) else none

@[simp] theorem ofDigits_nil (base : Nat) : ofDigits base [] = 0 := rfl

theorem ofDigits_concat (base : Nat) (ds : List Char) (d : Char) :
    ofDigits base (ds ++ [d]) = ofDigits base ds * base + (digitValue? d).getD 0 := by
  simp [ofDigits]

theorem isDigitOf_ten {c : Char} : isDigitOf 10 c = true ↔ '0' ≤ c ∧ c ≤ '9' := by
  unfold isDigitOf digitValue?
  split
  · rename_i h
    obtain ⟨h1, h2⟩ := h
    simp only [Option.any_some, decide_eq_true_eq, h1, h2, and_self, iff_true]
    have : c.toNat ≤ '9'.toNat := h2
    simp at this ⊢
    omega
  · rename_i h
    simp only [h, iff_false]
    split
    · simp
    · split <;> simp

@[simp] theorem int64?_toInt (i : Int64) : int64? i.toInt = some i := by
  rw [int64?, if_pos ⟨i.minValue_le_toInt, i.toInt_le⟩, Int64.ofInt_toInt]

theorem toInt_of_int64? {n : Int} {i : Int64} (h : int64? n = some i) : i.toInt = n := by
  unfold int64? at h
  split at h
  · rename_i hn
    rw [Int64.toInt_minValue, Int64.toInt_maxValue] at hn
    rw [Option.some.injEq] at h
    rw [← h]
    exact Int64.toInt_ofInt_of_le hn.1 (by omega)
  · simp at h

end TermLang.Text
