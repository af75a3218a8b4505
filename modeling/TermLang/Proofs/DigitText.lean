import Mathlib.Data.List.Basic
import Mathlib.Data.List.Induction
import Mathlib.Tactic.Ring
import TermLang.Layout.Spelling

/-!
# Digits read back

The decimal digits of a number are digits and denote the number. Rows of digits are put together by a
power of the base, so zeros in front of a number say nothing and zeros behind it multiply it.
-/

namespace TermLang.Text

/-! ## Values of rows of digits -/

theorem ofDigits_append (base : Nat) (xs ys : List Char) :
    ofDigits base (xs ++ ys) = ofDigits base xs * base ^ ys.length + ofDigits base ys := by
  induction ys using List.reverseRecOn with
  | nil => simp
  | append_singleton ys y ih =>
    rw [← List.append_assoc, ofDigits_concat, ofDigits_concat, ih, List.length_append,
      List.length_singleton, Nat.pow_succ]
    rw [Nat.add_mul, Nat.mul_assoc, Nat.add_assoc]

theorem ofDigits_zeros (base n : Nat) : ofDigits base (List.replicate n '0') = 0 := by
  induction n with
  | zero => rfl
  | succ n ih =>
    rw [List.replicate_succ', ofDigits_concat, ih, Nat.zero_mul]
    rfl

/-- Zeros in front say nothing. -/
theorem ofDigits_zeros_append (base n : Nat) (ds : List Char) :
    ofDigits base (List.replicate n '0' ++ ds) = ofDigits base ds := by
  rw [ofDigits_append, ofDigits_zeros, Nat.zero_mul, Nat.zero_add]

/-- Zeros behind multiply by powers of the base. -/
theorem ofDigits_append_zeros (base n : Nat) (ds : List Char) :
    ofDigits base (ds ++ List.replicate n '0') = ofDigits base ds * base ^ n := by
  rw [ofDigits_append, ofDigits_zeros, Nat.add_zero, List.length_replicate]

/-! ## Decimal digits -/

theorem decimalDigits_ne_nil (n : Nat) : decimalDigits n ≠ [] := Nat.toDigits_ne_nil

theorem isDigit_of_mem_decimalDigits {n : Nat} {c : Char} (h : c ∈ decimalDigits n) :
    c.isDigit = true := Nat.isDigit_of_mem_toDigits (by decide) (by decide) h

theorem decimalDigits_eq (n : Nat) :
    decimalDigits n =
      if n < 10 then [n.digitChar] else decimalDigits (n / 10) ++ [(n % 10).digitChar] :=
  Nat.toDigits_eq_if (by decide)

theorem digitValue?_digitChar {n : Nat} (h : n < 10) : digitValue? n.digitChar = some n := by
  revert h
  revert n
  decide

theorem ofDigits_decimalDigits (n : Nat) : ofDigits 10 (decimalDigits n) = n := by
  induction n using Nat.strongRecOn with
  | ind n ih =>
    rw [decimalDigits_eq]
    by_cases h : n < 10
    · rw [if_pos h, ← List.nil_append [n.digitChar], ofDigits_concat, digitValue?_digitChar h]
      simp
    · rw [if_neg h, ofDigits_concat, ih (n / 10) (by omega),
        digitValue?_digitChar (Nat.mod_lt n (by decide))]
      show n / 10 * 10 + n % 10 = n
      omega

/-- No number but zero is written with a zero in front. -/
theorem decimalDigits_head {n : Nat} (hn : n ≠ 0) : (decimalDigits n).head? ≠ some '0' := by
  induction n using Nat.strongRecOn with
  | ind n ih =>
    rw [decimalDigits_eq]
    by_cases h : n < 10
    · rw [if_pos h]
      intro hhead
      have hvalue := digitValue?_digitChar h
      rw [Option.some.inj hhead] at hvalue
      exact hn (Option.some.inj hvalue).symm
    · rw [if_neg h, List.head?_append_of_ne_nil _ (decimalDigits_ne_nil _)]
      exact ih (n / 10) (by omega) (by omega)

end TermLang.Text

namespace TermLang

/-- A row of characters of a class is taken up to where the class ends. -/
theorem takeWhile_append_of_head {p : Char → Bool} {xs ys : List Char} (hx : ∀ c ∈ xs, p c = true)
    (hy : ∀ c ∈ ys.head?, p c = false) :
    (xs ++ ys).takeWhile p = xs ∧ (xs ++ ys).dropWhile p = ys := by
  rw [List.takeWhile_append_of_pos hx, List.dropWhile_append_of_pos hx]
  cases ys with
  | nil => simp
  | cons y ys =>
    have hy : p y = false := hy y rfl
    simp [hy]

/-- A signed integer is read back from its sign and the digits of its magnitude. -/
theorem int64?_sign_natAbs (n : Int64) :
    Text.int64? (if n.toInt < 0 then -(n.toInt.natAbs : Int) else n.toInt.natAbs) = some n := by
  rw [← Text.int64?_toInt n]
  congr 1
  split <;> omega

end TermLang
