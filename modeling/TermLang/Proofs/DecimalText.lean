import Mathlib.Tactic.Ring
import TermLang.Decimal.Style
import TermLang.Proofs.DigitText

/-!
# Doubles read back

Every double is read back from the text it is written with in source: whatever number of digits the
shortest decimal drops, it was chosen because the double nearest to it is the number itself, and with
no digit dropped the expansion is exact (`nearestRank_expansion`). Writing a decimal with a point
moves zeros and the point about and keeps the value (`writePointed_value`).
-/

namespace TermLang.Double

open Text (ofDigits decimalDigits)

/-! ## The nearest rank -/

theorem tenTo_eq (n : Nat) : tenTo n = 10 ^ n := rfl

theorem tenTo_pos (n : Nat) : 0 < tenTo n := Nat.pow_pos (by decide)

theorem nearestRank_zero (den : Nat) : nearestRank 0 den = 0 := by
  have hdiv : ∀ d, divideToEven 0 d = 0 := by
    intro d
    simp [divideToEven]
  simp only [nearestRank, Nat.zero_shiftLeft, Nat.zero_div, hdiv]
  rfl

/-- Equal ratios have one nearest rank. -/
theorem nearestRank_congr {a b c d : Nat} (hb : 0 < b) (hd : 0 < d) (h : a * d = c * b) :
    nearestRank a b = nearestRank c d := by
  rw [← nearestRank_mul_right a b hd, h, Nat.mul_comm b d, nearestRank_mul_right c d hb]

/-- A whole number of units is rounded by dropping what its binade has no room for. -/
theorem nearestRank_two_pow (n : Nat) :
    nearestRank n (2 ^ places) =
      binadeSize * (n.log2 - 52) + divideToEven n (2 ^ (n.log2 - 52)) := by
  have hpos : 0 < 2 ^ places := Nat.two_pow_pos _
  unfold nearestRank
  dsimp only
  rw [Nat.shiftLeft_eq, Nat.mul_div_cancel _ hpos, Nat.shiftLeft_eq, Nat.mul_comm (2 ^ places),
    divideToEven_mul_right _ _ hpos]

theorem binadeSize_eq : binadeSize = 2 ^ 52 := rfl

/-- The units of a rank count as the rank. -/
theorem nearestRank_units (rank : Nat) : nearestRank (units rank) (2 ^ places) = rank := by
  rw [nearestRank_two_pow]
  by_cases h : rank < binadeSize
  · have hunits : units rank = rank := if_pos h
    have hlog : rank.log2 - 52 = 0 := by
      by_cases h0 : rank = 0
      · rw [h0]
        rfl
      · have : rank.log2 < 52 := (Nat.log2_lt h0).2 h
        omega
    rw [hunits, hlog, Nat.mul_zero, Nat.zero_add, Nat.pow_zero,
      divideToEven_of_dvd Nat.one_pos (Nat.mod_one rank), Nat.div_one]
  · generalize hq : rank / binadeSize = q
    generalize hr : rank % binadeSize = r
    have hsum : binadeSize * q + r = rank := by rw [← hq, ← hr]; exact Nat.div_add_mod _ _
    have hr : r < binadeSize := by rw [← hr]; exact Nat.mod_lt _ (by decide)
    have hq1 : 1 ≤ q := by
      rw [← hq]
      exact (Nat.one_le_div_iff (by decide)).2 (Nat.le_of_not_lt h)
    obtain ⟨e, rfl⟩ := Nat.exists_eq_add_of_le' hq1
    have hunits : units rank = (binadeSize + r) * 2 ^ e := by
      rw [units, if_neg h, ‹rank % binadeSize = r›, hq, Nat.add_sub_cancel, Nat.shiftLeft_eq]
    have hpos : 0 < 2 ^ e := Nat.two_pow_pos e
    have hlog : (units rank).log2 = 52 + e := by
      rw [hunits]
      refine (Nat.log2_eq_iff (Nat.ne_of_gt (Nat.mul_pos (by omega) hpos))).2 ⟨?_, ?_⟩
      · rw [Nat.pow_add, ← binadeSize_eq]
        exact Nat.mul_le_mul_right _ (by omega)
      · rw [Nat.add_right_comm, Nat.pow_add, Nat.pow_succ, ← binadeSize_eq]
        exact Nat.mul_lt_mul_of_pos_right (by omega) hpos
    rw [hlog, Nat.add_sub_cancel_left, hunits,
      divideToEven_of_dvd hpos (Nat.mul_mod_left _ _), Nat.mul_div_cancel _ hpos]
    rw [← hsum]
    ring

theorem tenTo_eq_mul (n : Nat) : tenTo n = 2 ^ n * 5 ^ n := by
  rw [tenTo_eq, ← Nat.mul_pow]

theorem expansion_eq (rank : Nat) : expansion rank = units rank * 5 ^ places := by
  rw [expansion, Nat.pow_eq, Nat.mul_comm]

/-- With no digit dropped the expansion of a magnitude is exact. -/
theorem nearestRank_expansion (rank : Nat) : nearestRank (expansion rank) (tenTo places) = rank := by
  have hfive : ∀ n, 0 < 5 ^ n := fun n => Nat.pow_pos (by decide)
  rw [tenTo_eq_mul, expansion_eq, nearestRank_mul_right _ _ (hfive _), nearestRank_units]

/-- Whatever form is taken, it reads back. -/
theorem nearestRank_shortestFrom (tie : Tie) (rank bound : Nat) {c dropped : Nat}
    (h : shortestFrom (shortened? tie rank) (expansion rank) bound = (c, dropped)) :
    nearestRank (c * tenTo dropped) (tenTo places) = rank := by
  have hone : ∀ n, n * tenTo 0 = n := Nat.mul_one
  induction bound with
  | zero =>
    rw [shortestFrom, Prod.mk.injEq] at h
    rw [← h.1, ← h.2, hone, nearestRank_expansion]
  | succ bound ih =>
    rw [shortestFrom] at h
    split at h
    · rename_i hs
      rw [Prod.mk.injEq] at h
      rw [← h.1, ← h.2]
      exact beq_iff_eq.1 (readsBack_of_shortened? hs)
    · exact ih h

/-- Two decimals with the same digits but for zeros, and the same place of the point, are equal
ratios. -/
theorem cross_eq {n d c a b p zeros dropped f : Nat} (h : n * 10 ^ a = d * 10 ^ (f + b))
    (hc : d * 10 ^ zeros = c) (he : a + zeros + dropped = p + b) :
    n * tenTo p = c * tenTo dropped * tenTo f := by
  refine Nat.eq_of_mul_eq_mul_right (Nat.pow_pos (by decide : 0 < 10) (n := a)) ?_
  simp only [tenTo_eq]
  calc n * 10 ^ p * 10 ^ a = n * 10 ^ a * 10 ^ p := Nat.mul_right_comm _ _ _
    _ = d * 10 ^ (f + (p + b)) := by
      rw [h, Nat.mul_assoc, ← Nat.pow_add, Nat.add_assoc, Nat.add_comm p]
    _ = d * 10 ^ zeros * 10 ^ dropped * 10 ^ f * 10 ^ a := by
      rw [← he]
      ring
    _ = c * 10 ^ dropped * 10 ^ f * 10 ^ a := by rw [hc]

/-! ## Moving the point -/

theorem trimZeros_append (ds : List Char) :
    ∃ zeros, trimZeros ds ++ List.replicate zeros '0' = ds := by
  refine ⟨(ds.reverse.takeWhile (· == '0')).length, ?_⟩
  have hall : (ds.reverse.takeWhile (· == '0')).reverse =
      List.replicate (ds.reverse.takeWhile (· == '0')).length '0' := by
    rw [List.eq_replicate_iff]
    refine ⟨List.length_reverse, fun c hc => ?_⟩
    exact beq_iff_eq.1 (List.all_eq_true.1 List.all_takeWhile c (List.mem_reverse.1 hc))
  rw [trimZeros, ← hall, ← List.reverse_append, List.takeWhile_append_dropWhile,
    List.reverse_reverse]

/-- The digits are split into a whole part and a fraction with the point after so many of them, and
with zeros where there are none. -/
structure Pointed (digits : List Char) (point : Int) (whole fraction : List Char) : Prop where
  whole_ne_nil : whole ≠ []
  fraction_ne_nil : fraction ≠ []
  isDigit : ∀ c ∈ whole ++ fraction, c.isDigit = true
  /-- With `n` digits and the point after `k` of them, `value * 10 ^ n = digits * 10 ^ k` up to the
  places of the fraction. -/
  value : ofDigits 10 (whole ++ fraction) * 10 ^ (digits.length + (-point).toNat) =
    ofDigits 10 digits * 10 ^ (fraction.length + point.toNat)

theorem isDigit_zeros (n : Nat) : ∀ c ∈ List.replicate n '0', c.isDigit = true := by
  intro c hc
  rw [List.eq_of_mem_replicate hc]
  rfl

section

variable {digits : List Char} (hne : digits ≠ []) (hdigit : ∀ c ∈ digits, c.isDigit = true)

include hne hdigit

theorem pointed_leading (zeros : Nat) :
    Pointed digits (-zeros) ['0'] (List.replicate zeros '0' ++ digits) := by
  refine ⟨by simp, by simp [hne], ?_, ?_⟩
  · refine List.forall_mem_append.2 ⟨isDigit_zeros 1, ?_⟩
    exact List.forall_mem_append.2 ⟨isDigit_zeros zeros, hdigit⟩
  · rw [← List.append_assoc, show ['0'] ++ List.replicate zeros '0' = List.replicate (zeros + 1) '0'
      from rfl, Text.ofDigits_zeros_append, List.length_append, List.length_replicate]
    congr 2
    omega

theorem pointed_trailing (zeros : Nat) :
    Pointed digits (digits.length + zeros : Nat) (digits ++ List.replicate zeros '0') ['0'] := by
  refine ⟨by simp [hne], by simp, ?_, ?_⟩
  · refine List.forall_mem_append.2 ⟨List.forall_mem_append.2 ⟨hdigit, isDigit_zeros zeros⟩, ?_⟩
    exact isDigit_zeros 1
  · rw [List.append_assoc, ← List.replicate_succ', Text.ofDigits_append_zeros, Nat.mul_assoc,
      ← Nat.pow_add, List.length_singleton]
    congr 2
    omega

theorem pointed_between {p : Nat} (hp : p ≠ 0) (hlen : p < digits.length) :
    Pointed digits p (digits.take p) (digits.drop p) := by
  refine ⟨?_, ?_, ?_, ?_⟩
  · rw [Ne, List.take_eq_nil_iff, not_or]
    exact ⟨hp, hne⟩
  · rw [Ne, List.drop_eq_nil_iff, Nat.not_le]
    exact hlen
  · rwa [List.take_append_drop]
  · rw [List.take_append_drop, List.length_drop]
    congr 2
    omega

/-- Wherever the point stands, the digits are written as a whole part and a fraction. -/
theorem writePointed_pointed (point : Int) :
    ∃ whole fraction, writePointed digits point = whole ++ '.' :: fraction ∧
      Pointed digits point whole fraction := by
  cases point with
  | ofNat p =>
    by_cases hp : p = 0
    · subst hp
      exact ⟨['0'], digits, rfl, pointed_leading hne hdigit 0⟩
    by_cases hlen : digits.length ≤ p
    · obtain ⟨zeros, rfl⟩ := Nat.exists_eq_add_of_le hlen
      refine ⟨_, _, ?_, pointed_trailing hne hdigit zeros⟩
      simp only [writePointed, if_neg hp, if_pos hlen, Nat.add_sub_cancel_left]
    · refine ⟨_, _, ?_, pointed_between hne hdigit hp (Nat.lt_of_not_le hlen)⟩
      simp only [writePointed, if_neg hp, if_neg hlen]
  | negSucc p => exact ⟨['0'], _, rfl, pointed_leading hne hdigit (p + 1)⟩

end

/-! ## Text of a double -/

/-- Without the zeros that they close with, the digits of a number are still digits, and those of the
number but for a power of ten. -/
theorem trimZeros_decimalDigits {c : Nat} (hc : c ≠ 0) :
    trimZeros (decimalDigits c) ≠ [] ∧ (∀ d ∈ trimZeros (decimalDigits c), d.isDigit = true) ∧
      ∃ zeros, (trimZeros (decimalDigits c)).length + zeros = (decimalDigits c).length ∧
        ofDigits 10 (trimZeros (decimalDigits c)) * 10 ^ zeros = c := by
  obtain ⟨zeros, hzeros⟩ := trimZeros_append (decimalDigits c)
  have hvalue : ofDigits 10 (trimZeros (decimalDigits c)) * 10 ^ zeros = c := by
    rw [← Text.ofDigits_append_zeros, hzeros, Text.ofDigits_decimalDigits]
  refine ⟨?_, ?_, zeros, ?_, hvalue⟩
  · intro hnil
    rw [hnil, Text.ofDigits_nil, Nat.zero_mul] at hvalue
    exact hc hvalue.symm
  · intro d hd
    refine Text.isDigit_of_mem_decimalDigits (n := c) ?_
    rw [← hzeros]
    exact List.mem_append_left _ hd
  · rw [← List.length_replicate (n := zeros) (a := '0'), ← List.length_append, hzeros]

/-- The shortest decimal of a magnitude other than zero is not zero and reads back as it. -/
theorem shortest_eq (tie : Tie) {rank : Nat} (h0 : rank ≠ 0) :
    ∃ c dropped : Nat, shortest tie rank = ⟨c, (dropped : Int) - places⟩ ∧ c ≠ 0 ∧
      nearestRank (c * tenTo dropped) (tenTo places) = rank := by
  obtain ⟨⟨c, dropped⟩, hs⟩ : ∃ r, shortestFrom (shortened? tie rank) (expansion rank)
      ((decimalDigits (expansion rank)).length - 1) = r := ⟨_, rfl⟩
  have hrank := nearestRank_shortestFrom tie rank _ hs
  refine ⟨c, dropped, ?_, ?_, hrank⟩
  · simp only [shortest, hs]
  · rintro rfl
    rw [Nat.zero_mul, nearestRank_zero] at hrank
    exact h0 hrank.symm

/-- A magnitude is written in source text as a whole part and a fraction that read back as it. -/
theorem writeRank_source (rank : Nat) :
    ∃ whole fraction, writeRank .source rank = whole ++ '.' :: fraction ∧
      whole ≠ [] ∧ fraction ≠ [] ∧ (∀ c ∈ whole ++ fraction, c.isDigit = true) ∧
      nearestRank (ofDigits 10 (whole ++ fraction)) (tenTo fraction.length) = rank := by
  by_cases h0 : rank = 0
  · refine ⟨['0'], ['0'], ?_, by simp, by simp, isDigit_zeros 2, ?_⟩
    · rw [writeRank, if_pos h0]
      rfl
    · rw [h0]
      exact nearestRank_zero _
  · obtain ⟨c, dropped, hs, hc, hrank⟩ := shortest_eq .up h0
    obtain ⟨hne, hdigit, zeros, hlen, hvalue⟩ := trimZeros_decimalDigits hc
    obtain ⟨whole, fraction, htext, hpointed⟩ := writePointed_pointed hne hdigit
      ((decimalDigits c).length + ((dropped : Int) - places) - 1 + 1)
    refine ⟨whole, fraction, ?_, hpointed.whole_ne_nil, hpointed.fraction_ne_nil, hpointed.isDigit,
      ?_⟩
    · rw [writeRank, if_neg h0, ← htext]
      simp only [Style.source, Style.pointed, hs, Option.all_none, Bool.and_self, if_true]
    · rw [← hrank]
      refine nearestRank_congr (tenTo_pos _) (tenTo_pos _) ?_
      exact cross_eq hpointed.value hvalue (by omega)

/-- The sign in front of a double. -/
def sign (x : Double) : List Char := if x.negative then ['-'] else []

/-- A double is written with a sign, a whole part and a fraction that read back as the double. -/
theorem write_source (x : Double) :
    ∃ whole fraction, (x.write .source).toList = x.sign ++ (whole ++ '.' :: fraction) ∧
      whole ≠ [] ∧ fraction ≠ [] ∧ (∀ c ∈ whole ++ fraction, c.isDigit = true) ∧
      ofPointed? x.negative whole fraction = some x := by
  obtain ⟨whole, fraction, htext, hwhole, hfraction, hdigit, hrank⟩ := writeRank_source x.rank
  refine ⟨whole, fraction, ?_, hwhole, hfraction, hdigit, ?_⟩
  · rw [write, String.toList_ofList, htext]
    rfl
  · simp only [ofPointed?, ofRatio?, hrank, dif_pos x.rank_lt]

end TermLang.Double
