import TermLang.Dump.JsonReader
import TermLang.Proofs.DecimalText

/-!
# Numbers in JSON text read back

A double is written with a point or in scientific form, and is read back from either. The reader
settles exponents far out of range without computing the power of ten, and agrees with rounding the
ratio itself on every exponent (`ofScientific?_eq`), so what the shortest decimal promises of the
ratio holds of what is read.
-/

namespace TermLang.Double

open Text (ofDigits decimalDigits)

/-! ## Exponents far out of range -/

theorem ofRatio?_congr {negative : Bool} {a b c d : Nat} (h : nearestRank a b = nearestRank c d) :
    ofRatio? negative a b = ofRatio? negative c d := by
  simp only [ofRatio?, h]

/-- Less than half of the least positive magnitude is rounded to zero. -/
theorem nearestRank_eq_zero {num den : Nat} (h : num * 2 ^ (places + 1) < den) :
    nearestRank num den = 0 := by
  have htwice : ∀ p, 2 * (num <<< p) = num * 2 ^ (p + 1) := fun p => by
    rw [Nat.shiftLeft_eq, Nat.pow_succ', Nat.mul_left_comm]
  have hunits : 2 * (num <<< places) < den := Nat.lt_of_le_of_lt (Nat.le_of_eq (htwice _)) h
  have hdiv : num <<< places / den = 0 := Nat.div_eq_of_lt (by omega)
  have hmod : num <<< places % den = num <<< places := Nat.mod_eq_of_lt (by omega)
  simp only [nearestRank, hdiv, show Nat.log2 0 - 52 = 0 from rfl, Nat.mul_zero, Nat.zero_add,
    Nat.shiftLeft_zero]
  simp only [divideToEven, hdiv, hmod, if_pos hunits]

/-- A ratio has at least the rank at which its binade starts. -/
theorem binade_le_nearestRank {num den k : Nat} (h : 2 ^ k ≤ num <<< places / den) :
    binadeSize * (k - 52) ≤ nearestRank num den := by
  have hne : num <<< places / den ≠ 0 := Nat.ne_of_gt (Nat.lt_of_lt_of_le (Nat.two_pow_pos k) h)
  have hlog : k ≤ (num <<< places / den).log2 := (Nat.le_log2 hne).2 h
  calc binadeSize * (k - 52)
      ≤ binadeSize * ((num <<< places / den).log2 - 52) :=
        Nat.mul_le_mul_left _ (Nat.sub_le_sub_right hlog 52)
    _ ≤ nearestRank num den := Nat.le_add_right _ _

theorem nearestRank_tiny {coefficient m : Nat} (h : 1100 + coefficient.log2 < m) :
    nearestRank coefficient (tenTo m) = 0 := by
  refine nearestRank_eq_zero ?_
  calc coefficient * 2 ^ (places + 1)
      < 2 ^ (coefficient.log2 + 1) * 2 ^ (places + 1) :=
        Nat.mul_lt_mul_of_pos_right Nat.lt_log2_self (Nat.two_pow_pos _)
    _ = 2 ^ (coefficient.log2 + 1 + (places + 1)) := (Nat.pow_add ..).symm
    _ ≤ 2 ^ m := Nat.pow_le_pow_right (by decide) (by simp only [places]; omega)
    _ ≤ 10 ^ m := Nat.pow_le_pow_left (by decide) _

theorem le_nearestRank_huge {coefficient e : Nat} (hc : coefficient ≠ 0) (he : 400 < e) :
    2047 * binadeSize ≤ nearestRank (coefficient * tenTo e) 1 := by
  have hten : ∀ n, 2 ^ (3 * n) ≤ 10 ^ n := fun n => by
    rw [Nat.pow_mul]
    exact Nat.pow_le_pow_left (by decide) n
  have hpower : 2 ^ (3 * e) ≤ coefficient * tenTo e :=
    Nat.le_trans (hten e) (Nat.le_mul_of_pos_left _ (Nat.pos_of_ne_zero hc))
  have hunits : 2 ^ (3 * e + places) ≤ (coefficient * tenTo e) <<< places / 1 := by
    rw [Nat.div_one, Nat.shiftLeft_eq, Nat.pow_add]
    exact Nat.mul_le_mul_right _ hpower
  refine Nat.le_trans ?_ (binade_le_nearestRank hunits)
  rw [Nat.mul_comm]
  exact Nat.mul_le_mul_left _ (by simp only [places]; omega)

/-- Whatever the exponent, a decimal is rounded as the ratio that it is. -/
theorem ofScientific?_eq (negative : Bool) (coefficient : Nat) (exponent : Int) :
    ofScientific? negative coefficient exponent =
      ofRatio? negative (coefficient * tenTo exponent.toNat) (tenTo (-exponent).toNat) := by
  unfold ofScientific?
  split
  · rename_i hzero
    refine ofRatio?_congr ?_
    rw [nearestRank_zero]
    rcases hzero with rfl | hsmall
    · rw [Nat.zero_mul, nearestRank_zero]
    · have htoNat : exponent.toNat = 0 := by omega
      rw [htoNat, show tenTo 0 = 1 from rfl, Nat.mul_one, nearestRank_tiny (by omega)]
  · rename_i hzero
    rw [not_or] at hzero
    split
    · rename_i hlarge
      have hneg : (-exponent).toNat = 0 := by omega
      rw [hneg, show tenTo 0 = 1 from rfl, ofRatio?, dif_neg]
      exact Nat.not_lt.2 (le_nearestRank_huge hzero.1 (by omega))
    · cases exponent with
      | ofNat e =>
        rw [show (-Int.ofNat e).toNat = 0 from Int.toNat_neg_natCast e]
        rfl
      | negSucc e =>
        rw [show (Int.negSucc e).toNat = 0 from rfl, show tenTo 0 = 1 from rfl, Nat.mul_one]
        rfl

/-! ## The shortest decimal -/

theorem trimZeros_head {n : Nat} (hn : n ≠ 0) : (trimZeros (decimalDigits n)).head? ≠ some '0' := by
  obtain ⟨zeros, hzeros⟩ := trimZeros_append (decimalDigits n)
  have hhead := Text.decimalDigits_head hn
  rwa [← hzeros, List.head?_append_of_ne_nil _ (trimZeros_decimalDigits hn).1] at hhead

/-- Two decimals with the same digits but for zeros, and the same powers of ten in all, are equal
ratios. -/
theorem shift_eq {d c zeros dropped a b p : Nat} (hc : d * 10 ^ zeros = c)
    (h : a + p = zeros + dropped + b) : d * tenTo a * tenTo p = c * tenTo dropped * tenTo b := by
  have hcross : d * tenTo a * 10 ^ b = d * 10 ^ (b + a) := by
    rw [tenTo_eq, Nat.mul_assoc, ← Nat.pow_add, Nat.add_comm a]
  exact cross_eq hcross hc (by omega)

/-- Digits without a zero in front are written with a point without one too, but for a zero that
stands alone. -/
theorem writePointed_head {digits : List Char} (hne : digits ≠ [])
    (hhead : digits.head? ≠ some '0') (point : Int) :
    (∃ fraction, writePointed digits point = '0' :: '.' :: fraction) ∨
      (writePointed digits point).head? ≠ some '0' := by
  obtain ⟨d, ds, rfl⟩ := List.exists_cons_of_ne_nil hne
  cases point with
  | ofNat p =>
    cases p with
    | zero => exact .inl ⟨_, rfl⟩
    | succ p =>
      right
      rw [writePointed, if_neg (Nat.succ_ne_zero p)]
      split <;> exact hhead
  | negSucc p => exact .inl ⟨_, rfl⟩

end TermLang.Double

namespace TermLang.Json

open Text (ofDigits decimalDigits)

/-! ## Parts of a number -/

/-- The text does not go on with anything that goes on with a number. -/
def EndsNumber (rest : List Char) : Prop :=
  ∀ c ∈ rest.head?, c.isDigit = false ∧ c ≠ '.' ∧ c ≠ 'e' ∧ c ≠ 'E'

theorem endsNumber_nil : EndsNumber [] := by simp [EndsNumber]

theorem readDigits_append {digits rest : List Char} (hne : digits ≠ [])
    (hdigit : ∀ c ∈ digits, c.isDigit = true) (hrest : ∀ c ∈ rest.head?, c.isDigit = false) :
    readDigits (digits ++ rest) = some (digits, rest) := by
  obtain ⟨htake, hdrop⟩ := takeWhile_append_of_head hdigit hrest
  rw [readDigits, htake, hdrop, if_neg (by simpa using hne)]

theorem readFraction_pointed {fraction rest : List Char} (hne : fraction ≠ [])
    (hdigit : ∀ c ∈ fraction, c.isDigit = true) (hrest : ∀ c ∈ rest.head?, c.isDigit = false) :
    readFraction ('.' :: (fraction ++ rest)) = some (some fraction, rest) := by
  rw [readFraction, readDigits_append hne hdigit hrest]
  rfl

theorem readFraction_none {rest : List Char} (h : ∀ c ∈ rest.head?, c ≠ '.') :
    readFraction rest = some (none, rest) := by
  unfold readFraction
  split
  · exact absurd rfl (h '.' rfl)
  · rfl

theorem readExponent_none {rest : List Char} (h : ∀ c ∈ rest.head?, c ≠ 'e' ∧ c ≠ 'E') :
    readExponent rest = some (none, rest) := by
  cases rest with
  | nil => rfl
  | cons c rest =>
    unfold readExponent
    dsimp only
    rw [if_neg (not_or.2 (h c rfl))]

/-- The exponent of scientific writing, with either sign written out. -/
def exponentText (power : Int) : List Char :=
  (match power with
    | .ofNat _ => '+'
    | .negSucc _ => '-') :: decimalDigits power.natAbs

theorem readExponent_power (power : Int) {rest : List Char}
    (hrest : ∀ c ∈ rest.head?, c.isDigit = false) :
    readExponent ('e' :: (exponentText power ++ rest)) = some (some power, rest) := by
  have hdigits : ∀ n, readDigits (decimalDigits n ++ rest) = some (decimalDigits n, rest) :=
    fun n => readDigits_append (Text.decimalDigits_ne_nil n)
      (fun _ => Text.isDigit_of_mem_decimalDigits) hrest
  cases power with
  | ofNat n => simp [readExponent, exponentText, hdigits, Text.ofDigits_decimalDigits]
  | negSucc n =>
    simp [readExponent, exponentText, hdigits, Text.ofDigits_decimalDigits]
    omega

/-! ## Numbers after their sign -/

/-- Digits that may stand in front of a number: a zero only on its own. -/
def PlainWhole (whole : List Char) : Prop := ¬ (whole.head? = some '0' ∧ 1 < whole.length)

theorem plainWhole_decimalDigits (n : Nat) : PlainWhole (decimalDigits n) := by
  rintro ⟨hhead, hlen⟩
  by_cases hn : n = 0
  · subst hn
    exact absurd hlen (by decide)
  · exact Text.decimalDigits_head hn hhead

theorem readMagnitude_int {negative : Bool} {n : Nat} (hn : negative = true → n ≠ 0)
    {rest : List Char} (hrest : EndsNumber rest) :
    readMagnitude negative (decimalDigits n ++ rest) =
      some (.int (if negative then -n else n), rest) := by
  have hdigits := readDigits_append (Text.decimalDigits_ne_nil n)
    (fun _ => Text.isDigit_of_mem_decimalDigits) fun c hc => (hrest c hc).1
  have hfraction := readFraction_none fun c hc => (hrest c hc).2.1
  have hexponent := readExponent_none fun c hc => (hrest c hc).2.2
  have hint : ¬ (negative = true ∧ n = 0) := fun h => hn h.1 h.2
  simp only [readMagnitude, hdigits, if_neg (plainWhole_decimalDigits n), hfraction, hexponent,
    hint, Text.ofDigits_decimalDigits, not_false_eq_true, and_self, if_true, Option.bind_eq_bind,
    Option.bind_some, Option.pure_def]

theorem readMagnitude_decimal {negative : Bool} {cs r r' rest whole : List Char}
    {fraction : Option (List Char)} {exponent : Option Int} {x : Double}
    (hwhole : readDigits cs = some (whole, r)) (hplain : PlainWhole whole)
    (hfraction : readFraction r = some (fraction, r'))
    (hexponent : readExponent r' = some (exponent, rest))
    (hdecimal : ¬ (fraction = none ∧ exponent = none))
    (hx : Double.ofScientific? negative (ofDigits 10 (whole ++ fraction.getD []))
      (exponent.getD 0 - (fraction.getD []).length) = some x) :
    readMagnitude negative cs = some (.decimal x, rest) := by
  have hnotInt : ¬ (fraction = none ∧ exponent = none ∧
      ¬ (negative = true ∧ ofDigits 10 whole = 0)) := fun h => hdecimal ⟨h.1, h.2.1⟩
  simp only [readMagnitude, hwhole, if_neg hplain, hfraction, hexponent, if_neg hnotInt, hx,
    Option.bind_eq_bind, Option.bind_some, Option.pure_def]

/-! ## Doubles -/

section

variable {x : Double} {rest : List Char}

theorem ofScientific?_eq_some {n : Nat} {e : Int}
    (h : Double.nearestRank (n * Double.tenTo e.toNat) (Double.tenTo (-e).toNat) = x.rank) :
    Double.ofScientific? x.negative n e = some x := by
  rw [Double.ofScientific?_eq]
  simp only [Double.ofRatio?, h, dif_pos x.rank_lt]

theorem readMagnitude_pointed {whole fraction : List Char} (hwhole : whole ≠ [])
    (hplain : PlainWhole whole) (hfraction : fraction ≠ [])
    (hdigit : ∀ c ∈ whole ++ fraction, c.isDigit = true)
    (hx : Double.nearestRank (ofDigits 10 (whole ++ fraction)) (Double.tenTo fraction.length) =
      x.rank) (hrest : EndsNumber rest) :
    readMagnitude x.negative (whole ++ '.' :: (fraction ++ rest)) = some (.decimal x, rest) := by
  obtain ⟨hwholeDigit, hfractionDigit⟩ := List.forall_mem_append.1 hdigit
  refine readMagnitude_decimal (readDigits_append hwhole hwholeDigit ?_) hplain
    (readFraction_pointed hfraction hfractionDigit fun c hc => (hrest c hc).1)
    (readExponent_none fun c hc => (hrest c hc).2.2) (fun h => Option.some_ne_none _ h.1)
    (ofScientific?_eq_some ?_)
  · rintro c ⟨⟩
    rfl
  · show Double.nearestRank (ofDigits 10 (whole ++ fraction) *
      Double.tenTo (0 - (fraction.length : Int)).toNat)
      (Double.tenTo (-(0 - (fraction.length : Int))).toNat) = x.rank
    rw [show (0 - (fraction.length : Int)).toNat = 0 by omega,
      show (-(0 - (fraction.length : Int))).toNat = fraction.length by omega, ← hx]
    exact congrArg (Double.nearestRank · _) (Nat.mul_one _)

theorem readMagnitude_scientific {d : Char} {ds : List Char} {power : Int}
    (hdigit : ∀ c ∈ d :: ds, c.isDigit = true)
    (hx : Double.nearestRank (ofDigits 10 (d :: ds) * Double.tenTo (power - ds.length).toNat)
      (Double.tenTo (-(power - ds.length)).toNat) = x.rank) (hrest : EndsNumber rest) :
    readMagnitude x.negative (Double.writeScientific true (d :: ds) power ++ rest) =
      some (.decimal x, rest) := by
  obtain ⟨hd, hds⟩ := List.forall_mem_cons.1 hdigit
  have hexponent := readExponent_power power fun c hc => (hrest c hc).1
  have hplain : PlainWhole [d] := fun h => absurd h.2 (Nat.lt_irrefl 1)
  cases ds with
  | nil =>
    have htext : Double.writeScientific true [d] power ++ rest =
        [d] ++ 'e' :: (exponentText power ++ rest) := by
      cases power <;> simp [Double.writeScientific, exponentText]
    rw [htext]
    refine readMagnitude_decimal (readDigits_append (List.cons_ne_nil _ _) hdigit ?_) hplain
      (readFraction_none ?_) hexponent (fun h => Option.some_ne_none _ h.2) (ofScientific?_eq_some hx)
    · rintro c ⟨⟩
      rfl
    · rintro c ⟨⟩
      decide
  | cons d' ds =>
    have htext : Double.writeScientific true (d :: d' :: ds) power ++ rest =
        [d] ++ '.' :: (d' :: ds ++ 'e' :: (exponentText power ++ rest)) := by
      cases power <;> simp [Double.writeScientific, exponentText]
    rw [htext]
    refine readMagnitude_decimal (readDigits_append (List.cons_ne_nil _ _) ?_ ?_) hplain
      (readFraction_pointed (List.cons_ne_nil _ _) hds ?_) hexponent (fun h => Option.some_ne_none _ h.1)
      (ofScientific?_eq_some hx)
    · exact List.forall_mem_singleton.2 hd
    · rintro c ⟨⟩
      rfl
    · rintro c ⟨⟩
      rfl

/-- The whole part is plain wherever the point stands, if the digits have no zero in front. -/
theorem plainWhole_of_writePointed {digits whole fraction : List Char} {point : Int}
    (hne : digits ≠ []) (hhead : digits.head? ≠ some '0')
    (htext : Double.writePointed digits point = whole ++ '.' :: fraction) (hwhole : whole ≠ [])
    (hdigit : ∀ c ∈ whole, c.isDigit = true) : PlainWhole whole := by
  rintro ⟨hzero, hlen⟩
  rcases Double.writePointed_head hne hhead point with ⟨places, h⟩ | h
  · obtain ⟨c, whole, rfl⟩ := List.exists_cons_of_ne_nil hwhole
    obtain ⟨c', whole, rfl⟩ : ∃ c' cs, whole = c' :: cs :=
      List.exists_cons_of_length_pos (by simpa using hlen)
    have hpoint : '.' = c' := (List.cons.inj (List.cons.inj (h.symm.trans htext)).2).1
    subst hpoint
    exact absurd (hdigit '.' (by simp)) (by decide)
  · rw [htext, List.head?_append_of_ne_nil _ hwhole] at h
    exact h hzero

/-- Whichever way a double is written, what is read behind its sign is the double. -/
theorem readMagnitude_writeRank (hrest : EndsNumber rest) :
    readMagnitude x.negative (Double.writeRank .json x.rank ++ rest) =
      some (.decimal x, rest) := by
  by_cases h0 : x.rank = 0
  · rw [Double.writeRank, if_pos h0]
    refine @readMagnitude_pointed x rest ['0'] ['0'] (List.cons_ne_nil _ _)
      (fun h => absurd h.2 (Nat.lt_irrefl 1)) (List.cons_ne_nil _ _) (Double.isDigit_zeros 2) ?_
      hrest
    rw [h0]
    exact Double.nearestRank_zero _
  obtain ⟨c, dropped, hs, hc, hrank⟩ := Double.shortest_eq .even h0
  obtain ⟨hne, hdigit, zeros, hlen, hvalue⟩ := Double.trimZeros_decimalDigits hc
  have hhead := Double.trimZeros_head hc
  generalize hpower :
    ((decimalDigits c).length : Int) + ((dropped : Int) - Double.places) - 1 = power
  have htext : Double.writeRank .json x.rank =
      if Double.Style.json.pointed power then
        Double.writePointed (Double.trimZeros (decimalDigits c)) (power + 1)
      else Double.writeScientific true (Double.trimZeros (decimalDigits c)) power := by
    rw [Double.writeRank, if_neg h0]
    simp only [show Double.Style.json.tie = .even from rfl, hs, hpower]
    rfl
  rw [htext]
  -- the digits are those of the coefficient but for the zeros it closes with
  generalize Double.trimZeros (decimalDigits c) = digits at *
  split
  · obtain ⟨whole, fraction, hpointed, hparts⟩ := Double.writePointed_pointed hne hdigit (power + 1)
    have hplain := plainWhole_of_writePointed hne hhead hpointed hparts.whole_ne_nil
      (List.forall_mem_append.1 hparts.isDigit).1
    rw [hpointed, List.append_assoc]
    refine readMagnitude_pointed hparts.whole_ne_nil hplain hparts.fraction_ne_nil hparts.isDigit ?_
      hrest
    rw [← hrank]
    refine Double.nearestRank_congr (Double.tenTo_pos _) (Double.tenTo_pos _) ?_
    exact Double.cross_eq hparts.value hvalue (by omega)
  · obtain ⟨d, ds, rfl⟩ := List.exists_cons_of_ne_nil hne
    refine readMagnitude_scientific hdigit ?_ hrest
    have hexponent : (power - ds.length).toNat + Double.places =
        zeros + dropped + (-(power - ds.length)).toNat := by
      rw [List.length_cons] at hlen
      omega
    rw [← hrank]
    refine Double.nearestRank_congr (Double.tenTo_pos _) (Double.tenTo_pos _) ?_
    exact Double.shift_eq hvalue hexponent

end

/-! ## Numbers with their sign -/

theorem digit_of_readMagnitude {negative : Bool} {cs : List Char} {r : Json × List Char}
    (h : readMagnitude negative cs = some r) : ∃ d tail, cs = d :: tail ∧ d.isDigit = true := by
  cases cs with
  | nil => exact absurd h (Option.some_ne_none r).symm
  | cons d tail =>
    refine ⟨d, tail, rfl, ?_⟩
    by_contra hd
    have hdigits : readDigits (d :: tail) = none := by
      simp [readDigits, hd]
    rw [readMagnitude, hdigits] at h
    exact absurd h (Option.some_ne_none r).symm

theorem readNumber_of_readMagnitude {cs : List Char} {r : Json × List Char}
    (h : readMagnitude false cs = some r) : readNumber cs = some r := by
  obtain ⟨d, tail, rfl, hd⟩ := digit_of_readMagnitude h
  unfold readNumber
  split
  · rename_i heq
    rw [(List.cons.inj heq).1] at hd
    exact absurd hd (by decide)
  · exact h

theorem readNumber_int (n : Int) {rest : List Char} (hrest : EndsNumber rest) :
    readNumber (putInt n rest) = some (.int n, rest) := by
  by_cases hn : n < 0
  · have htext : putInt n rest = '-' :: (decimalDigits n.natAbs ++ rest) := by
      rw [putInt, if_pos hn]
      rfl
    rw [htext, readNumber, readMagnitude_int (fun _ => by omega) hrest, if_pos rfl,
      show -(n.natAbs : Int) = n by omega]
  · have htext : putInt n rest = decimalDigits n.natAbs ++ rest := by
      rw [putInt, if_neg hn]
      rfl
    rw [htext]
    refine readNumber_of_readMagnitude ?_
    rw [@readMagnitude_int false _ (absurd · Bool.false_ne_true) rest hrest, if_neg Bool.false_ne_true,
      show (n.natAbs : Int) = n by omega]

theorem readNumber_decimal (x : Double) {rest : List Char} (hrest : EndsNumber rest) :
    readNumber ((x.write .json).toList ++ rest) = some (.decimal x, rest) := by
  have hmagnitude := readMagnitude_writeRank (x := x) hrest
  rw [Double.write, String.toList_ofList, List.append_assoc]
  cases hx : x.negative with
  | false =>
    rw [hx] at hmagnitude
    exact readNumber_of_readMagnitude hmagnitude
  | true =>
    rw [hx] at hmagnitude
    exact hmagnitude

end TermLang.Json
