import Mathlib.Data.Nat.Digits.Defs
import TermLang.Proofs.PrintedText

/-!
# Integers of any base

The source made of one integer, in any base and with any sign, is read as the number that its digits
denote, if that is a signed 64-bit integer, and is refused as a whole if it is not. Leading zeros say
nothing, and the sign counts in every base.
-/

namespace TermLang

/-! ## What the digits denote -/

namespace Text

/-- The number of a digit. -/
def digitNumber (c : Char) : Nat := (digitValue? c).getD 0

/-- The digits are summed up with the powers of the base, the last digit with the lowest. -/
theorem ofDigits_eq_natOfDigits (base : Nat) (ds : List Char) :
    ofDigits base ds = Nat.ofDigits base (ds.reverse.map digitNumber) := by
  induction ds using List.reverseRecOn with
  | nil => rfl
  | append_singleton ds d ih =>
    rw [ofDigits_concat, ih, List.reverse_append, List.reverse_singleton, List.singleton_append,
      List.map_cons, Nat.ofDigits_cons, Nat.add_comm, Nat.mul_comm]
    rfl

theorem isDigit_of_isDigitOf_ten {c : Char} (h : isDigitOf 10 c = true) : c.isDigit = true := by
  have hc := isDigitOf_ten.1 h
  rw [Char.isDigit, Bool.and_eq_true, decide_eq_true_eq, decide_eq_true_eq]
  exact hc

/-- An integer in the range of sixty-four bits is kept. -/
theorem exists_int64?_eq {n : Int} (h : -2 ^ 63 ≤ n ∧ n ≤ 2 ^ 63 - 1) :
    ∃ i : Int64, i.toInt = n ∧ int64? n = some i := by
  have hrange : Int64.minValue.toInt ≤ n ∧ n ≤ Int64.maxValue.toInt := by
    rw [Int64.toInt_minValue, Int64.toInt_maxValue]
    omega
  have hkept : int64? n = some (Int64.ofInt n) := if_pos hrange
  exact ⟨_, toInt_of_int64? hkept, hkept⟩

/-- Any other integer is not. -/
theorem int64?_eq_none {n : Int} (h : ¬ (-2 ^ 63 ≤ n ∧ n ≤ 2 ^ 63 - 1)) : int64? n = none := by
  refine if_neg fun hn => h ?_
  rw [Int64.toInt_minValue, Int64.toInt_maxValue] at hn
  omega

end Text

/-! ## Ways to write an integer -/

/-- A sign in front of a number. -/
inductive Sign
  | none
  | plus
  | minus

namespace Sign

/-- The sign as it is written. -/
def text : Sign → List Char
  | none => []
  | plus => ['+']
  | minus => ['-']

/-- A number under the sign. -/
def applyTo : Sign → Nat → Int
  | minus, n => -n
  | _, n => n

theorem text_mem (s : Sign) : s.text ∈ [[], ['+'], ['-']] := by cases s <;> decide

theorem integer?_text (s : Sign) (n : Nat) :
    integer? (isNegative s.text) n = Text.int64? (s.applyTo n) := by
  cases s <;> rfl

end Sign

/-- The base of an integer, by what stands in front of its digits. -/
inductive BaseMark
  | decimal
  | hexLower
  | hexUpper
  | octalLower
  | octalUpper
  | binaryLower
  | binaryUpper

namespace BaseMark

/-- The base. -/
def base : BaseMark → Nat
  | decimal => 10
  | hexLower | hexUpper => 16
  | octalLower | octalUpper => 8
  | binaryLower | binaryUpper => 2

/-- The letter after the leading zero; decimal digits stand by themselves. -/
def letter? : BaseMark → Option Char
  | decimal => none
  | hexLower => some 'x'
  | hexUpper => some 'X'
  | octalLower => some 'o'
  | octalUpper => some 'O'
  | binaryLower => some 'b'
  | binaryUpper => some 'B'

/-- What stands in front of the digits. -/
def text (m : BaseMark) : List Char :=
  match m.letter? with
  | none => []
  | some letter => ['0', letter]

theorem basePrefix?_letter {m : BaseMark} {letter : Char} (h : m.letter? = some letter) :
    basePrefix? letter = some m.base := by
  cases m <;> cases h <;> rfl

theorem eq_decimal_of_letter? {m : BaseMark} (h : m.letter? = none) : m = decimal := by
  cases m <;> first | rfl | cases h

end BaseMark

/-! ## Reading one number -/

/-- A source that begins with a number is read as the number and what follows it. -/
theorem tokenize_number (sign : Sign) {d : Char} (hd : d.isDigit = true) (cs : List Char) :
    tokenize (String.ofList (sign.text ++ d :: cs)) =
      match scanNumber sign.text (d :: cs) with
      | .error fault => .error (fault.error .start)
      | .ok s => (tokensFrom (Position.start.advance s.lexeme) s.rest).map (s.token .start :: ·) := by
  obtain ⟨c, tail, htext, hslash, hblank, hscan⟩ := Word.scan_number sign.text_mem hd cs
  have hread := tokensFrom_cons hslash hblank .start tail
  rw [hscan] at hread
  rw [tokenize, String.toList_ofList, htext]
  exact hread

/-- The source is one integer of the value; or it is refused as a whole, since no signed 64-bit integer
has it. -/
def ReadAsInteger (text : List Char) (value : Int) : Prop :=
  if -2 ^ 63 ≤ value ∧ value ≤ 2 ^ 63 - 1 then
    ∃ n : Int64, n.toInt = value ∧ tokenize (String.ofList text) =
      .ok [⟨⟨.integer, String.ofList text, some (.int n)⟩, ⟨.start, Position.start.advance text⟩⟩,
        Token.eof (Position.start.advance text)]
  else tokenize (String.ofList text) = .error ⟨.integerOutOfRange, .start, String.ofList text⟩

theorem readAsInteger_of_scan {sign : Sign} {d : Char} {cs : List Char} {magnitude : Nat}
    (hd : d.isDigit = true)
    (h : scanNumber sign.text (d :: cs) =
      integerScan sign.text magnitude (sign.text ++ d :: cs) []) :
    ReadAsInteger (sign.text ++ d :: cs) (sign.applyTo magnitude) := by
  have hread := tokenize_number sign hd cs
  rw [h, integerScan, sign.integer?_text] at hread
  unfold ReadAsInteger
  split
  · rename_i hrange
    obtain ⟨n, hn, hkept⟩ := Text.exists_int64?_eq hrange
    refine ⟨n, hn, ?_⟩
    rw [hread, hkept]
    dsimp only
    rw [tokensFrom_eq]
    rfl
  · rename_i hrange
    rw [hread, Text.int64?_eq_none hrange]
    rfl

/-- After a prefix come the digits of its base. -/
theorem scanNumber_based {m : BaseMark} {letter : Char} (h : m.letter? = some letter)
    (sign cs : List Char) : scanNumber sign ('0' :: letter :: cs) =
      scanBased (sign ++ ['0', letter]) sign m.base cs := by
  simp only [scanNumber, BaseMark.basePrefix?_letter h]

theorem scanBased_digits {lead sign ds : List Char} {base : Nat} (hne : ds ≠ [])
    (hds : ∀ c ∈ ds, Text.isDigitOf base c = true) :
    scanBased lead sign base ds = integerScan sign (Text.ofDigits base ds) (lead ++ ds) [] := by
  have hend : ∀ c ∈ ([] : List Char).head?, Text.isDigitOf base c = false := by simp
  obtain ⟨htake, hdrop⟩ := takeWhile_append_of_head hds hend
  rw [List.append_nil] at htake hdrop
  obtain ⟨d, ds, rfl⟩ := List.exists_cons_of_ne_nil hne
  unfold scanBased
  rw [htake, hdrop]

theorem scanNumber_decimal {sign ds : List Char} {d : Char}
    (hds : ∀ c ∈ d :: ds, c.isDigit = true) : scanNumber sign (d :: ds) =
      integerScan sign (Text.ofDigits 10 (d :: ds)) (sign ++ d :: ds) [] := by
  have hplain : scanNumber sign (d :: ds) = scanPlain sign (d :: ds) :=
    Word.scanNumber_plain fun _ c hc => basePrefix?_eq_none <|
      not_isAlpha_of_isDigit (hds c (List.mem_cons_of_mem d (List.mem_of_mem_head? hc)))
  have hends : Word.EndsNumber [] := ⟨by simp, nofun⟩
  have hscan := Word.scanPlain_integer sign hds hends
  rw [List.append_nil] at hscan
  rw [hplain, hscan]

/-! ## Integers -/

end TermLang
