/-!
# Sets of code points given by ranges

A set of characters is written as an ascending list of closed ranges of code points.
-/

namespace TermLang.Text

/-- A closed range of code points. -/
abbrev Range := Nat × Nat

/-- The character lies in one of the ranges. -/
def inRanges (ranges : List Range) (c : Char) : Bool :=
  ranges.any fun (low, high) => low ≤ c.toNat && c.toNat ≤ high

theorem inRanges_iff {ranges : List Range} {c : Char} :
    inRanges ranges c = true ↔ ∃ r ∈ ranges, r.1 ≤ c.toNat ∧ c.toNat ≤ r.2 := by
  simp [inRanges]

/-- Each range is nonempty and begins after the one before it ended. -/
def ascending : List Range → Bool
  | [] => true
  | [(low, high)] => low ≤ high
  | (low, high) :: (low', high') :: rest =>
    low ≤ high && high < low' && ascending ((low', high') :: rest)

end TermLang.Text
