import TermLang.Decimal.Rounding

/-!
# The shortest decimal of a double

Since `2 ^ -1074 = 5 ^ 1074 * 10 ^ -1074`, every finite magnitude has an exact decimal expansion
with 1074 places. The shortest decimal keeps the fewest leading digits of it, rounded down or up,
such that the double nearest to the result is the number itself; of two such results it is the
nearer one. With no digit dropped the expansion is exact, so there always is a result.
-/

namespace TermLang.Double

/-- Which of two equally near decimals is taken. -/
inductive Tie
  | even
  | up
deriving DecidableEq, Repr

/-- A decimal magnitude, `coefficient * 10 ^ exponent`. -/
structure Decimal where
  coefficient : Nat
  exponent : Int
deriving DecidableEq, Repr

/-- The exact expansion of a magnitude, as a multiple of `10 ^ -1074`. -/
def expansion (rank : Nat) : Nat := Nat.pow 5 places * units rank

/-- The decimal `coefficient * 10 ^ (dropped - 1074)` reads back as the magnitude of the rank. -/
def readsBack (rank coefficient dropped : Nat) : Bool :=
  nearestRank (coefficient * tenTo dropped) (tenTo places) == rank

/-- The nearer of two neighbours on a decimal grid, for twice the distance to the lower one. -/
def nearer (tie : Tie) (step twice below : Nat) : Nat :=
  if twice < step then below
  else if step < twice then below + 1
  else match tie with
    | .even => below + below % 2
    | .up => below + 1

/-- The expansion with so many digits dropped and rounded either way, if one reads back. -/
def shortened? (tie : Tie) (rank dropped : Nat) : Option Nat :=
  let step := tenTo dropped
  let below := expansion rank / step
  if readsBack rank below dropped then
    if readsBack rank (below + 1) dropped then
      some (nearer tie step (2 * (expansion rank % step)) below)
    else some below
  else if readsBack rank (below + 1) dropped then some (below + 1)
  else none

/-- The shortest form with at most so many digits dropped, among those that there are and the full
expansion: coefficient and digits dropped. -/
def shortestFrom (short? : Nat → Option Nat) (full : Nat) : Nat → Nat × Nat
  | 0 => (full, 0)
  | dropped + 1 =>
    match short? (dropped + 1) with
    | some coefficient => (coefficient, dropped + 1)
    | none => shortestFrom short? full dropped

/-- The shortest decimal of a magnitude. -/
def shortest (tie : Tie) (rank : Nat) : Decimal :=
  let count := (Text.decimalDigits (expansion rank)).length
  let (coefficient, dropped) := shortestFrom (shortened? tie rank) (expansion rank) (count - 1)
  ⟨coefficient, (dropped : Int) - places⟩

theorem nearer_eq (tie : Tie) (step twice below : Nat) :
    nearer tie step twice below = below ∨ nearer tie step twice below = below + 1 := by
  unfold nearer
  split
  · exact .inl rfl
  · split
    · exact .inr rfl
    · cases tie with
      | even => rcases Nat.mod_two_eq_zero_or_one below with h | h <;> simp [h]
      | up => exact .inr rfl

theorem readsBack_of_shortened? {tie : Tie} {rank dropped c : Nat}
    (h : shortened? tie rank dropped = some c) : readsBack rank c dropped = true := by
  simp only [shortened?] at h
  generalize expansion rank / tenTo dropped = below at h
  split at h
  · rename_i hb
    split at h
    · rename_i ha
      rw [Option.some.injEq] at h
      rcases nearer_eq tie (tenTo dropped) (2 * (expansion rank % tenTo dropped)) below with e | e
      · rw [← h, e]; exact hb
      · rw [← h, e]; exact ha
    · rw [Option.some.injEq] at h; rw [← h]; exact hb
  · split at h
    · rename_i ha
      rw [Option.some.injEq] at h; rw [← h]; exact ha
    · simp at h

end TermLang.Double
