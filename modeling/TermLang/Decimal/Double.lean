/-!
# Finite binary64 numbers

The magnitudes that a binary64 number can have, in ascending order, are numbered from zero. All of
them are multiples of `2 ^ -1074`, so a magnitude is known by its number of such units: below
`2 ^ 52` the rank itself, above that fifty-three leading bits shifted by the binade.
-/

namespace TermLang

/-- The number of magnitudes in a binade, two to the power fifty-two. -/
def binadeSize : Nat := 0x10000000000000

/-- A finite binary64 number, by its sign and the rank of its magnitude. -/
structure Double where
  negative : Bool
  rank : Nat
  rank_lt : rank < 2047 * binadeSize
deriving DecidableEq, Repr

namespace Double

/-- The least positive magnitude is two to the power minus this, and so has this many decimal
places. -/
def places : Nat := 1074

/-- The magnitude of a rank, in units of the least positive magnitude. -/
def units (rank : Nat) : Nat :=
  if rank < binadeSize then rank
  else (binadeSize + rank % binadeSize) <<< (rank / binadeSize - 1)

/-- Positive zero. -/
def zero : Double := ⟨false, 0, by decide⟩

instance : Inhabited Double := ⟨zero⟩

@[simp] theorem units_zero : units 0 = 0 := rfl

theorem units_pos {rank : Nat} (h : 0 < rank) : 0 < units rank := by
  unfold units
  split
  · exact h
  · rw [Nat.shiftLeft_eq]
    exact Nat.mul_pos (Nat.add_pos_left (by decide) _) (Nat.two_pow_pos _)

end Double

end TermLang
