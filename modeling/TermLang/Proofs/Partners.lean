import TermLang.Proofs.ReadingTerms

/-!
# Brackets and their partners

The parser pairs brackets by their kinds, the lookups of a stream by counting all shapes alike. On any
tokens the lookup forward finds exactly the bracket with a balanced row before it, and the lookup backward
undoes it. Among the tokens that a term is read from, where the parser closes every bracket by its own
kind, the two ways of pairing agree.
-/

namespace TermLang

namespace Stream

/-- Between two indices every bracket that opens is closed by its own kind, and every one that closes was
opened by it; the lookup from the one finds the other. -/
structure Partnered (s : Stream) (i j : Nat) : Prop where
  closed : ∀ m, i ≤ m → m < j → (s.kindAt m).bracket = .opening → ∃ n, m < n ∧ n < j ∧
    (s.kindAt m).partner? = some (s.kindAt n) ∧ s.matchingClose? m = some n
  opened : ∀ n, i ≤ n → n < j → (s.kindAt n).bracket = .closing → ∃ m, i ≤ m ∧ m < n ∧
    (s.kindAt m).partner? = some (s.kindAt n) ∧ s.matchingClose? m = some n

variable {s : Stream} {i j k : Nat}

namespace Partnered

theorem refl (s : Stream) (i : Nat) : s.Partnered i i :=
  ⟨fun _ h₁ h₂ => absurd h₁ (Nat.not_le.2 h₂), fun _ h₁ h₂ => absurd h₁ (Nat.not_le.2 h₂)⟩

theorem append (h₁ : s.Partnered i j) (h₂ : s.Partnered j k) (hij : i ≤ j) (hjk : j ≤ k) :
    s.Partnered i k := by
  constructor
  · intro m hi hk hb
    by_cases hm : m < j
    · obtain ⟨n, hmn, hn, hpartner, hclose⟩ := h₁.closed m hi hm hb
      exact ⟨n, hmn, by omega, hpartner, hclose⟩
    · exact h₂.closed m (by omega) hk hb
  · intro n hi hk hb
    by_cases hn : n < j
    · exact h₁.opened n hi hn hb
    · obtain ⟨m, hm, hmn, hpartner, hclose⟩ := h₂.opened n (by omega) hk hb
      exact ⟨m, by omega, hmn, hpartner, hclose⟩

/-- A token that is no bracket. -/
theorem plain (h : (s.kindAt i).bracket = .neither) : s.Partnered i (i + 1) := by
  constructor
  · intro m hi hj hb
    obtain rfl : m = i := by omega
    exact nomatch h.symm.trans hb
  · intro n hi hj hb
    obtain rfl : n = i := by omega
    exact nomatch h.symm.trans hb

/-- A pair of one kind, and what stands between. -/
theorem enclose (h : s.Partnered (i + 1) j) (hpairs : s.Pairs i j)
    (hpartner : (s.kindAt i).partner? = some (s.kindAt j)) : s.Partnered i (j + 1) := by
  have hclose := (matchingClose?_eq_some_iff hpairs.opening).2 hpairs
  have hlt := hpairs.lt
  constructor
  · intro m hi hj hb
    obtain rfl | hi := Nat.eq_or_lt_of_le hi
    · exact ⟨j, hlt, by omega, hpartner, hclose⟩
    · have hne : m ≠ j := by
        rintro rfl
        exact nomatch hpairs.closing.symm.trans hb
      obtain ⟨n, hmn, hn, hrest⟩ := h.closed m hi (by omega) hb
      exact ⟨n, hmn, by omega, hrest⟩
  · intro n hi hj hb
    by_cases hn : n = j
    · subst hn
      exact ⟨i, Nat.le_refl i, hlt, hpartner, hclose⟩
    · have hne : n ≠ i := by
        rintro rfl
        exact nomatch hpairs.opening.symm.trans hb
      obtain ⟨m, hm, hmn, hrest⟩ := h.opened n (by omega) (by omega) hb
      exact ⟨m, by omega, hmn, hrest⟩

end Partnered

/-- The parser's pairs are those of the lookups. -/
theorem Row.partnered {ys : List Terminal} (hb : Bracketed ys) (h : s.Row i ys j) :
    s.Partnered i j := by
  induction hb generalizing i j with
  | nil =>
    cases h
    exact .refl s i
  | @plain y ys hy _ _ ih =>
    have hk := h.kindAt
    obtain ⟨-, -, -, hrest⟩ := h.takes 0
    have hstop := hrest.stop_eq
    exact (Partnered.plain (hk ▸ hy)).append (ih hrest) (by omega) (by omega)
  | @pair o c inner ys hp hinner _ ihi ihy =>
    -- the pair opens at `i` and closes at `l`, and the rest of the row is behind it
    obtain ⟨k, hpair, hrest⟩ := h.split
    have hstop := hrest.stop_eq
    have hlen := hpair.stop_eq
    simp only [Terminal.within, List.length_cons, List.length_append, List.length_nil] at hlen
    obtain ⟨k, rfl⟩ := Nat.exists_eq_add_of_le' (show 1 ≤ k by omega)
    obtain ⟨-, -, -, hbehind⟩ := hpair.takes 0
    obtain ⟨l, hmid, hlast⟩ := hbehind.split
    obtain rfl : l = k := by have := hmid.stop_eq; omega
    have hpartner : (s.kindAt i).partner? = some (s.kindAt l) := by
      rw [hpair.kindAt, hlast.kindAt]
      exact hp
    exact ((ihi hmid).enclose (hpair.pairs hp hinner) hpartner).append (ihy hrest) (by omega)
      (by omega)

end Stream

/-- From an opening bracket the lookup forward finds the closing one that it is paired with when all
shapes are counted alike, and nothing if there is none before the end of the input; the lookup backward
returns from there. Of the tokens that any reading of a term takes, every bracket is closed by its own
kind among them, and the lookup forward finds just that one. -/
theorem lookups_pair :
    (∀ (s : Stream) (i : Nat), (s.kindAt i).bracket = .opening →
      (∀ j, s.matchingClose? i = some j ↔ s.Pairs i j) ∧
      ∀ j, s.matchingClose? i = some j → s.matchingOpen? j = some i) ∧
    (∀ (s : Stream) (r : Restrictions) (c : Cursor) (t : Term) (c' : Cursor),
      (Grammar.term r).Runs s c t c' → s.Partnered c.pos c'.pos) := by
  constructor
  · intro s i hb
    have hpairs : ∀ j, s.matchingClose? i = some j ↔ s.Pairs i j := fun j =>
      Stream.matchingClose?_eq_some_iff hb
    exact ⟨hpairs, fun j hclose => Stream.matchingOpen?_of_pairs ((hpairs j).1 hclose)⟩
  · intro s r c t c' h
    exact (Grammar.term_reads r h).row.partnered t.bracketed

/-! A colon ends the term; the brackets behind it are of two kinds. -/

/-- `f(a[b]): (]` -/
def colonStream : Stream :=
  ⟨([.ident, .parenOpen, .ident, .bracketOpen, .ident, .bracketClose, .parenClose, .colon,
    .parenOpen, .bracketClose].map fun k => Token.ofWord (.ofKind k)).toArray, 5⟩

theorem lookups_pair_colon :
    (colonStream.kindAt 8).bracket = .opening ∧ colonStream.matchingClose? 8 = some 9 ∧
    colonStream.Pairs 8 9 ∧ colonStream.matchingOpen? 9 = some 8 ∧
    (∃ t, (Grammar.term .free).Runs colonStream .start t ⟨7, 0⟩) ∧ colonStream.Partnered 0 7 := by
  have hb : (colonStream.kindAt 8).bracket = .opening := rfl
  have hclose : colonStream.matchingClose? 8 = some 9 := rfl
  have hrun : (Grammar.term .free).Runs colonStream .start (.apply .positional (.ident "")
      [.positional (.apply .implicit (.ident "") [.positional (.ident "")])]) ⟨7, 0⟩ := ⟨rfl, rfl⟩
  have h := lookups_pair.1 colonStream 8 hb
  exact ⟨hb, hclose, (h.1 9).1 hclose, h.2 9 hclose, ⟨_, hrun⟩,
    lookups_pair.2 colonStream .free .start _ _ hrun⟩

end TermLang
