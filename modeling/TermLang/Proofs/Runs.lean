import TermLang.Grammar.Program

/-!
# Successful runs

`p.Runs s c a c'` says that the parser `p`, started at the cursor `c` of the stream `s`, succeeds
with `a` and leaves the cursor at `c'`. Each basic parser has one law that says what its runs are;
`runs_bind` takes a sequence apart. A rule of the grammar is taken apart by these laws alone.
-/

namespace TermLang

/-- The token at a cursor and the cursor past it; the end of the input is never passed. -/
structure Stream.Takes (s : Stream) (c : Cursor) (t : Token) (c' : Cursor) : Prop where
  token : s.tokens[c.pos]? = some t
  kind_ne_eof : t.kind ≠ .eof
  next : c' = { c with pos := c.pos + 1 }

namespace Stream

variable {s : Stream} {c c' : Cursor} {t : Token} {i : Nat} {k : Kind}

theorem kindAt_of_token (h : s.tokens[i]? = some t) : s.kindAt i = t.kind := by
  simp [kindAt, h]

theorem exists_token_of_kindAt (h : s.kindAt i = k) (hk : k ≠ .eof) :
    ∃ t, s.tokens[i]? = some t ∧ t.kind = k := by
  unfold kindAt at h
  split at h
  · exact ⟨_, ‹_›, h⟩
  · exact absurd h.symm hk

theorem lt_size_of_kindAt (h : s.kindAt i = k) (hk : k ≠ .eof) : i < s.tokens.size :=
  Nat.lt_of_not_le fun hle => hk (h.symm.trans (kindAt_of_size_le hle))

theorem Takes.kindAt (h : s.Takes c t c') : s.kindAt c.pos = t.kind := kindAt_of_token h.token

end Stream

namespace Parse

variable {α β : Type} {s : Stream} {c c' : Cursor} {k : Kind} {rule : Rule}

/-- The parser succeeds at a cursor with a value and leaves another cursor. -/
def Runs (p : Parse α) (s : Stream) (c : Cursor) (a : α) (c' : Cursor) : Prop :=
  (p s c).result = .ok a ∧ (p s c).cursor = c'

/-- A parser has one run at most. -/
theorem Runs.unique {p : Parse α} {a b : α} {c₁ c₂ : Cursor} (h₁ : p.Runs s c a c₁)
    (h₂ : p.Runs s c b c₂) : a = b ∧ c₁ = c₂ := by
  refine ⟨?_, h₁.2.symm.trans h₂.2⟩
  exact Except.ok.inj (h₁.1.symm.trans h₂.1)

theorem runs_pure {a b : α} : (pure a : Parse α).Runs s c b c' ↔ a = b ∧ c = c' := by
  show Except.ok a = Except.ok b ∧ c = c' ↔ _
  rw [Except.ok.injEq]

theorem runs_bind {p : Parse α} {f : α → Parse β} {b : β} :
    (p >>= f).Runs s c b c' ↔ ∃ a c₁, p.Runs s c a c₁ ∧ (f a).Runs s c₁ b c' := by
  show (Parse.bind p f s c).result = .ok b ∧ (Parse.bind p f s c).cursor = c' ↔ _
  unfold Parse.bind
  cases h : (p s c).result with
  | error e => simp [Runs, h]
  | ok a => simp only [Runs, h, Except.ok.injEq, and_assoc, exists_and_left, exists_eq_left']

/-- Two sequences reply the same if their parts do. -/
theorem bind_congr {p q : Parse α} {f g : α → Parse β} (hp : p s c = q s c)
    (h : ∀ a x, p.Runs s c a x → f a s x = g a s x) : (p >>= f) s c = (q >>= g) s c := by
  show Parse.bind p f s c = Parse.bind q g s c
  simp only [Parse.bind, ← hp]
  cases hr : (p s c).result with
  | ok a =>
    have hrest : f a s (p s c).cursor = g a s (p s c).cursor := h a _ ⟨hr, rfl⟩
    simp only [hrest]
  | error e => rfl

/-! ## Looking -/

theorem runs_cursor {a : Cursor} : cursor.Runs s c a c' ↔ c = a ∧ c = c' := by
  simp [Runs, cursor]

theorem runs_current {a : Option Token} :
    current.Runs s c a c' ↔ s.tokens[c.pos]? = a ∧ c = c' := by
  simp [Runs, current]

theorem runs_nthKind {n : Nat} :
    (nthKind n).Runs s c k c' ↔ s.kindAt (c.pos + n) = k ∧ c = c' := by
  simp [Runs, nthKind]

theorem runs_kind : kind.Runs s c k c' ↔ s.kindAt c.pos = k ∧ c = c' := runs_nthKind

theorem runs_kindAt {i : Nat} : (kindAt i).Runs s c k c' ↔ s.kindAt i = k ∧ c = c' := by
  simp [Runs, kindAt]

theorem runs_at? {b : Bool} :
    (at? k).Runs s c b c' ↔ decide (s.kindAt c.pos = k) = b ∧ c = c' := by
  simp only [at?, runs_bind, runs_kind, runs_pure]
  constructor
  · rintro ⟨_, _, ⟨rfl, rfl⟩, h⟩; exact h
  · rintro h; exact ⟨_, _, ⟨rfl, rfl⟩, h⟩

theorem runs_remaining {n : Nat} :
    remaining.Runs s c n c' ↔ s.remaining c.pos = n ∧ c = c' := by
  simp [Runs, remaining]

theorem runs_matchingClose? {a : Option Nat} :
    matchingClose?.Runs s c a c' ↔ s.matchingClose? c.pos = a ∧ c = c' := by
  simp [Runs, matchingClose?]

theorem runs_openingBefore? {last : Nat} (h : c.pos = last + 1) {a : Option Nat} :
    openingBefore?.Runs s c a c' ↔ s.matchingOpen? last = a ∧ c = c' := by
  have he : openingBefore? s c = { result := .ok (s.matchingOpen? last), cursor := c } := by
    rw [openingBefore?]
    simp only [h]
  simp [Runs, he]

/-! ## Moving -/

theorem runs_restore {saved : Cursor} {u : Unit} :
    (restore saved).Runs s c u c' ↔ saved = c' := by
  simp [Runs, restore]

theorem runs_seek {i : Nat} {u : Unit} :
    (seek i).Runs s c u c' ↔ { c with pos := min i s.tokens.size } = c' := by
  simp [Runs, seek]

theorem runs_note {n : Note} {u : Unit} : (note n).Runs s c u c' ↔ c = c' := by
  simp [Runs, note]

/-- Bumping at a token of a known kind, other than the end of the input, takes it. -/
theorem runs_bump (hk : s.kindAt c.pos = k) (he : k ≠ .eof) {u : Unit} :
    bump.Runs s c u c' ↔ ∃ t, s.Takes c t c' ∧ t.kind = k := by
  obtain ⟨t, ht, hkt⟩ := Stream.exists_token_of_kindAt hk he
  have hne : s.kindAt c.pos ≠ .eof := by rw [hk]; exact he
  constructor
  · rintro ⟨-, h⟩
    rw [bump, if_neg hne] at h
    exact ⟨t, ⟨ht, by rw [hkt]; exact he, h.symm⟩, hkt⟩
  · rintro ⟨u, hu, -⟩
    refine ⟨rfl, ?_⟩
    rw [bump, if_neg hne]
    exact hu.next.symm

/-- Skipping takes a token of the kind, or moves nowhere if there is none. -/
theorem runs_skip (he : k ≠ .eof) {b : Bool} :
    (skip k).Runs s c b c' ↔
      (∃ t, s.Takes c t c' ∧ t.kind = k) ∧ b = true ∨
        s.kindAt c.pos ≠ k ∧ b = false ∧ c = c' := by
  simp only [skip, runs_bind, runs_at?]
  constructor
  · rintro ⟨_, _, ⟨rfl, rfl⟩, h⟩
    by_cases hk : s.kindAt c.pos = k
    · simp only [hk, decide_true, if_true, runs_bind, runs_bump hk he, runs_pure] at h
      obtain ⟨_, _, ht, rfl, rfl⟩ := h
      exact .inl ⟨ht, rfl⟩
    · simp only [hk, decide_false, Bool.false_eq_true, if_false, runs_pure] at h
      exact .inr ⟨hk, h.1.symm, h.2⟩
  · rintro (⟨⟨t, ht, hk⟩, rfl⟩ | ⟨hk, rfl, rfl⟩)
    · have hk' : s.kindAt c.pos = k := by rw [ht.kindAt, hk]
      refine ⟨_, _, ⟨rfl, rfl⟩, ?_⟩
      simp only [hk', decide_true, if_true, runs_bind, runs_bump hk' he, runs_pure]
      exact ⟨(), c', ⟨t, ht, hk⟩, trivial, rfl⟩
    · refine ⟨_, _, ⟨rfl, rfl⟩, ?_⟩
      simp only [hk, decide_false, Bool.false_eq_true, if_false, runs_pure, and_self]

/-! ## Failing and expecting -/

theorem not_runs_reject {a : α} {expected : List Kind} :
    ¬ (reject rule expected : Parse α).Runs s c a c' := by
  simp [Runs, reject]

theorem runs_expect (he : k ≠ .eof) {t : Token} :
    (expect k rule).Runs s c t c' ↔ s.Takes c t c' ∧ t.kind = k := by
  simp only [expect, runs_bind, runs_current]
  constructor
  · rintro ⟨_, _, ⟨rfl, rfl⟩, h⟩
    split at h
    · rename_i t' ht
      split at h
      · rename_i hk
        simp only [runs_bind, runs_bump (Stream.kindAt_of_token ht) (hk ▸ he), runs_pure] at h
        obtain ⟨-, _, ⟨u, hu, -⟩, rfl, rfl⟩ := h
        exact ⟨⟨ht, by rw [hk]; exact he, hu.next⟩, hk⟩
      · exact absurd h not_runs_reject
    · exact absurd h not_runs_reject
  · rintro ⟨ht, hk⟩
    refine ⟨_, _, ⟨rfl, rfl⟩, ?_⟩
    simp only [ht.token, hk, if_true, runs_bind, runs_bump (ht.kindAt.trans hk) he, runs_pure]
    exact ⟨(), c', ⟨t, ht, hk⟩, trivial, rfl⟩

theorem runs_expectIdent {name : String} :
    (expectIdent rule).Runs s c name c' ↔
      ∃ t, s.Takes c t c' ∧ t.kind = .ident ∧ t.lexeme = name := by
  simp only [expectIdent, runs_bind, runs_expect (by decide : Kind.ident ≠ .eof), runs_pure]
  constructor
  · rintro ⟨t, _, ⟨ht, hk⟩, hn, rfl⟩; exact ⟨t, ht, hk, hn⟩
  · rintro ⟨t, ht, hk, hn⟩; exact ⟨t, c', ⟨ht, hk⟩, hn, rfl⟩

/-- The end of the input is expected without being passed. -/
theorem runs_expect_eof {t : Token} :
    (expect .eof rule).Runs s c t c' ↔
      s.tokens[c.pos]? = some t ∧ t.kind = .eof ∧ c = c' := by
  simp only [expect, runs_bind, runs_current]
  constructor
  · rintro ⟨_, _, ⟨rfl, rfl⟩, h⟩
    split at h
    · rename_i t' ht
      split at h
      · rename_i hk
        simp only [runs_bind, runs_pure] at h
        obtain ⟨-, _, ⟨-, hc⟩, rfl, rfl⟩ := h
        rw [bump, Stream.kindAt_of_token ht, if_pos hk] at hc
        exact ⟨ht, hk, hc⟩
      · exact absurd h not_runs_reject
    · exact absurd h not_runs_reject
  · rintro ⟨ht, hk, rfl⟩
    refine ⟨_, _, ⟨rfl, rfl⟩, ?_⟩
    simp only [ht, hk, if_true, runs_bind, runs_pure]
    refine ⟨(), c, ⟨rfl, ?_⟩, trivial, rfl⟩
    rw [bump, Stream.kindAt_of_token ht, if_pos hk]

/-! ## Nesting and speculation -/

theorem runs_descend {u : Unit} :
    descend.Runs s c u c' ↔ c.depth < s.maxDepth ∧ { c with depth := c.depth + 1 } = c' := by
  by_cases h : s.maxDepth ≤ c.depth
  · simp [Runs, descend, h, Nat.not_lt.2 h]
  · simp [Runs, descend, h, Nat.not_le.1 h]

theorem runs_ascend {u : Unit} :
    ascend.Runs s c u c' ↔ { c with depth := c.depth - 1 } = c' := by
  simp [Runs, ascend]

/-- A speculation that is not taken back is a run; one that is taken back moves nowhere. -/
theorem runs_speculate {p : Parse α} {a : Option α} (h : (speculate p).Runs s c a c') :
    (∃ b, a = some b ∧ p.Runs s c b c') ∨ a = none ∧ c = c' := by
  unfold Runs speculate at h
  dsimp only at h
  split at h
  · rename_i b hb
    exact .inl ⟨b, by simpa using h.1.symm, hb, h.2⟩
  · split at h
    · simp at h
    · exact .inr ⟨by simpa using h.1.symm, h.2⟩

end Parse

end TermLang
