import TermLang.Proofs.Brackets

/-!
# Rows of tokens

A row is a stretch of a stream, told by its two ends and by the terminals of its tokens. Rows are
put together end to end and taken apart again, and the two lookups for brackets pair the ends of a
row in brackets (`matchingClose?_of_row`, `matchingOpen?_of_row`).
-/

namespace TermLang

open Terminal (within)

namespace Stream

/-- The tokens from one index up to another have the given terminals, and none of them is the end of
the input. -/
inductive Row (s : Stream) : Nat → List Terminal → Nat → Prop
  | nil (i : Nat) : s.Row i [] i
  | cons {i j : Nat} {t : Token} {ys : List Terminal} :
      s.tokens[i]? = some t → t.kind ≠ .eof → s.Row (i + 1) ys j → s.Row i (t.terminal :: ys) j

variable {s : Stream} {i j k : Nat} {ys zs : List Terminal}

namespace Row

theorem append (h₁ : s.Row i ys j) (h₂ : s.Row j zs k) : s.Row i (ys ++ zs) k := by
  induction h₁ with
  | nil => exact h₂
  | cons ht he _ ih => exact .cons ht he (ih h₂)

theorem stop_eq (h : s.Row i ys j) : j = i + ys.length := by
  induction h with
  | nil => rfl
  | cons _ _ _ ih => rw [ih, List.length_cons]; omega

theorem split (h : s.Row i (ys ++ zs) k) : ∃ j, s.Row i ys j ∧ s.Row j zs k := by
  induction ys generalizing i with
  | nil => exact ⟨i, .nil i, h⟩
  | cons y ys ih =>
    cases h with
    | cons ht he h =>
      obtain ⟨j, h₁, h₂⟩ := ih h
      exact ⟨j, .cons ht he h₁, h₂⟩

/-- The first token of a row is there to be taken. -/
theorem takes {y : Terminal} (h : s.Row i (y :: ys) j) (d : Nat) :
    ∃ t, s.Takes ⟨i, d⟩ t ⟨i + 1, d⟩ ∧ t.terminal = y ∧ s.Row (i + 1) ys j := by
  cases h with
  | cons ht he h => exact ⟨_, ⟨ht, he, rfl⟩, rfl, h⟩

theorem takes_mark {k : Kind} (h : s.Row i (.mark k :: ys) j) (d : Nat) :
    ∃ t, s.Takes ⟨i, d⟩ t ⟨i + 1, d⟩ ∧ t.kind = k ∧ s.Row (i + 1) ys j := by
  obtain ⟨t, ht, hmark, h⟩ := h.takes d
  exact ⟨t, ht, by rw [← Word.kind_terminal, hmark, Terminal.kind_mark], h⟩

theorem takes_name {text : String} (h : s.Row i (.name text :: ys) j) (d : Nat) :
    ∃ t, s.Takes ⟨i, d⟩ t ⟨i + 1, d⟩ ∧ t.kind = .ident ∧ t.lexeme = text ∧ s.Row (i + 1) ys j := by
  obtain ⟨t, ht, hname, h⟩ := h.takes d
  obtain ⟨hk, hlexeme⟩ := Word.terminal_eq_name_iff.1 hname
  exact ⟨t, ht, hk, hlexeme, h⟩

theorem kindAt {y : Terminal} (h : s.Row i (y :: ys) j) : s.kindAt i = y.kind := by
  obtain ⟨t, ht, rfl, -⟩ := h.takes 0
  rw [Word.kind_terminal]
  exact ht.kindAt

theorem kind_ne_eof (h : s.Row i ys j) : ∀ y ∈ ys, y.kind ≠ .eof := by
  induction h with
  | nil => simp
  | cons _ he _ ih =>
    refine List.forall_mem_cons.2 ⟨?_, ih⟩
    rwa [Word.kind_terminal]

/-- The tokens of a row, and those after them. -/
theorem exists_tokens (h : s.Row i ys j) :
    ∃ row, row.map (·.terminal) = ys ∧ s.tokens.toList.drop i = row ++ s.tokens.toList.drop j := by
  induction h with
  | nil i => exact ⟨[], rfl, rfl⟩
  | @cons i j t ys ht he h ih =>
    obtain ⟨row, hrow, hdrop⟩ := ih
    refine ⟨t :: row, by rw [List.map_cons, hrow], ?_⟩
    have hi : s.tokens.toList[i]? = some t := by rw [Array.getElem?_toList, ht]
    obtain ⟨hlt, hget⟩ := List.getElem?_eq_some_iff.1 hi
    rw [List.drop_eq_getElem_cons hlt, hget, hdrop, List.cons_append]

/-- The terminals of the tokens between the ends of a row. -/
theorem terminals (h : s.Row i ys j) :
    ((s.tokens.toList.take j).drop i).map (·.terminal) = ys := by
  obtain ⟨row, hrow, hdrop⟩ := h.exists_tokens
  have hlen : row.length = j - i := by
    have := h.stop_eq
    rw [← hrow, List.length_map] at this
    omega
  rw [List.drop_take, hdrop, ← hlen, List.take_left', hrow]
  rfl

/-- A row ends inside the stream. -/
theorem stop_le (h : s.Row i ys j) (hi : i ≤ s.tokens.size) : j ≤ s.tokens.size := by
  induction h with
  | nil => exact hi
  | cons ht _ _ ih => exact ih (Array.getElem?_eq_some_iff.1 ht).1

/-- A row never passes the end of the input. -/
theorem stop_lt (h : s.Row i ys j) (hi : i < s.tokens.size)
    (he : s.kindAt (s.tokens.size - 1) = .eof) : j < s.tokens.size := by
  induction h with
  | nil => exact hi
  | @cons i j t ys ht hk _ ih =>
    have hne : i ≠ s.tokens.size - 1 := by
      rintro rfl
      exact hk (by rw [← kindAt_of_token ht, he])
    exact ih (by omega)

/-- No row goes past the end of the input. -/
theorem le_of_eof {m : Nat} (h : s.Row i ys j) (hi : i ≤ m) (he : s.kindAt m = .eof) : j ≤ m := by
  induction h with
  | nil => exact hi
  | @cons i j t ys ht hk _ ih =>
    have hne : i ≠ m := by
      rintro rfl
      exact hk (by rw [← kindAt_of_token ht, he])
    exact ih (by omega)

/-- The same tokens in another stream make up the same row. -/
theorem carry {s' : Stream} {i' : Nat} (h : s.Row i ys j) (hi : i' + k = i)
    (htokens : ∀ m, i' ≤ m → m + k < j → s'.tokens[m]? = s.tokens[m + k]?) :
    s'.Row i' ys (i' + ys.length) := by
  induction h generalizing i' with
  | nil => exact .nil _
  | @cons i j t ys ht hk h ih =>
    have hlen := h.stop_eq
    have hrest := ih (by omega : i' + 1 + k = i + 1) fun m hm => htokens m (by omega)
    rw [List.length_cons, show i' + (ys.length + 1) = i' + 1 + ys.length by omega]
    exact .cons (by rw [htokens i' (Nat.le_refl _) (by omega), hi, ht]) hk hrest

/-- Tokens that stand in a stream from an index on make up a row. -/
theorem of_tokens (row rest : List Token) (h : s.tokens.toList.drop i = row ++ rest)
    (he : ∀ t ∈ row, t.kind ≠ .eof) : s.Row i (row.map (·.terminal)) (i + row.length) := by
  induction row generalizing i with
  | nil => exact .nil i
  | cons t row ih =>
    have ht : s.tokens[i]? = some t := by
      rw [← Array.getElem?_toList, ← Nat.add_zero i, ← List.getElem?_drop, h]
      rfl
    have hdrop : s.tokens.toList.drop (i + 1) = row ++ rest := by
      rw [← List.drop_drop, h]
      rfl
    have hrow := ih hdrop fun u hu => he u (List.mem_cons_of_mem t hu)
    rw [List.length_cons, show i + (row.length + 1) = i + 1 + row.length by omega]
    exact .cons ht (he t List.mem_cons_self) hrow

end Row

/-! ## Pairing the ends of a bracketed row -/

/-- The ends of a bracketed row in brackets are a pair. -/
theorem Row.pairs {o c : Kind} (ho : o.partner? = some c) (h : s.Row i (within o c ys) (j + 1))
    (hb : Bracketed ys) : s.Pairs i j := by
  obtain ⟨hopen, hclose⟩ := Kind.bracket_of_partner? ho
  have hlen := h.stop_eq
  simp only [within, List.length_cons, List.length_append, List.length_nil] at hlen
  have hi : s.kindAt i = o := h.kindAt
  obtain ⟨-, -, -, hrest⟩ := h.takes 0
  obtain ⟨k, hinner, hlast⟩ := hrest.split
  obtain rfl : k = j := by have := hinner.stop_eq; omega
  have hj : s.kindAt k = c := hlast.kindAt
  have hkinds : s.kinds (i + 1) k = ys.map Terminal.kind := map_kind_of_map_terminal hinner.terminals
  refine ⟨by omega, hi ▸ hopen, hj ▸ hclose, hkinds ▸ hb.balanced, ?_⟩
  rw [hkinds]
  rintro hmem
  obtain ⟨y, hy, hk⟩ := List.mem_map.1 hmem
  exact hb.kind_ne_eof y hy hk

/-- The lookup from an opening bracket finds the end of the bracketed row that follows it. -/
theorem matchingClose?_of_row {o c : Kind} (ho : o.partner? = some c)
    (h : s.Row i (within o c ys) j) (hb : Bracketed ys) : s.matchingClose? i = some (j - 1) := by
  have hlen := h.stop_eq
  simp only [within, List.length_cons, List.length_append, List.length_nil] at hlen
  obtain ⟨k, rfl⟩ := Nat.exists_eq_add_of_le' (show 1 ≤ j by omega)
  have hpairs := h.pairs ho hb
  exact (matchingClose?_eq_some_iff hpairs.opening).2 hpairs

/-- The lookup from a closing bracket finds the beginning of the bracketed row before it. -/
theorem matchingOpen?_of_row {o c : Kind} (ho : o.partner? = some c)
    (h : s.Row i (within o c ys) (j + 1)) (hb : Bracketed ys) : s.matchingOpen? j = some i :=
  matchingOpen?_of_pairs (h.pairs ho hb)

end Stream

end TermLang
