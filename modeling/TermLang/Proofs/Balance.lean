import TermLang.Proofs.Runs

/-!
# Balanced rows

Brackets of every shape counted alike, a row is balanced if it closes as many as it opens and no
beginning of it closes more. The lookups of a stream are loops that count; here they are told by rows.
Both come over a row with the difference of its brackets (`closeIn_sinks`, `openIn_sinks`), so the lookup
forward finds exactly the bracket behind the balanced row that follows (`matchingClose?_eq_some_iff`), and
the lookup backward finds the way back (`matchingOpen?_of_pairs`).
-/

namespace TermLang

/-- The number of opening brackets in a row. -/
def openings (ks : List Kind) : Nat := ks.countP (·.bracket = .opening)

/-- The number of closing brackets in a row. -/
def closings (ks : List Kind) : Nat := ks.countP (·.bracket = .closing)

/-- The row closes `n` brackets more than it opens, and no beginning of it closes more than that. -/
structure Sinks (n : Nat) (ks : List Kind) : Prop where
  closings_le : ∀ start, start <+: ks → closings start ≤ openings start + n
  closings_eq : closings ks = openings ks + n

/-- The row closes as many brackets as it opens, and no beginning of it closes more than it opens. -/
def Balanced (ks : List Kind) : Prop := Sinks 0 ks

/-- The end of the input is no bracket. -/
theorem Kind.ne_eof_of_bracket {k : Kind} {b : Bracket} (h : k.bracket = b) (hb : b ≠ .neither) :
    k ≠ .eof := by
  rintro rfl
  exact hb h.symm

section

variable {k : Kind} {ks : List Kind} {n : Nat}

theorem openings_cons : openings (k :: ks) = openings ks + if k.bracket = .opening then 1 else 0 := by
  simp [openings, List.countP_cons]

theorem closings_cons : closings (k :: ks) = closings ks + if k.bracket = .closing then 1 else 0 := by
  simp [closings, List.countP_cons]

theorem sinks_nil : Sinks n [] ↔ n = 0 := by
  constructor
  · intro h
    have := h.closings_eq
    simpa [openings, closings] using this.symm
  · rintro rfl
    exact ⟨fun start h => by rw [List.prefix_nil.1 h]; exact Nat.le_refl 0, rfl⟩

/-- What holds of every beginning of a row holds of the empty one, and of the first kind in front of
every beginning of the rest. -/
theorem sinks_cons : Sinks n (k :: ks) ↔
    (∀ start, start <+: ks → closings (k :: start) ≤ openings (k :: start) + n) ∧
      closings (k :: ks) = openings (k :: ks) + n := by
  constructor
  · intro h
    exact ⟨fun start hs => h.closings_le _ (List.cons_prefix_cons.2 ⟨rfl, hs⟩), h.closings_eq⟩
  · rintro ⟨hle, heq⟩
    refine ⟨fun start hs => ?_, heq⟩
    obtain rfl | ⟨start, rfl, hrest⟩ := List.prefix_cons_iff.1 hs
    · exact Nat.zero_le _
    · exact hle start hrest

theorem sinks_opening (h : k.bracket = .opening) : Sinks n (k :: ks) ↔ Sinks (n + 1) ks := by
  have hcount : ∀ l, closings (k :: l) = closings l ∧ openings (k :: l) = openings l + 1 := fun l => by
    rw [closings_cons, openings_cons, h]
    exact ⟨rfl, rfl⟩
  simp only [sinks_cons, hcount]
  exact ⟨fun ⟨hle, heq⟩ => ⟨fun l hl => by have := hle l hl; omega, by omega⟩,
    fun h => ⟨fun l hl => by have := h.closings_le l hl; omega, by have := h.closings_eq; omega⟩⟩

theorem sinks_plain (h : k.bracket = .neither) : Sinks n (k :: ks) ↔ Sinks n ks := by
  have hcount : ∀ l, closings (k :: l) = closings l ∧ openings (k :: l) = openings l := fun l => by
    rw [closings_cons, openings_cons, h]
    exact ⟨rfl, rfl⟩
  simp only [sinks_cons, hcount]
  exact ⟨fun ⟨hle, heq⟩ => ⟨hle, heq⟩, fun h => ⟨h.closings_le, h.closings_eq⟩⟩

theorem sinks_closing (h : k.bracket = .closing) : Sinks n (k :: ks) ↔ ∃ m, n = m + 1 ∧ Sinks m ks := by
  have hcount : ∀ l, closings (k :: l) = closings l + 1 ∧ openings (k :: l) = openings l := fun l => by
    rw [closings_cons, openings_cons, h]
    exact ⟨rfl, rfl⟩
  simp only [sinks_cons, hcount]
  constructor
  · rintro ⟨hle, heq⟩
    have hfirst := hle [] List.nil_prefix
    obtain ⟨m, rfl⟩ := Nat.exists_eq_add_of_le' (show 1 ≤ n by simpa [closings, openings] using hfirst)
    exact ⟨m, rfl, fun l hl => by have := hle l hl; omega, by omega⟩
  · rintro ⟨m, rfl, h⟩
    exact ⟨fun l hl => by have := h.closings_le l hl; omega, by have := h.closings_eq; omega⟩

theorem Sinks.append {m : Nat} {ls : List Kind} (hk : Sinks n ks) (hl : Sinks m ls) :
    Sinks (n + m) (ks ++ ls) := by
  induction ks generalizing n with
  | nil =>
    obtain rfl := sinks_nil.1 hk
    rwa [Nat.zero_add]
  | cons k ks ih =>
    cases hb : k.bracket with
    | opening =>
      have := ih ((sinks_opening hb).1 hk)
      exact (sinks_opening hb).2 (by rwa [Nat.add_right_comm])
    | neither => exact (sinks_plain hb).2 (ih ((sinks_plain hb).1 hk))
    | closing =>
      obtain ⟨n, rfl, hks⟩ := (sinks_closing hb).1 hk
      exact (sinks_closing hb).2 ⟨n + m, Nat.add_right_comm n 1 m, ih hks⟩

/-- A balanced row in a pair of brackets, with one behind it. -/
theorem Balanced.pair {o c : Kind} {inner : List Kind} (ho : o.bracket = .opening)
    (hc : c.bracket = .closing) (hi : Balanced inner) (hk : Balanced ks) :
    Balanced (o :: (inner ++ c :: ks)) :=
  (sinks_opening ho).2 (hi.append ((sinks_closing hc).2 ⟨0, rfl, hk⟩))

end

namespace Stream

/-! ## The counting loops, token by token -/

theorem closeIn_opening {t : Token} (h : t.kind.bracket = .opening) (ts : List Token)
    (i opened : Nat) : closeIn (t :: ts) i opened = closeIn ts (i + 1) (opened + 1) := by
  simp only [closeIn, h]

theorem closeIn_plain {t : Token} (h : t.kind.bracket = .neither) (he : t.kind ≠ .eof)
    (ts : List Token) (i opened : Nat) : closeIn (t :: ts) i opened = closeIn ts (i + 1) opened := by
  simp only [closeIn, h, if_neg he]

theorem closeIn_closing {t : Token} (h : t.kind.bracket = .closing) (ts : List Token) (i opened : Nat) :
    closeIn (t :: ts) i 0 = none ∧ closeIn (t :: ts) i 1 = some i ∧
      closeIn (t :: ts) i (opened + 2) = closeIn ts (i + 1) (opened + 1) := by
  simp only [closeIn, h, and_self]

theorem closeIn_eof {t : Token} (h : t.kind = .eof) (ts : List Token) (i opened : Nat) :
    closeIn (t :: ts) i opened = none := by
  simp only [closeIn, h, Kind.bracket, if_true]

theorem openIn_closing {t : Token} (h : t.kind.bracket = .closing) (ts : List Token)
    (i closed : Nat) : openIn (t :: ts) i closed = openIn ts (i - 1) (closed + 1) := by
  simp only [openIn, h]

theorem openIn_plain {t : Token} (h : t.kind.bracket = .neither) (ts : List Token)
    (i closed : Nat) : openIn (t :: ts) i closed = openIn ts (i - 1) closed := by
  simp only [openIn, h]

theorem openIn_opening {t : Token} (h : t.kind.bracket = .opening) (ts : List Token)
    (i closed : Nat) : openIn (t :: ts) i 1 = some (i - 1) ∧
      openIn (t :: ts) i (closed + 2) = openIn ts (i - 1) (closed + 1) := by
  simp only [openIn, h, and_self]

/-! ## Rows that sink -/

variable {row : List Token} {n : Nat}

/-- Looking forward, a row that sinks takes as many brackets from the count. -/
theorem closeIn_sinks (h : Sinks n (row.map (·.kind))) (he : ∀ t ∈ row, t.kind ≠ .eof)
    (rest : List Token) (i m : Nat) :
    closeIn (row ++ rest) i (n + (m + 1)) = closeIn rest (i + row.length) (m + 1) := by
  induction row generalizing i n with
  | nil =>
    obtain rfl := sinks_nil.1 h
    rw [Nat.zero_add]
    rfl
  | cons t row ih =>
    obtain ⟨het, he⟩ := List.forall_mem_cons.1 he
    rw [List.map_cons] at h
    rw [List.cons_append, List.length_cons, show i + (row.length + 1) = i + 1 + row.length by omega]
    cases hb : t.kind.bracket with
    | opening =>
      rw [closeIn_opening hb, ← ih ((sinks_opening hb).1 h) he]
      congr 1
      omega
    | neither => rw [closeIn_plain hb het, ih ((sinks_plain hb).1 h) he]
    | closing =>
      obtain ⟨n, rfl, hrow⟩ := (sinks_closing hb).1 h
      rw [show n + 1 + (m + 1) = n + m + 2 by omega, (closeIn_closing hb _ i _).2.2,
        ← ih hrow he]
      rfl

/-- Looking backward, a row that sinks adds as many brackets to the count. -/
theorem openIn_sinks (h : Sinks n (row.map (·.kind))) (rest : List Token) (i m : Nat) :
    openIn (row.reverse ++ rest) i (m + 1) = openIn rest (i - row.length) (n + (m + 1)) := by
  induction row generalizing n rest with
  | nil =>
    obtain rfl := sinks_nil.1 h
    rw [Nat.zero_add]
    rfl
  | cons t row ih =>
    rw [List.map_cons] at h
    rw [List.reverse_cons, List.append_assoc, List.singleton_append, List.length_cons, ← Nat.sub_sub]
    cases hb : t.kind.bracket with
    | opening =>
      rw [ih ((sinks_opening hb).1 h), show n + 1 + (m + 1) = n + m + 2 by omega,
        (openIn_opening hb rest _ _).2]
      rfl
    | neither => rw [ih ((sinks_plain hb).1 h), openIn_plain hb]
    | closing =>
      obtain ⟨n, rfl, hrow⟩ := (sinks_closing hb).1 h
      rw [ih hrow, openIn_closing hb]
      congr 1
      omega

/-- The lookup finds the closing bracket behind the row that takes all but one bracket from the count. -/
theorem closeIn_eq_some_iff {ts : List Token} {i j : Nat} :
    closeIn ts i (n + 1) = some j ↔ ∃ row t rest, ts = row ++ t :: rest ∧ j = i + row.length ∧
      t.kind.bracket = .closing ∧ Sinks n (row.map (·.kind)) ∧ ∀ u ∈ row, u.kind ≠ .eof := by
  constructor
  · intro h
    induction ts generalizing i n with
    | nil => exact nomatch h
    | cons t ts ih =>
      -- the row found behind the first token, with this token in front
      have step : ∀ {m : Nat}, closeIn ts (i + 1) (m + 1) = some j → t.kind ≠ .eof →
          (∀ ks, Sinks m ks → Sinks n (t.kind :: ks)) → ∃ row u rest, t :: ts = row ++ u :: rest ∧
            j = i + row.length ∧ u.kind.bracket = .closing ∧ Sinks n (row.map (·.kind)) ∧
            ∀ v ∈ row, v.kind ≠ .eof := by
        intro m h het hsinks
        obtain ⟨row, u, rest, rfl, rfl, hu, hrow, he⟩ := ih h
        refine ⟨t :: row, u, rest, rfl, ?_, hu, hsinks _ hrow, List.forall_mem_cons.2 ⟨het, he⟩⟩
        rw [List.length_cons]
        omega
      cases hb : t.kind.bracket with
      | opening =>
        rw [closeIn_opening hb] at h
        exact step h (Kind.ne_eof_of_bracket hb nofun) fun _ => (sinks_opening hb).2
      | neither =>
        by_cases het : t.kind = .eof
        · rw [closeIn_eof het] at h
          exact nomatch h
        · rw [closeIn_plain hb het] at h
          exact step h het fun _ => (sinks_plain hb).2
      | closing =>
        cases n with
        | zero =>
          rw [Nat.zero_add, (closeIn_closing hb ts i 0).2.1] at h
          exact ⟨[], t, ts, rfl, (Option.some.inj h).symm, hb, sinks_nil.2 rfl, nofun⟩
        | succ n =>
          rw [(closeIn_closing hb ts i n).2.2] at h
          exact step h (Kind.ne_eof_of_bracket hb nofun) fun _ h => (sinks_closing hb).2 ⟨n, rfl, h⟩
  · rintro ⟨row, t, rest, rfl, rfl, ht, hrow, he⟩
    have h := closeIn_sinks hrow he (t :: rest) i 0
    rwa [(closeIn_closing ht rest _ 0).2.1] at h

/-! ## Pairs of brackets -/

/-- The kinds of the tokens from one index up to another. -/
def kinds (s : Stream) (i j : Nat) : List Kind := ((s.tokens.toList.take j).drop i).map (·.kind)

/-- The tokens at two indices open and close, what stands between them is balanced, and the end of the
input is not among it. -/
structure Pairs (s : Stream) (i j : Nat) : Prop where
  lt : i < j
  opening : (s.kindAt i).bracket = .opening
  closing : (s.kindAt j).bracket = .closing
  balanced : Balanced (s.kinds (i + 1) j)
  eof_notMem : .eof ∉ s.kinds (i + 1) j

variable {s : Stream} {i j : Nat}

/-- A row of tokens from the one at an index on. -/
theorem drop_of_token {t : Token} (h : s.tokens[i]? = some t) :
    s.tokens.toList.drop i = t :: s.tokens.toList.drop (i + 1) := by
  rw [← Array.getElem?_toList] at h
  obtain ⟨hlt, hget⟩ := List.getElem?_eq_some_iff.1 h
  rw [List.drop_eq_getElem_cons hlt, hget]

theorem exists_token_of_bracket {b : Kind.Bracket} (h : (s.kindAt i).bracket = b) (hb : b ≠ .neither) :
    ∃ t, s.tokens[i]? = some t ∧ t.kind.bracket = b := by
  obtain ⟨t, ht, hk⟩ := exists_token_of_kindAt rfl (Kind.ne_eof_of_bracket h hb)
  exact ⟨t, ht, hk ▸ h⟩

theorem matchingClose?_of_opening (h : (s.kindAt i).bracket = .opening) :
    s.matchingClose? i = closeIn (s.tokens.toList.drop (i + 1)) (i + 1) 1 := by
  obtain ⟨t, ht, hk⟩ := exists_token_of_bracket h nofun
  rw [matchingClose?, drop_of_token ht, closeIn_opening hk]

/-- A pair of brackets, and the tokens around and between them. -/
theorem Pairs.exists_tokens (h : s.Pairs i j) : ∃ t row u, t.kind.bracket = .opening ∧
    u.kind.bracket = .closing ∧ j = i + 1 + row.length ∧ Balanced (row.map (·.kind)) ∧
    (∀ v ∈ row, v.kind ≠ .eof) ∧
    s.tokens.toList.drop i = t :: (row ++ u :: s.tokens.toList.drop (j + 1)) := by
  obtain ⟨t, ht, hkt⟩ := exists_token_of_bracket h.opening nofun
  obtain ⟨u, hu, hku⟩ := exists_token_of_bracket h.closing nofun
  have hj : j < s.tokens.toList.length := (Array.getElem?_eq_some_iff.1 hu).1
  have hlt := h.lt
  refine ⟨t, (s.tokens.toList.take j).drop (i + 1), u, hkt, hku, ?_, h.balanced, fun v hv hk => ?_, ?_⟩
  · rw [List.length_drop, List.length_take]
    omega
  · exact h.eof_notMem (List.mem_map.2 ⟨v, hv, hk⟩)
  · rw [drop_of_token ht, ← drop_of_token hu, List.drop_take]
    conv => lhs; rw [← List.take_append_drop (j - (i + 1)) (s.tokens.toList.drop (i + 1))]
    rw [List.drop_drop, show i + 1 + (j - (i + 1)) = j by omega]

/-- The lookup forward from an opening bracket finds the bracket that it is paired with, and fails if
there is none. -/
theorem matchingClose?_eq_some_iff (h : (s.kindAt i).bracket = .opening) :
    s.matchingClose? i = some j ↔ s.Pairs i j := by
  rw [matchingClose?_of_opening h]
  constructor
  · intro hclose
    obtain ⟨row, u, rest, hdrop, rfl, hu, hrow, he⟩ := closeIn_eq_some_iff.1 hclose
    have hkinds : s.kinds (i + 1) (i + 1 + row.length) = row.map (·.kind) := by
      rw [kinds, List.drop_take, hdrop, Nat.add_sub_cancel_left, List.take_left]
    have htoken : s.tokens[i + 1 + row.length]? = some u := by
      rw [← Array.getElem?_toList, ← List.getElem?_drop, hdrop]
      simp
    refine ⟨by omega, h, by rwa [kindAt_of_token htoken], hkinds ▸ hrow, ?_⟩
    rw [hkinds]
    rintro hmem
    obtain ⟨v, hv, hk⟩ := List.mem_map.1 hmem
    exact he v hv hk
  · intro hpairs
    obtain ⟨t, row, u, -, hu, rfl, hrow, he, hdrop⟩ := hpairs.exists_tokens
    refine closeIn_eq_some_iff.2 ⟨row, u, s.tokens.toList.drop (i + 1 + row.length + 1), ?_, rfl, hu,
      hrow, he⟩
    rw [← List.drop_drop, hdrop, List.drop_one, List.tail_cons]

theorem lt_of_matchingClose? (h : (s.kindAt i).bracket = .opening)
    (hclose : s.matchingClose? i = some j) : i < j :=
  ((matchingClose?_eq_some_iff h).1 hclose).lt

/-- The lookup backward from the closing bracket of a pair finds the opening one. -/
theorem matchingOpen?_of_pairs (h : s.Pairs i j) : s.matchingOpen? j = some i := by
  obtain ⟨t, row, u, ht, hu, rfl, hrow, -, hdrop⟩ := h.exists_tokens
  have hi : i ≤ s.tokens.toList.length := by
    have := congrArg List.length hdrop
    rw [List.length_drop, List.length_cons] at this
    omega
  have htake : s.tokens.toList.take (i + 1 + row.length + 1) =
      s.tokens.toList.take i ++ (t :: (row ++ [u])) := by
    have hlen : (t :: (row ++ [u])).length = 1 + row.length + 1 := by simp; omega
    rw [show i + 1 + row.length + 1 = i + (1 + row.length + 1) by omega, List.take_add, hdrop, ← hlen,
      show t :: (row ++ u :: s.tokens.toList.drop (i + 1 + row.length + 1)) =
        t :: (row ++ [u]) ++ s.tokens.toList.drop (i + 1 + row.length + 1) by simp, List.take_left]
  rw [matchingOpen?, htake, List.reverse_append, List.reverse_cons, List.reverse_append]
  simp only [List.reverse_cons, List.reverse_nil, List.nil_append, List.append_assoc,
    List.cons_append]
  rw [openIn_closing hu, openIn_sinks hrow, Nat.zero_add, (openIn_opening ht _ _ 0).1]
  congr 1
  simp only [List.length_append, List.length_take, List.length_cons, List.length_nil]
  omega

end Stream

end TermLang
