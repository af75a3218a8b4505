import TermLang.Proofs.HeadroomTerms

/-!
# Windows

A window shows a stretch of one stream as a stretch of another: the same tokens, some places earlier,
read with no more levels open. What is seen is the whole rest of both streams, or ends at a bracket
that closes behind the cursor; inside such brackets a parser never looks past the one that closes
them. Or the second stream holds an end of the input which the first lacks. So two runs at corresponding cursors answer alike: the same value at corresponding cursors, or
the same error; unless the first runs into the nesting limit, having more levels open.
-/

namespace TermLang

/-- Two streams, how many places and levels apart corresponding cursors are, and an index in the
second stream that nothing in view passes. -/
structure Window where
  fst : Stream
  snd : Stream
  shift : Nat
  lift : Nat
  last : Nat

/-- What is in view from a cursor on: the whole rest of the streams, or the tokens up to a bracket
that closes at an index of the second one; or the whole rest of two streams that are the same but for an
end of the input, which only the second one holds. -/
inductive Zone
  | whole
  | fence (close : Nat)
  | ended

/-- The end of the input as a token, standing where errors say that it is missing. -/
def Stream.endToken (s : Stream) : Token :=
  Token.eof ((s.tokens.back?.map (·.span.stop)).getD .start)

namespace Window

/-- The last index in view. -/
def limit (w : Window) : Zone → Nat
  | .whole => w.snd.tokens.size
  | .fence close => close
  | .ended => w.fst.tokens.size

/-- From an index of the second stream on, the tokens of the zone are those of the first stream. -/
def Shows (w : Window) : Zone → Nat → Prop
  | .whole, i =>
    i ≤ w.snd.tokens.size ∧ w.fst.tokens.toList.drop w.shift = w.snd.tokens.toList ∧
      w.fst.tokens.back? = w.snd.tokens.back? ∧
      w.fst.tokens.size = w.snd.tokens.size + w.shift
  | .fence close, i =>
    Stream.closeIn (w.snd.tokens.toList.drop i) i 1 = some close ∧
      ∀ m, i ≤ m → m ≤ close → w.fst.tokens[m + w.shift]? = w.snd.tokens[m]?
  | .ended, i =>
    i ≤ w.fst.tokens.size ∧ w.shift = 0 ∧ w.snd.tokens = w.fst.tokens.push w.fst.endToken

/-- The cursors correspond, and the zone is in view from there on. The index `lo` has been reached. -/
structure Sees (w : Window) (z : Zone) (lo : Nat) (c c' : Cursor) : Prop where
  maxDepth_eq : w.fst.maxDepth = w.snd.maxDepth
  pos_eq : c.pos = c'.pos + w.shift
  depth_eq : c.depth = c'.depth + w.lift
  le_pos : lo ≤ c'.pos
  limit_le : w.limit z ≤ w.last
  shows : w.Shows z c'.pos

/-- The cursors stand inside a bracket: in a zone behind which the given one goes on. -/
def Inside (w : Window) (z : Zone) (lo : Nat) (c c' : Cursor) : Prop :=
  ∃ zi, w.Sees zi lo c c' ∧ ∀ lo' x x', w.Sees zi lo' x x' →
    (w.snd.kindAt x'.pos).bracket = .closing →
      w.Sees z (lo' + 1) { x with pos := x.pos + 1 } { x' with pos := x'.pos + 1 }

end Window

/-! ## Lookups from corresponding indices -/

namespace Stream

theorem closeIn_shift : ∀ (ts : List Token) (i opened k : Nat),
    closeIn ts (i + k) opened = (closeIn ts i opened).map (· + k)
  | [], _, _, _ => rfl
  | t :: ts, i, opened, k => by
    have hi : i + k + 1 = i + 1 + k := by omega
    unfold closeIn
    rw [hi]
    split
    · exact closeIn_shift ts (i + 1) (opened + 1) k
    · split
      · rfl
      · rfl
      · exact closeIn_shift ts (i + 1) _ k
    · split
      · rfl
      · exact closeIn_shift ts (i + 1) opened k

theorem closeIn_lt : ∀ {ts : List Token} {i opened close : Nat},
    closeIn ts i opened = some close → close < i + ts.length
  | t :: ts, i, opened, close, h => by
    have step : ∀ {opened' : Nat}, closeIn ts (i + 1) opened' = some close →
        close < i + (t :: ts).length := by
      intro opened' h
      have := closeIn_lt h
      rw [List.length_cons]
      omega
    unfold closeIn at h
    split at h
    · exact step h
    · split at h
      · cases h
      · rw [← Option.some.inj h, List.length_cons]
        omega
      · exact step h
    · split at h
      · cases h
      · exact step h

/-- The search for a closing bracket looks at no token behind it. -/
theorem closeIn_of_agree : ∀ {ts ts' : List Token} {i opened close : Nat},
    closeIn ts i opened = some close → (∀ m, i + m ≤ close → ts'[m]? = ts[m]?) →
      closeIn ts' i opened = some close
  | t :: ts, ts', i, opened, close, h, hagree => by
    have hle := le_closeIn h
    have hhead := hagree 0 (by omega)
    obtain ⟨ts', rfl⟩ : ∃ rest, ts' = t :: rest := by
      cases ts' with
      | nil => simp at hhead
      | cons t' rest => simp at hhead; exact ⟨rest, by rw [hhead]⟩
    have htail : ∀ m, i + 1 + m ≤ close → ts'[m]? = ts[m]? := fun m hm => by
      simpa using hagree (m + 1) (by omega)
    unfold closeIn at h ⊢
    split at h
    · exact closeIn_of_agree h htail
    · split at h
      · cases h
      · exact h
      · exact closeIn_of_agree h htail
    · split at h
      · cases h
      · rename_i he
        rw [if_neg he]
        exact closeIn_of_agree h htail

/-- No bracket is closed by the end of the input, whether it is there or not. -/
theorem closeIn_concat_eof {t : Token} (h : t.kind = .eof) : ∀ (ts : List Token) (i opened : Nat),
    closeIn (ts ++ [t]) i opened = closeIn ts i opened
  | [], i, opened => closeIn_eof h [] i opened
  | u :: ts, i, opened => by
    rw [List.cons_append]
    unfold closeIn
    split
    · exact closeIn_concat_eof h ts (i + 1) (opened + 1)
    · split
      · rfl
      · rfl
      · exact closeIn_concat_eof h ts (i + 1) _
    · split
      · rfl
      · exact closeIn_concat_eof h ts (i + 1) opened

/-- To close some brackets and then some more, the search closes the inner ones first. -/
theorem closeIn_add : ∀ {ts : List Token} {i inner outer close : Nat},
    closeIn ts i (inner + 1 + (outer + 1)) = some close →
      ∃ mid, i ≤ mid ∧ mid < close ∧ closeIn ts i (inner + 1) = some mid ∧
        closeIn (ts.drop (mid + 1 - i)) (mid + 1) (outer + 1) = some close
  | t :: ts, i, inner, outer, close, h => by
    -- the search goes on behind the first token with a count that may be another one
    have step : ∀ {inner' : Nat}, closeIn ts (i + 1) (inner' + 1 + (outer + 1)) = some close →
        ∃ mid, i ≤ mid ∧ mid < close ∧ closeIn ts (i + 1) (inner' + 1) = some mid ∧
          closeIn ((t :: ts).drop (mid + 1 - i)) (mid + 1) (outer + 1) = some close := by
      intro inner' h
      obtain ⟨mid, hle, hlt, hmid, hrest⟩ := closeIn_add h
      refine ⟨mid, by omega, hlt, hmid, ?_⟩
      rwa [show mid + 1 - i = mid + 1 - (i + 1) + 1 by omega, List.drop_succ_cons]
    cases hb : t.kind.bracket with
    | opening =>
      rw [closeIn_opening hb] at h ⊢
      rw [show inner + 1 + (outer + 1) + 1 = inner + 1 + 1 + (outer + 1) by omega] at h
      exact step h
    | closing =>
      rw [show inner + 1 + (outer + 1) = inner + outer + 2 by omega,
        (closeIn_closing hb ts i (inner + outer)).2.2] at h
      cases inner with
      | zero =>
        rw [Nat.zero_add] at h
        refine ⟨i, Nat.le_refl i, le_closeIn h, (closeIn_closing hb ts i 0).2.1, ?_⟩
        rwa [Nat.add_sub_cancel_left, List.drop_succ_cons, List.drop_zero]
      | succ inner =>
        rw [(closeIn_closing hb ts i inner).2.2]
        rw [show inner + 1 + outer + 1 = inner + 1 + (outer + 1) by omega] at h
        exact step h
    | neither =>
      by_cases he : t.kind = .eof
      · rw [closeIn_eof he] at h
        cases h
      · rw [closeIn_plain hb he] at h ⊢
        exact step h

/-- Where an open bracket is closed later on, there is a token. -/
theorem exists_token_of_closeIn {s : Stream} {i opened close : Nat}
    (h : closeIn (s.tokens.toList.drop i) i opened = some close) :
    ∃ t, s.tokens[i]? = some t ∧ t.kind ≠ .eof := by
  cases ht : s.tokens[i]? with
  | none =>
    have hnil : s.tokens.toList.drop i = [] := by
      rw [List.drop_eq_nil_iff, Array.length_toList]
      exact Array.getElem?_eq_none_iff.1 ht
    rw [hnil] at h
    cases h
  | some t =>
    refine ⟨t, rfl, fun he => ?_⟩
    rw [drop_of_token ht, closeIn_eof he] at h
    cases h

end Stream

/-! ## Corresponding cursors -/

namespace Window.Sees

variable {w : Window} {z : Zone} {lo : Nat} {c c' : Cursor}

theorem mono {lo' : Nat} (h : w.Sees z lo c c') (hle : lo' ≤ lo) : w.Sees z lo' c c' :=
  { h with le_pos := Nat.le_trans hle h.le_pos }

theorem here (h : w.Sees z lo c c') : w.Sees z c'.pos c c' := { h with le_pos := Nat.le_refl _ }

/-- The zone further on, where the first cursor has moved. -/
theorem past {z' : Zone} {lo' : Nat} {x x' : Cursor} (hx : w.Sees z lo x x')
    (h : w.Sees z' lo' c c') (hlt : c.pos < x.pos) : w.Sees z (c'.pos + 1) x x' :=
  { hx with le_pos := by have := hx.pos_eq; have := h.pos_eq; omega }

theorem pos_le (h : w.Sees z lo c c') : c'.pos ≤ w.limit z := by
  have hshows := h.shows
  cases z with
  | whole => exact hshows.1
  | fence close => exact Stream.le_closeIn hshows.1
  | ended => exact hshows.1

/-- The current token is the same, unless it is the end of the input that the first stream lacks. -/
theorem token_cases (h : w.Sees z lo c c') :
    w.fst.tokens[c.pos]? = w.snd.tokens[c'.pos]? ∧
        (w.snd.tokens[c'.pos]? = none → w.fst.tokens.back? = w.snd.tokens.back?) ∨
      z = .ended ∧ w.fst.tokens[c.pos]? = none ∧ w.snd.tokens[c'.pos]? = some w.fst.endToken := by
  have hshows := h.shows
  rw [h.pos_eq]
  cases z with
  | whole =>
    obtain ⟨-, hdrop, hlast, -⟩ := hshows
    refine .inl ⟨?_, fun _ => hlast⟩
    rw [← Array.getElem?_toList, ← Array.getElem?_toList, ← hdrop, List.getElem?_drop,
      Nat.add_comm w.shift]
  | fence close =>
    obtain ⟨t, ht, -⟩ := Stream.exists_token_of_closeIn hshows.1
    refine .inl ⟨hshows.2 c'.pos (Nat.le_refl _) h.pos_le, fun hnone => ?_⟩
    rw [hnone] at ht
    cases ht
  | ended =>
    obtain ⟨hle, hshift, hsnd⟩ := hshows
    rw [hsnd, hshift, Nat.add_zero]
    rcases Nat.lt_or_eq_of_le hle with hlt | heq
    · have hget := Array.getElem?_eq_getElem hlt
      rw [Array.getElem?_push_lt hlt, hget]
      exact .inl ⟨rfl, nofun⟩
    · rw [heq, Array.getElem?_push_size]
      exact .inr ⟨rfl, Array.getElem?_eq_none (Nat.le_refl _), rfl⟩

theorem kindAt_eq (h : w.Sees z lo c c') : w.fst.kindAt c.pos = w.snd.kindAt c'.pos := by
  rw [Stream.kindAt, Stream.kindAt]
  rcases h.token_cases with ⟨htoken, -⟩ | ⟨-, hfst, hsnd⟩
  · rw [htoken]
  · rw [hfst, hsnd]
    rfl

theorem token_eq (h : w.Sees z lo c c') (he : w.snd.kindAt c'.pos ≠ .eof) :
    w.fst.tokens[c.pos]? = w.snd.tokens[c'.pos]? := by
  rcases h.token_cases with ⟨htoken, -⟩ | ⟨-, -, hsnd⟩
  · exact htoken
  · exact absurd (Stream.kindAt_of_token hsnd) he

/-- The whole rest of the streams is in view with the end of the input. -/
theorem token_eq_of_whole (h : w.Sees .whole lo c c') :
    w.fst.tokens[c.pos]? = w.snd.tokens[c'.pos]? :=
  (h.token_cases.resolve_right fun hended => nomatch hended.1).1

theorem errorAt_eq (h : w.Sees z lo c c') (rule : Rule) (fault : SyntaxFault) :
    Parse.errorAt w.fst c rule fault = Parse.errorAt w.snd c' rule fault := by
  unfold Parse.errorAt
  rw [h.kindAt_eq]
  rcases h.token_cases with ⟨htoken, hlast⟩ | ⟨-, hfst, hsnd⟩
  · rw [htoken]
    cases ht : w.snd.tokens[c'.pos]? with
    | some t => rfl
    | none => rw [hlast ht]
  · rw [hfst, hsnd, Stream.endToken]
    cases w.fst.tokens.back? <;> rfl

/-- In front of the end of the input that the first stream lacks there is more of it. -/
theorem lt_of_ended (h : w.Sees .ended lo c c') (he : w.snd.kindAt c'.pos ≠ .eof) :
    c'.pos < w.fst.tokens.size := by
  obtain ⟨t, ht, -⟩ := Stream.exists_token_of_kindAt rfl he
  have hlt := (Array.getElem?_eq_some_iff.1 ((h.token_eq he).trans ht)).1
  have hshift : w.shift = 0 := h.shows.2.1
  rwa [h.pos_eq, hshift] at hlt

/-- No more tokens are in view than are left in either stream. -/
theorem lt_remaining (h : w.Sees z lo c c') :
    w.limit z < c'.pos + w.fst.remaining c.pos ∧ w.limit z < c'.pos + w.snd.remaining c'.pos := by
  have hpos := h.pos_eq
  have hle := h.pos_le
  have hshows := h.shows
  unfold Stream.remaining
  cases z with
  | whole =>
    obtain ⟨-, -, -, hsize⟩ := hshows
    simp only [limit] at hle ⊢
    omega
  | ended =>
    obtain ⟨-, hshift, hsnd⟩ := hshows
    have hsize : w.snd.tokens.size = w.fst.tokens.size + 1 := by rw [hsnd, Array.size_push]
    simp only [limit] at hle ⊢
    omega
  | fence close =>
    obtain ⟨hclose, hagree⟩ := hshows
    have hlt := Stream.closeIn_lt hclose
    simp only [limit] at hle ⊢
    rw [List.length_drop, Array.length_toList] at hlt
    have htoken : w.fst.tokens[close + w.shift]? = some w.snd.tokens[close] := by
      rw [hagree close hle (Nat.le_refl _), Array.getElem?_eq_getElem]
    have hlt' := (Array.getElem?_eq_some_iff.1 htoken).1
    omega

/-- Past a token that is no bracket. -/
theorem bump (h : w.Sees z lo c c') (hb : (w.snd.kindAt c'.pos).bracket = .neither)
    (he : w.snd.kindAt c'.pos ≠ .eof) :
    w.Sees z (lo + 1) { c with pos := c.pos + 1 } { c' with pos := c'.pos + 1 } := by
  obtain ⟨t, ht, hk⟩ := Stream.exists_token_of_kindAt rfl he
  refine { h with
    pos_eq := by have := h.pos_eq; show c.pos + 1 = c'.pos + 1 + w.shift; omega
    le_pos := Nat.succ_le_succ h.le_pos
    shows := ?_ }
  have hshows := h.shows
  cases z with
  | whole => exact ⟨Stream.lt_size_of_kindAt rfl he, hshows.2⟩
  | ended => exact ⟨h.lt_of_ended he, hshows.2⟩
  | fence close =>
    refine ⟨?_, fun m hm => hshows.2 m (Nat.le_of_succ_le hm)⟩
    have hclose := hshows.1
    rw [Stream.drop_of_token ht, Stream.closeIn_plain (hk ▸ hb) (hk ▸ he)] at hclose
    exact hclose

theorem kindAt_next (h : w.Sees z lo c c') (hb : (w.snd.kindAt c'.pos).bracket = .neither)
    (he : w.snd.kindAt c'.pos ≠ .eof) : w.fst.kindAt (c.pos + 1) = w.snd.kindAt (c'.pos + 1) :=
  (h.bump hb he).kindAt_eq

/-- The same zone with as many levels opened in both. -/
theorem level (h : w.Sees z lo c c') {d d' : Nat} (hd : d = d' + w.lift) :
    w.Sees z lo { c with depth := d } { c' with depth := d' } :=
  { h with depth_eq := hd }

/-- A closing bracket inside the fence is the fence. -/
theorem pos_eq_close {close : Nat} (h : w.Sees (.fence close) lo c c')
    (hclosing : (w.snd.kindAt c'.pos).bracket = .closing) : c'.pos = close := by
  obtain ⟨u, hu, -⟩ := Stream.exists_token_of_closeIn h.shows.1
  have hmid := h.shows.1
  rw [Stream.kindAt_of_token hu] at hclosing
  rw [Stream.drop_of_token hu, (Stream.closeIn_closing hclosing _ _ 0).2.1] at hmid
  exact Option.some.inj hmid

/-- Past an opening bracket the zone ends where it is closed, and goes on from there as before. -/
theorem enter (h : w.Sees z lo c c') (hb : (w.snd.kindAt c'.pos).bracket = .opening) :
    w.Inside z (lo + 1) { c with pos := c.pos + 1 } { c' with pos := c'.pos + 1 } := by
  have he : w.snd.kindAt c'.pos ≠ .eof := Kind.ne_eof_of_bracket hb (by decide)
  obtain ⟨t, ht, hk⟩ := Stream.exists_token_of_kindAt rfl he
  have hpos : c.pos + 1 = c'.pos + 1 + w.shift := by have := h.pos_eq; omega
  have hshows := h.shows
  cases z with
  | whole =>
    have hlt := Stream.lt_size_of_kindAt rfl he
    refine ⟨.whole, { h with
      pos_eq := hpos, le_pos := Nat.succ_le_succ h.le_pos, shows := ⟨hlt, hshows.2⟩ }, ?_⟩
    intro lo' x x' hx hclosing
    have hlt' := Stream.lt_size_of_kindAt rfl (Kind.ne_eof_of_bracket hclosing (by decide))
    exact { hx with
      pos_eq := by have := hx.pos_eq; show x.pos + 1 = x'.pos + 1 + w.shift; omega
      le_pos := Nat.succ_le_succ hx.le_pos
      shows := ⟨hlt', hx.shows.2⟩ }
  | ended =>
    refine ⟨.ended, { h with
      pos_eq := hpos, le_pos := Nat.succ_le_succ h.le_pos, shows := ⟨h.lt_of_ended he, hshows.2⟩ }, ?_⟩
    intro lo' x x' hx hclosing
    exact { hx with
      pos_eq := by have := hx.pos_eq; show x.pos + 1 = x'.pos + 1 + w.shift; omega
      le_pos := Nat.succ_le_succ hx.le_pos
      shows := ⟨hx.lt_of_ended (Kind.ne_eof_of_bracket hclosing (by decide)), hx.shows.2⟩ }
  | fence close =>
    obtain ⟨hclose, hagree⟩ := hshows
    rw [Stream.drop_of_token ht, Stream.closeIn_opening (hk ▸ hb)] at hclose
    obtain ⟨mid, hle, hlt, hmid, hrest⟩ := @Stream.closeIn_add _ _ 0 0 _ hclose
    have hlimit : close ≤ w.last := h.limit_le
    refine ⟨.fence mid, { h with
      pos_eq := hpos, le_pos := Nat.succ_le_succ h.le_pos
      limit_le := by show mid ≤ w.last; omega
      shows := ⟨hmid, fun m (hm : c'.pos + 1 ≤ m) hm' => hagree m (by omega) (by omega)⟩ }, ?_⟩
    intro lo' x x' hx hclosing
    have hx' : x'.pos = mid := hx.pos_eq_close hclosing
    rw [List.drop_drop, show c'.pos + 1 + (mid + 1 - (c'.pos + 1)) = mid + 1 by omega] at hrest
    exact { hx with
      pos_eq := by have := hx.pos_eq; show x.pos + 1 = x'.pos + 1 + w.shift; omega
      le_pos := Nat.succ_le_succ hx.le_pos
      limit_le := h.limit_le
      shows := by
        show w.Shows (.fence close) (x'.pos + 1)
        rw [hx']
        exact ⟨hrest, fun m hm hm' => hagree m (by omega) hm'⟩ }

/-- Brackets are paired alike, and behind a pair the zone goes on. -/
theorem matchingClose?_eq (h : w.Sees z lo c c')
    (hb : (w.snd.kindAt c'.pos).bracket = .opening) :
    w.fst.matchingClose? c.pos = (w.snd.matchingClose? c'.pos).map (· + w.shift) ∧
      ∀ close, w.snd.matchingClose? c'.pos = some close → w.Sees z (lo + 1)
        { c with pos := close + w.shift + 1 } { c' with pos := close + 1 } := by
  have he : w.snd.kindAt c'.pos ≠ .eof := Kind.ne_eof_of_bracket hb (by decide)
  obtain ⟨t, ht, hk⟩ := Stream.exists_token_of_kindAt rfl he
  have htop : t.kind.bracket = .opening := hk ▸ hb
  have hsnd : w.snd.matchingClose? c'.pos =
      Stream.closeIn (w.snd.tokens.toList.drop (c'.pos + 1)) (c'.pos + 1) 1 := by
    rw [Stream.matchingClose?, Stream.drop_of_token ht, Stream.closeIn_opening htop]
  have hfst : w.fst.matchingClose? c.pos =
      (Stream.closeIn (w.fst.tokens.toList.drop (c.pos + 1)) (c'.pos + 1) 1).map (· + w.shift) := by
    rw [Stream.matchingClose?, Stream.drop_of_token ((h.token_eq he).trans ht),
      Stream.closeIn_opening htop, ← Stream.closeIn_shift, h.pos_eq, Nat.add_right_comm]
  have go : ∀ {close : Nat}, c'.pos + 1 ≤ close → w.Shows z (close + 1) → w.Sees z (lo + 1)
      { c with pos := close + w.shift + 1 } { c' with pos := close + 1 } := fun hle hshows =>
    { h with
      pos_eq := Nat.add_right_comm _ _ _
      le_pos := by have := h.le_pos; show lo + 1 ≤ _ + 1; omega
      shows := hshows }
  have hshows := h.shows
  rw [hfst, hsnd]
  cases z with
  | whole =>
    have hdrop : w.fst.tokens.toList.drop (c.pos + 1) = w.snd.tokens.toList.drop (c'.pos + 1) := by
      rw [← hshows.2.1, List.drop_drop, h.pos_eq]
      congr 1
      omega
    refine ⟨by rw [hdrop], fun close hclose => go (Stream.le_closeIn hclose) ⟨?_, hshows.2⟩⟩
    have hlt := Stream.closeIn_lt hclose
    have := (Array.getElem?_eq_some_iff.1 ht).1
    rw [List.length_drop, Array.length_toList] at hlt
    omega
  | ended =>
    obtain ⟨-, hshift, htokens⟩ := hshows
    have hlt := h.lt_of_ended he
    have hpos : c.pos = c'.pos := by rw [h.pos_eq, hshift, Nat.add_zero]
    have hdrop : w.snd.tokens.toList.drop (c'.pos + 1) =
        w.fst.tokens.toList.drop (c.pos + 1) ++ [w.fst.endToken] := by
      rw [htokens, Array.toList_push, hpos, List.drop_append_of_le_length (by rwa [Array.length_toList])]
    rw [hdrop, Stream.closeIn_concat_eof rfl]
    refine ⟨rfl, fun close hclose => go (Stream.le_closeIn hclose) ⟨?_, hshift, htokens⟩⟩
    have hend := Stream.closeIn_lt hclose
    rw [List.length_drop, Array.length_toList] at hend
    omega
  | fence last =>
    obtain ⟨hlast, hagree⟩ := hshows
    rw [Stream.drop_of_token ht, Stream.closeIn_opening htop] at hlast
    obtain ⟨mid, hle, hlt, hmid, hrest⟩ := @Stream.closeIn_add _ _ 0 0 _ hlast
    refine ⟨?_, fun close hclose => ?_⟩
    · rw [hmid, Stream.closeIn_of_agree hmid fun m hm => ?_]
      have hpos := h.pos_eq
      rw [List.getElem?_drop, List.getElem?_drop, Array.getElem?_toList, Array.getElem?_toList,
        ← hagree (c'.pos + 1 + m) (by omega) (by omega)]
      congr 1
      omega
    · obtain rfl : mid = close := Option.some.inj (hmid.symm.trans hclose)
      rw [List.drop_drop, show c'.pos + 1 + (mid + 1 - (c'.pos + 1)) = mid + 1 by omega] at hrest
      exact go hle ⟨hrest, fun m hm hm' => hagree m (by omega) hm'⟩

/-- Further on in the zone, past a bracketed row. -/
theorem past_row (h : w.Sees z lo c c') {ys : List Terminal} {i : Nat} (hrow : w.snd.Row c'.pos ys i)
    (hb : Bracketed ys) (hi : i < w.snd.tokens.size) :
    w.Sees z (lo + ys.length) { c with pos := i + w.shift } { c' with pos := i } := by
  have hstop := hrow.stop_eq
  refine { h with
    pos_eq := rfl
    le_pos := by have := h.le_pos; show lo + ys.length ≤ i; omega
    shows := ?_ }
  have hshows := h.shows
  cases z with
  | whole => exact ⟨Nat.le_of_lt hi, hshows.2⟩
  | ended =>
    have hsize : w.snd.tokens.size = w.fst.tokens.size + 1 := by rw [hshows.2.2, Array.size_push]
    rw [hsize] at hi
    exact ⟨Nat.le_of_lt_succ hi, hshows.2⟩
  | fence close =>
    refine ⟨?_, fun m (hm : i ≤ m) => hshows.2 m (by omega)⟩
    obtain ⟨row, hmap, hdrop⟩ := hrow.exists_tokens
    have hlen : row.length = ys.length := by rw [← hmap, List.length_map]
    have hclose := hshows.1
    rwa [hdrop, Stream.closeIn_bracketed hb hmap, hlen, ← hstop] at hclose

end Window.Sees

/-! ## Replies that answer alike -/

/-- Two replies answer alike: the same value at cursors that correspond as told, or the same error;
or the first one hits the nesting limit with more levels open than the second. -/
inductive Reply.Mimics {α : Type} (w : Window) (P : Cursor → Cursor → Prop) (r r' : Reply α) : Prop
  | ok {a : α} : r.result = .ok a → r'.result = .ok a → P r.cursor r'.cursor → r.Mimics w P r'
  | error {e : SyntaxError} : r.result = .error e → r'.result = .error e → r.Mimics w P r'
  | lost {e : SyntaxError} : 0 < w.lift → r.result = .error e → e.isTooDeep = true → r.Mimics w P r'

namespace Parse

variable {α β : Type} {w : Window} {z : Zone} {lo : Nat} {c c' : Cursor} {P Q : Cursor → Cursor → Prop}

/-- What follows a parser that succeeds answers for both. -/
theorem bind_of_runs {p : Parse α} {f : α → Parse β} {s : Stream} {x : Cursor} {a : α}
    (h : p.Runs s c a x) :
    ((p >>= f) s c).result = (f a s x).result ∧ ((p >>= f) s c).cursor = (f a s x).cursor := by
  obtain ⟨ha, rfl⟩ := h
  exact bind_of_ok ha

/-- Two parsers answer alike from corresponding cursors of a window. -/
def Mimics (p : Parse α) (w : Window) (P : Cursor → Cursor → Prop) (c c' : Cursor) (p' : Parse α) :
    Prop := (p w.fst c).Mimics w P (p' w.snd c')

section

variable {p p' : Parse α} {f f' : α → Parse β}

theorem Mimics.weaken (h : p.Mimics w P c c' p') (hPQ : ∀ x x', P x x' → Q x x') :
    p.Mimics w Q c c' p' := by
  cases h with
  | ok ha hb hc => exact .ok ha hb (hPQ _ _ hc)
  | error ha hb => exact .error ha hb
  | lost hl ha he => exact .lost hl ha he

/-- What follows two parsers that succeed. -/
theorem mimics_after {a a' : α} {x x' : Cursor} (h : p.Runs w.fst c a x) (h' : p'.Runs w.snd c' a' x')
    (hf : (f a).Mimics w Q x x' (f' a')) : (p >>= f).Mimics w Q c c' (p' >>= f') := by
  obtain ⟨hr, hcur⟩ := bind_of_runs (f := f) h
  obtain ⟨hr', hcur'⟩ := bind_of_runs (f := f') h'
  cases hf with
  | ok ha hb hc => exact .ok (hr.trans ha) (hr'.trans hb) (by rwa [hcur, hcur'])
  | error ha hb => exact .error (hr.trans ha) (hr'.trans hb)
  | lost hl ha he => exact .lost hl (hr.trans ha) he

theorem Mimics.bind_runs (hp : p.Mimics w P c c' p')
    (hf : ∀ a x x', p.Runs w.fst c a x → p'.Runs w.snd c' a x' → P x x' →
      (f a).Mimics w Q x x' (f' a)) : (p >>= f).Mimics w Q c c' (p' >>= f') := by
  cases hp with
  | @ok a ha hb hc => exact mimics_after ⟨ha, rfl⟩ ⟨hb, rfl⟩ (hf a _ _ ⟨ha, rfl⟩ ⟨hb, rfl⟩ hc)
  | error ha hb => exact .error (bind_of_error ha) (bind_of_error hb)
  | lost hl ha he => exact .lost hl (bind_of_error ha) he

/-- What follows two parsers that answer alike starts from corresponding cursors. -/
theorem Mimics.bind (hp : p.Mimics w P c c' p')
    (hf : ∀ a x x', p.Runs w.fst c a x → P x x' → (f a).Mimics w Q x x' (f' a)) :
    (p >>= f).Mimics w Q c c' (p' >>= f') :=
  hp.bind_runs fun a x x' h _ => hf a x x' h

/-- A speculation that both take back leaves both where they were. -/
theorem Mimics.speculate {f f' : Option α → Parse β} (hp : p.Mimics w P c c' p')
    (hsome : ∀ a x x', p.Runs w.fst c a x → P x x' → (f (some a)).Mimics w Q x x' (f' (some a)))
    (hnone : (f none).Mimics w Q c c' (f' none)) :
    (Parse.speculate p >>= f).Mimics w Q c c' (Parse.speculate p' >>= f') := by
  cases hp with
  | @ok a ha hb hc =>
    exact mimics_after (speculate_of_ok ha) (speculate_of_ok hb) (hsome a _ _ ⟨ha, rfl⟩ hc)
  | @error e ha hb =>
    cases he : e.isTooDeep with
    | true =>
      exact .error (bind_of_error (speculate_of_tooDeep ha he))
        (bind_of_error (speculate_of_tooDeep hb he))
    | false => exact mimics_after (speculate_of_error ha he) (speculate_of_error hb he) hnone
  | lost hl ha he => exact .lost hl (bind_of_error (speculate_of_tooDeep ha he)) he

end

theorem mimics_note (n n' : Note) {f f' : Unit → Parse β} (hf : (f ()).Mimics w Q c c' (f' ())) :
    (note n >>= f).Mimics w Q c c' (note n' >>= f') :=
  mimics_after (runs_note.2 rfl) (runs_note.2 rfl) hf

theorem mimics_restore (saved saved' : Cursor) {f f' : Unit → Parse β}
    (hf : (f ()).Mimics w Q saved saved' (f' ())) :
    (restore saved >>= f).Mimics w Q c c' (restore saved' >>= f') :=
  mimics_after (runs_restore.2 rfl) (runs_restore.2 rfl) hf

/-- A jump to an index inside both streams. -/
theorem mimics_seek {i i' : Nat} (hi : i ≤ w.fst.tokens.size) (hi' : i' ≤ w.snd.tokens.size)
    {f f' : Unit → Parse β}
    (hf : (f ()).Mimics w Q { c with pos := i } { c' with pos := i' } (f' ())) :
    (seek i >>= f).Mimics w Q c c' (seek i' >>= f') :=
  mimics_after (runs_seek.2 (by rw [Nat.min_eq_left hi])) (runs_seek.2 (by rw [Nat.min_eq_left hi'])) hf

theorem mimics_pure (a : α) (h : P c c') : (pure a : Parse α).Mimics w P c c' (pure a) := .ok rfl rfl h

theorem mimics_reject (h : w.Sees z lo c c') (rule : Rule) (expected : List Kind) :
    (reject rule expected : Parse α).Mimics w P c c' (reject rule expected) := by
  refine .error rfl ?_
  show Except.error (errorAt w.snd c' rule _) = _
  rw [h.errorAt_eq]

theorem Mimics.called_left {p p' : Parse α} (h : p.Mimics w P c c' p') :
    (called p).Mimics w P c c' p' := by
  cases h with
  | ok ha hb hc => exact .ok ha hb hc
  | error ha hb => exact .error ha hb
  | lost hl ha he => exact .lost hl ha he

theorem Mimics.called_right {p p' : Parse α} (h : p.Mimics w P c c' p') :
    p.Mimics w P c c' (called p') := by
  cases h with
  | ok ha hb hc => exact .ok ha hb hc
  | error ha hb => exact .error ha hb
  | lost hl ha he => exact .lost hl ha he

/-! ### Looking and moving -/

/-- Both see the same token, or none; or only the second sees the end of the input. -/
theorem mimics_current (h : w.Sees z lo c c') {f f' : Option Token → Parse β}
    (hf : ∀ t, w.snd.tokens[c'.pos]? = t → (f t).Mimics w Q c c' (f' t))
    (hend : ∀ t : Token, t.kind = .eof → w.snd.tokens[c'.pos]? = some t →
      (f none).Mimics w Q c c' (f' (some t))) :
    (current >>= f).Mimics w Q c c' (current >>= f') := by
  rcases h.token_cases with ⟨htoken, -⟩ | ⟨-, hfst, hsnd⟩
  · exact mimics_after (runs_current.2 ⟨htoken, rfl⟩) (runs_current.2 ⟨rfl, rfl⟩) (hf _ rfl)
  · exact mimics_after (runs_current.2 ⟨hfst, rfl⟩) (runs_current.2 ⟨hsnd, rfl⟩) (hend _ rfl hsnd)

theorem mimics_kind (h : w.Sees z lo c c') {f f' : Kind → Parse β}
    (hf : (f (w.snd.kindAt c'.pos)).Mimics w Q c c' (f' (w.snd.kindAt c'.pos))) :
    (kind >>= f).Mimics w Q c c' (kind >>= f') :=
  mimics_after (runs_kind.2 ⟨h.kindAt_eq, rfl⟩) (runs_kind.2 ⟨rfl, rfl⟩) hf

theorem mimics_at? (h : w.Sees z lo c c') (k : Kind) {f f' : Bool → Parse β}
    (hf : (f (decide (w.snd.kindAt c'.pos = k))).Mimics w Q c c'
      (f' (decide (w.snd.kindAt c'.pos = k)))) :
    (at? k >>= f).Mimics w Q c c' (at? k >>= f') :=
  mimics_after (runs_at?.2 ⟨by rw [h.kindAt_eq], rfl⟩) (runs_at?.2 ⟨rfl, rfl⟩) hf

theorem runs_bump_of_ne {s : Stream} (h : s.kindAt c.pos ≠ .eof) :
    bump.Runs s c () { c with pos := c.pos + 1 } := ⟨rfl, by rw [bump, if_neg h]⟩

theorem runs_skip_of_eq {s : Stream} {k : Kind} (h : s.kindAt c.pos = k) (he : k ≠ .eof) :
    (skip k).Runs s c true { c with pos := c.pos + 1 } := by
  obtain ⟨t, ht, hk⟩ := Stream.exists_token_of_kindAt h he
  exact (runs_skip he).2 (.inl ⟨⟨t, ⟨ht, hk ▸ he, rfl⟩, hk⟩, rfl⟩)

theorem expect_of_ne {s : Stream} {k : Kind} (rule : Rule) (h : s.kindAt c.pos ≠ k) :
    (expect k rule s c).result = .error (errorAt s c rule (.unexpected (.ofList [k]))) := by
  refine (bind_of_runs (runs_current.2 ⟨rfl, rfl⟩)).1.trans ?_
  cases ht : s.tokens[c.pos]? with
  | none => rfl
  | some t =>
    rw [Stream.kindAt_of_token ht] at h
    dsimp only
    rw [if_neg h]
    rfl

theorem exists_runs_expect {s : Stream} {k : Kind} (rule : Rule) (h : s.kindAt c.pos = k) (he : k ≠ .eof) :
    ∃ t, (expect k rule).Runs s c t { c with pos := c.pos + 1 } := by
  obtain ⟨t, ht, hk⟩ := Stream.exists_token_of_kindAt h he
  exact ⟨t, (runs_expect he).2 ⟨⟨ht, hk ▸ he, rfl⟩, hk⟩⟩

theorem mimics_bump (h : w.Sees z lo c c') (he : w.snd.kindAt c'.pos ≠ .eof)
    {f f' : Unit → Parse β}
    (hf : (f ()).Mimics w Q { c with pos := c.pos + 1 } { c' with pos := c'.pos + 1 } (f' ())) :
    (bump >>= f).Mimics w Q c c' (bump >>= f') :=
  mimics_after (runs_bump_of_ne (h.kindAt_eq ▸ he)) (runs_bump_of_ne he) hf

theorem mimics_skip (h : w.Sees z lo c c') {k : Kind} (he : k ≠ .eof) {f f' : Bool → Parse β}
    (htrue : w.snd.kindAt c'.pos = k →
      (f true).Mimics w Q { c with pos := c.pos + 1 } { c' with pos := c'.pos + 1 } (f' true))
    (hfalse : w.snd.kindAt c'.pos ≠ k → (f false).Mimics w Q c c' (f' false)) :
    (skip k >>= f).Mimics w Q c c' (skip k >>= f') := by
  by_cases hk : w.snd.kindAt c'.pos = k
  · exact mimics_after (runs_skip_of_eq (h.kindAt_eq.trans hk) he) (runs_skip_of_eq hk he) (htrue hk)
  · exact mimics_after ((runs_skip he).2 (.inr ⟨h.kindAt_eq ▸ hk, rfl, rfl⟩))
      ((runs_skip he).2 (.inr ⟨hk, rfl, rfl⟩)) (hfalse hk)

theorem mimics_expect (h : w.Sees z lo c c') {k : Kind} (he : k ≠ .eof) (rule : Rule)
    {f f' : Token → Parse β}
    (hf : ∀ t, w.snd.kindAt c'.pos = k →
      (f t).Mimics w Q { c with pos := c.pos + 1 } { c' with pos := c'.pos + 1 } (f' t)) :
    (expect k rule >>= f).Mimics w Q c c' (expect k rule >>= f') := by
  by_cases hk : w.snd.kindAt c'.pos = k
  · obtain ⟨t, ht, hkt⟩ := Stream.exists_token_of_kindAt hk he
    have takes : ∀ {s : Stream} {x : Cursor}, s.tokens[x.pos]? = some t →
        (expect k rule).Runs s x t { x with pos := x.pos + 1 } := fun hx =>
      (runs_expect he).2 ⟨⟨hx, hkt ▸ he, rfl⟩, hkt⟩
    have hne : w.snd.kindAt c'.pos ≠ .eof := hk ▸ he
    exact mimics_after (takes ((h.token_eq hne).trans ht)) (takes ht) (hf t hk)
  · refine .error (bind_of_error (expect_of_ne rule (h.kindAt_eq ▸ hk))) (bind_of_error ?_)
    rw [expect_of_ne rule hk, h.errorAt_eq]

theorem mimics_expectIdent (h : w.Sees z lo c c') (rule : Rule) {f f' : String → Parse β}
    (hf : ∀ name, w.Sees z (lo + 1) { c with pos := c.pos + 1 } { c' with pos := c'.pos + 1 } →
      (f name).Mimics w Q { c with pos := c.pos + 1 } { c' with pos := c'.pos + 1 } (f' name)) :
    (expectIdent rule >>= f).Mimics w Q c c' (expectIdent rule >>= f') := by
  have hname : (expectIdent rule).Mimics w (fun x x' => w.snd.kindAt c'.pos = .ident ∧
      x = { c with pos := c.pos + 1 } ∧ x' = { c' with pos := c'.pos + 1 }) c c' (expectIdent rule) :=
    mimics_expect h (by decide) rule fun t hk => mimics_pure _ ⟨hk, rfl, rfl⟩
  refine hname.bind fun name x x' _ hx => ?_
  obtain ⟨hk, rfl, rfl⟩ := hx
  exact hf name (h.bump (by rw [hk]; rfl) (by rw [hk]; decide))

/-- One more level, which only the first may not be allowed to open. -/
theorem mimics_descend (h : w.Sees z lo c c') {f f' : Unit → Parse β}
    (hf : w.Sees z lo { c with depth := c.depth + 1 } { c' with depth := c'.depth + 1 } →
      (f ()).Mimics w Q { c with depth := c.depth + 1 } { c' with depth := c'.depth + 1 } (f' ())) :
    (descend >>= f).Mimics w Q c c' (descend >>= f') := by
  have hd := h.depth_eq
  have hm := h.maxDepth_eq
  by_cases hfst : c.depth < w.fst.maxDepth
  · have hsnd : c'.depth < w.snd.maxDepth := by omega
    exact mimics_after (runs_descend.2 ⟨hfst, rfl⟩) (runs_descend.2 ⟨hsnd, rfl⟩)
      (hf (h.level (by omega)))
  · have herr : ∀ {s : Stream} {x : Cursor}, ¬ x.depth < s.maxDepth →
        (descend s x).result = .error (errorAt s x .term (.tooDeep s.maxDepth)) := by
      intro s x hx
      rw [descend, if_pos (by omega)]
    by_cases hsnd : c'.depth < w.snd.maxDepth
    · exact .lost (by omega) (bind_of_error (herr hfst)) rfl
    · refine .error (bind_of_error (herr hfst)) (bind_of_error ?_)
      rw [herr hsnd, h.errorAt_eq, hm]

/-- A level closed again. -/
theorem mimics_ascend {f f' : Unit → Parse β}
    (hf : (f ()).Mimics w Q { c with depth := c.depth - 1 } { c' with depth := c'.depth - 1 } (f' ())) :
    (ascend >>= f).Mimics w Q c c' (ascend >>= f') :=
  mimics_after (runs_ascend.2 rfl) (runs_ascend.2 rfl) hf

/-! ### Lists -/

/-- What may follow the closing bracket of a zone. -/
abbrev Exits (w : Window) (z : Zone) (lo : Nat) (Q : Cursor → Cursor → Prop) : Prop :=
  ∀ x x', w.Sees z lo x x' → (w.snd.kindAt x'.pos).bracket = .closing →
    Q { x with pos := x.pos + 1 } { x' with pos := x'.pos + 1 }

/-- Items inside brackets, up to the one that closes them. -/
theorem mimics_itemsUntil {close : Kind} (hclose : close.bracket = .closing) {begins : Kind → Bool}
    {rule : Rule} {expected : List Kind} {item item' : Parse α} (h : w.Sees z lo c c')
    (hitem : ∀ {x x'}, w.Sees z lo x x' → begins (w.snd.kindAt x'.pos) = true →
      item.Mimics w (w.Sees z (x'.pos + 1)) x x' item')
    (hexit : Exits w z lo Q) :
    (itemsUntil close begins rule expected item).Mimics w Q c c'
      (itemsUntil close begins rule expected item') := by
  have he : close ≠ .eof := by
    rintro rfl
    cases hclose
  have hwithin : ∀ (bound bound' : Nat) {x x' : Cursor}, w.Sees z lo x x' →
      w.limit z < x'.pos + bound → w.limit z < x'.pos + bound' →
      (itemsWithin close begins rule expected item bound).Mimics w Q x x'
        (itemsWithin close begins rule expected item' bound') := by
    intro bound
    induction bound with
    | zero =>
      intro bound' x x' hx hlt _
      have := hx.pos_le
      omega
    | succ bound ih =>
      intro bound' x x' hx hlt hlt'
      obtain ⟨bound', rfl⟩ : ∃ n, bound' = n + 1 := by
        have := hx.pos_le
        exact ⟨bound' - 1, by omega⟩
      refine mimics_skip hx he (fun hk => ?_) (fun _ => mimics_kind hx ?_)
      · exact mimics_pure [] (hexit x x' hx (hk ▸ hclose))
      · by_cases hb : begins (w.snd.kindAt x'.pos) = true
        · rw [if_pos hb, if_pos hb]
          refine (hitem hx hb).bind fun a y y' _ hy => ?_
          have hle := hx.le_pos
          have hpos := hy.le_pos
          refine (ih bound' (hy.mono (by omega)) (by omega) (by omega)).bind ?_
          exact fun as _ _ _ hQ => mimics_pure (a :: as) hQ
        · rw [if_neg hb, if_neg hb]
          exact mimics_reject hx rule expected
  refine mimics_after (runs_remaining.2 ⟨rfl, rfl⟩) (runs_remaining.2 ⟨rfl, rfl⟩) ?_
  exact hwithin _ _ h h.lt_remaining.1 h.lt_remaining.2

end Parse

end TermLang
