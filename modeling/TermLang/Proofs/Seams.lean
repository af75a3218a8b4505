import TermLang.Proofs.TermRuns

/-!
# Seams

Two streams may agree up to a seam, where they go on differently: one with whatever stood there, the
other with a token that goes on with no term. Outside brackets every bracket that opens before the seam
is closed before it, so what stands in brackets is seen alike in both (`Abreast.enter`). A run that ends
before the seam then arrives at the same place in the other stream.
-/

namespace TermLang

/-! ## Outside brackets -/

/-- From one index to another past tokens that are no brackets, and past pairs of brackets with what
stands between them. -/
inductive Stream.Reaches (s : Stream) : Nat → Nat → Prop
  | refl (i : Nat) : s.Reaches i i
  | plain {i j : Nat} : (s.kindAt i).bracket = .neither → s.kindAt i ≠ .eof →
      s.Reaches (i + 1) j → s.Reaches i j
  | pair {i close j : Nat} : (s.kindAt i).bracket = .opening → s.matchingClose? i = some close →
      s.Reaches (close + 1) j → s.Reaches i j

namespace Stream

variable {s : Stream} {i j k close : Nat}

namespace Reaches

theorem le (h : s.Reaches i j) : i ≤ j := by
  induction h with
  | refl => exact Nat.le_refl _
  | plain _ _ _ ih => omega
  | pair hb hclose _ ih =>
    have := lt_of_matchingClose? hb hclose
    omega

theorem trans (h₁ : s.Reaches i j) (h₂ : s.Reaches j k) : s.Reaches i k := by
  induction h₁ with
  | refl => exact h₂
  | plain hb he _ ih => exact .plain hb he (ih h₂)
  | pair hb hclose _ ih => exact .pair hb hclose (ih h₂)

/-- Going on past a token that is no bracket. -/
theorem of_plain (h : s.Reaches i j) (hb : (s.kindAt i).bracket = .neither) (hlt : i < j) :
    s.Reaches (i + 1) j := by
  cases h with
  | refl => omega
  | plain _ _ h => exact h
  | pair hb' =>
    rw [hb] at hb'
    cases hb'

/-- Going on past a pair of brackets. -/
theorem of_opening (h : s.Reaches i j) (hb : (s.kindAt i).bracket = .opening) (hlt : i < j) :
    ∃ close, s.matchingClose? i = some close ∧ close < j ∧ s.Reaches (close + 1) j := by
  cases h with
  | refl => omega
  | plain hb' =>
    rw [hb] at hb'
    cases hb'
  | pair _ hclose h => exact ⟨_, hclose, h.le, h⟩

/-- Of two indices that are reached the later one is reached from the earlier one. -/
theorem tail (h₁ : s.Reaches i j) (h₂ : s.Reaches i k) (hle : j ≤ k) : s.Reaches j k := by
  induction h₁ with
  | refl => exact h₂
  | @plain i j hb _ h ih => exact ih (h₂.of_plain hb (by have := h.le; omega)) hle
  | @pair i close j hb hclose h ih =>
    have hlt := lt_of_matchingClose? hb hclose
    obtain ⟨close', hclose', -, h'⟩ := h₂.of_opening hb (by have := h.le; omega)
    rw [hclose, Option.some.injEq] at hclose'
    subst hclose'
    exact ih h' hle

end Reaches

/-- The end of a bracketed row is reached from its beginning. -/
theorem Row.reaches {ys : List Terminal} (h : s.Row i ys j) (hb : Bracketed ys) : s.Reaches i j := by
  induction hb generalizing i with
  | nil =>
    cases h
    exact .refl _
  | plain hy he _ ih =>
    have hk := h.kindAt
    cases h with
    | cons _ _ h => exact .plain (hk ▸ hy) (hk ▸ he) (ih h)
  | @pair o c inner ys hp hinner _ _ ih =>
    obtain ⟨m, hpair, hrest⟩ := h.split
    have hclose := matchingClose?_of_row hp hpair hinner
    have hm := hpair.stop_eq
    rw [Terminal.within, List.length_cons] at hm
    have hopening : (s.kindAt i).bracket = .opening := by
      rw [hpair.kindAt]
      exact (Kind.bracket_of_partner? hp).1
    refine .pair hopening hclose ?_
    rw [show m - 1 + 1 = m by omega]
    exact ih hrest

end Stream

/-! ## The seam -/

/-- A kind that can go on with a term which could as well end before it. -/
def extendsTerm (k : Kind) : Bool :=
  [.dot, .bracketOpen, .parenOpen, .braceOpen, .equals, .colon, .fatArrow].contains k

theorem extendsTerm_of_continuesChain {r : Restrictions} {k : Kind}
    (h : Grammar.continuesChain r k = true) : extendsTerm k = true := by
  cases k <;> first | rfl | cases h

namespace Window

/-- The streams agree up to an index of the second one, which stands outside brackets; and there the
second one goes on with no term. -/
structure Seam (w : Window) (stop : Nat) : Prop where
  maxDepth_eq : w.fst.maxDepth = w.snd.maxDepth
  token_eq : ∀ i < stop, w.fst.tokens[i + w.shift]? = w.snd.tokens[i]?
  le_fst : stop + w.shift ≤ w.fst.tokens.size
  le_snd : stop ≤ w.snd.tokens.size
  reaches : w.snd.Reaches 0 stop
  ends : extendsTerm (w.snd.kindAt stop) = false
  le_last : stop ≤ w.last

/-- The cursors correspond, outside brackets and not beyond the seam. -/
structure Abreast (w : Window) (stop : Nat) (c c' : Cursor) : Prop where
  pos_eq : c.pos = c'.pos + w.shift
  depth_eq : c.depth = c'.depth + w.lift
  reached : w.snd.Reaches 0 c'.pos
  le_stop : c'.pos ≤ stop

variable {w : Window} {stop : Nat} {c c' x : Cursor}

theorem Seam.kindAt_eq (hw : w.Seam stop) {i : Nat} (hlt : i < stop) :
    w.fst.kindAt (i + w.shift) = w.snd.kindAt i := by
  rw [Stream.kindAt, Stream.kindAt, hw.token_eq _ hlt]

namespace Abreast

theorem token_eq (h : w.Abreast stop c c') (hw : w.Seam stop) (hlt : c'.pos < stop) :
    w.fst.tokens[c.pos]? = w.snd.tokens[c'.pos]? := by
  rw [h.pos_eq, hw.token_eq _ hlt]

theorem kindAt_eq (h : w.Abreast stop c c') (hw : w.Seam stop) (hlt : c'.pos < stop) :
    w.fst.kindAt c.pos = w.snd.kindAt c'.pos := by
  rw [h.pos_eq, hw.kindAt_eq hlt]

theorem kindAt_next (h : w.Abreast stop c c') (hw : w.Seam stop) (hlt : c'.pos + 1 < stop) :
    w.fst.kindAt (c.pos + 1) = w.snd.kindAt (c'.pos + 1) := by
  rw [h.pos_eq, Nat.add_right_comm, hw.kindAt_eq hlt]

/-- What does not go on with a term at the first cursor does not do so at the second. -/
theorem kindAt_ne (h : w.Abreast stop c c') (hw : w.Seam stop) {k : Kind} (hk : extendsTerm k = true)
    (hne : w.fst.kindAt c.pos ≠ k) : w.snd.kindAt c'.pos ≠ k := by
  by_cases hlt : c'.pos < stop
  · rwa [← h.kindAt_eq hw hlt]
  · have hstop : c'.pos = stop := Nat.le_antisymm h.le_stop (Nat.not_lt.1 hlt)
    rintro rfl
    rw [hstop, hw.ends] at hk
    cases hk

theorem not_continuesChain (h : w.Abreast stop c c') (hw : w.Seam stop) {r : Restrictions}
    (hk : Grammar.continuesChain r (w.fst.kindAt c.pos) = false) :
    Grammar.continuesChain r (w.snd.kindAt c'.pos) = false := by
  by_cases hlt : c'.pos < stop
  · rwa [← h.kindAt_eq hw hlt]
  · have hstop : c'.pos = stop := Nat.le_antisymm h.le_stop (Nat.not_lt.1 hlt)
    rw [hstop, ← Bool.not_eq_true]
    intro hc
    have := extendsTerm_of_continuesChain hc
    rw [hw.ends] at this
    cases this

theorem level (h : w.Abreast stop c c') {d d' : Nat} (hd : d = d' + w.lift) :
    w.Abreast stop { c with depth := d } { c' with depth := d' } :=
  { h with depth_eq := hd }

/-- Before a place that is not beyond the seam, the second cursor is before the seam. -/
theorem lt_stop (h : w.Abreast stop c c') (hlt : c.pos < x.pos) (hx : x.pos ≤ stop + w.shift) :
    c'.pos < stop := by
  have := h.pos_eq
  omega

/-- Past a token that is no bracket. -/
theorem takes (h : w.Abreast stop c c') (hw : w.Seam stop) {t : Token} (ht : w.fst.Takes c t x)
    (hb : t.kind.bracket = .neither) (hx : x.pos ≤ stop + w.shift) :
    ∃ x', w.snd.Takes c' t x' ∧ w.Abreast stop x x' := by
  have hpos := h.pos_eq
  rw [ht.next] at hx ⊢
  simp only at hx
  have hlt : c'.pos < stop := by omega
  have htoken : w.snd.tokens[c'.pos]? = some t := (h.token_eq hw hlt).symm.trans ht.token
  have hk := Stream.kindAt_of_token htoken
  refine ⟨{ c' with pos := c'.pos + 1 }, ⟨htoken, ht.kind_ne_eof, rfl⟩, { h with
    pos_eq := by show c.pos + 1 = c'.pos + 1 + w.shift; omega
    reached := h.reached.trans (.plain (hk ▸ hb) (hk ▸ ht.kind_ne_eof) (.refl _))
    le_stop := hlt }⟩

/-- A bracket that opens before the seam is closed before it, in both streams at once. -/
theorem matchingClose?_eq (h : w.Abreast stop c c') (hw : w.Seam stop) (hlt : c'.pos < stop)
    (hb : (w.snd.kindAt c'.pos).bracket = .opening) :
    ∃ close, w.snd.matchingClose? c'.pos = some close ∧ close < stop ∧
      w.fst.matchingClose? c.pos = some (close + w.shift) ∧ w.snd.Reaches 0 (close + 1) := by
  have hreach := h.reached.tail hw.reaches h.le_stop
  obtain ⟨close, hclose, hstop, -⟩ := hreach.of_opening hb hlt
  refine ⟨close, hclose, hstop, ?_, h.reached.trans (.pair hb hclose (.refl _))⟩
  have hagree : Stream.closeIn (w.fst.tokens.toList.drop c.pos) c'.pos 0 = some close := by
    refine Stream.closeIn_of_agree hclose fun m hm => ?_
    rw [List.getElem?_drop, List.getElem?_drop, Array.getElem?_toList, Array.getElem?_toList,
      ← hw.token_eq _ (by omega : c'.pos + m < stop), h.pos_eq, Nat.add_right_comm]
  rw [Stream.matchingClose?, h.pos_eq, Stream.closeIn_shift, ← h.pos_eq, hagree]
  rfl

/-- Behind an opening bracket there is a zone that is seen alike; it is left abreast. -/
theorem enter (h : w.Abreast stop c c') (hw : w.Seam stop) (hlt : c'.pos < stop)
    (hb : (w.snd.kindAt c'.pos).bracket = .opening) :
    ∃ z, w.Sees z (c'.pos + 1) { c with pos := c.pos + 1 } { c' with pos := c'.pos + 1 } ∧
      ∀ lo, Parse.Exits w z lo (w.Abreast stop) := by
  obtain ⟨close, hclose, hstop, -, hreached⟩ := h.matchingClose?_eq hw hlt hb
  rw [Stream.matchingClose?_of_opening hb] at hclose
  have hpos := h.pos_eq
  refine ⟨.fence close, ⟨hw.maxDepth_eq, ?_, h.depth_eq, Nat.le_refl _, ?_, hclose, ?_⟩, ?_⟩
  · show c.pos + 1 = c'.pos + 1 + w.shift
    omega
  · have := hw.le_last
    show close ≤ w.last
    omega
  · exact fun m _ hm => hw.token_eq m (by omega)
  · intro lo y y' hy hclosing
    have hy' : y'.pos = close := hy.pos_eq_close hclosing
    refine ⟨?_, hy.depth_eq, ?_, ?_⟩
    · have := hy.pos_eq
      show y.pos + 1 = y'.pos + 1 + w.shift
      omega
    · rw [hy']
      exact hreached
    · show y'.pos + 1 ≤ stop
      omega

/-- Past a bracket that opens, into a zone that is seen alike. -/
theorem opens (h : w.Abreast stop c c') (hw : w.Seam stop) {t : Token} (ht : w.fst.Takes c t x)
    (hb : t.kind.bracket = .opening) (hx : x.pos ≤ stop + w.shift) :
    ∃ x' z, w.snd.Takes c' t x' ∧ w.Sees z (c'.pos + 1) x x' ∧
      ∀ lo, Parse.Exits w z lo (w.Abreast stop) := by
  have hpos := h.pos_eq
  have hnext := ht.next
  have hlt : c'.pos < stop := h.lt_stop (by rw [hnext]; exact Nat.lt_succ_self _) hx
  have htoken : w.snd.tokens[c'.pos]? = some t := (h.token_eq hw hlt).symm.trans ht.token
  have hk := Stream.kindAt_of_token htoken
  obtain ⟨z, hz, hexit⟩ := h.enter hw hlt (hk ▸ hb)
  exact ⟨_, z, ⟨htoken, ht.kind_ne_eof, rfl⟩, hnext ▸ hz, hexit⟩

end Abreast

end Window

/-! ## Runs that are carried over -/

namespace Parse

variable {α β : Type} {w : Window} {stop : Nat} {c c' x y : Cursor}

/-- The parser succeeds in the second stream, abreast of a cursor of the first one. -/
def Arrives (p : Parse α) (w : Window) (stop : Nat) (c' : Cursor) (a : α) (x : Cursor) : Prop :=
  ∃ x', p.Runs w.snd c' a x' ∧ w.Abreast stop x x'

theorem arrives_pure {x' : Cursor} (h : w.Abreast stop x x') (a : α) :
    (pure a : Parse α).Arrives w stop x' a x := ⟨x', runs_pure.2 ⟨rfl, rfl⟩, h⟩

theorem arrives_after {p : Parse α} {f : α → Parse β} {a : α} {b : β} {y' : Cursor}
    (h : p.Runs w.snd c' a y') (hf : (f a).Arrives w stop y' b x) :
    (p >>= f).Arrives w stop c' b x := by
  obtain ⟨x', hrun, hx⟩ := hf
  exact ⟨x', runs_bind.2 ⟨a, y', h, hrun⟩, hx⟩

theorem Arrives.bind {p : Parse α} {f : α → Parse β} {a : α} {b : β} (h : p.Arrives w stop c' a y)
    (hf : ∀ y', w.Abreast stop y y' → (f a).Arrives w stop y' b x) :
    (p >>= f).Arrives w stop c' b x := by
  obtain ⟨y', hrun, hy⟩ := h
  exact arrives_after hrun (hf y' hy)

/-- A parser that answers alike succeeds where the other does. -/
theorem Mimics.arrives {p p' : Parse α} {a : α} (h : p.Mimics w (w.Abreast stop) c c' p')
    (hrun : p.Runs w.fst c a x) : p'.Arrives w stop c' a x := by
  obtain ⟨hr, rfl⟩ := hrun
  cases h with
  | ok ha hb hc =>
    rw [hr, Except.ok.injEq] at ha
    exact ⟨_, ⟨ha ▸ hb, rfl⟩, hc⟩
  | error ha =>
    rw [hr] at ha
    cases ha
  | lost _ ha =>
    rw [hr] at ha
    cases ha

/-- So does a speculation, and it takes back what the other takes back. -/
theorem Mimics.speculate_arrives {p p' : Parse α} {o : Option α}
    (h : p.Mimics w (w.Abreast stop) c c' p') (hrun : (Parse.speculate p).Runs w.fst c o x)
    (hc : w.Abreast stop c c') : (Parse.speculate p').Arrives w stop c' o x := by
  obtain ⟨hr, rfl⟩ := hrun
  have fails : ∀ {e : SyntaxError}, (p w.fst c).result = .error e → e.isTooDeep = false := by
    intro e ha
    by_contra he
    rw [speculate_of_tooDeep ha (Bool.not_eq_false _ ▸ he)] at hr
    cases hr
  cases h with
  | ok ha hb hab =>
    obtain ⟨ho, hx⟩ := speculate_of_ok ha
    obtain ⟨ho', hx'⟩ := speculate_of_ok hb
    rw [ho, Except.ok.injEq] at hr
    exact ⟨_, ⟨hr ▸ ho', hx'⟩, hx ▸ hab⟩
  | error ha hb =>
    obtain ⟨ho, hx⟩ := speculate_of_error ha (fails ha)
    obtain ⟨ho', hx'⟩ := speculate_of_error hb (fails ha)
    rw [ho, Except.ok.injEq] at hr
    exact ⟨c', ⟨hr ▸ ho', hx'⟩, by rwa [hx]⟩
  | lost _ ha he => exact absurd (fails ha) (by rw [he]; decide)

/-! ### Steps -/

section

variable (hw : w.Seam stop) (h : w.Abreast stop c c')

include hw h

theorem arrives_expect {k : Kind} {rule : Rule} {t : Token} (hrun : (expect k rule).Runs w.fst c t x)
    (he : k ≠ .eof) (hb : k.bracket = .neither) (hx : x.pos ≤ stop + w.shift) :
    (expect k rule).Arrives w stop c' t x := by
  obtain ⟨ht, hk⟩ := (runs_expect he).1 hrun
  obtain ⟨x', ht', hx'⟩ := h.takes hw ht (hk ▸ hb) hx
  exact ⟨x', (runs_expect he).2 ⟨ht', hk⟩, hx'⟩

theorem arrives_expectIdent {rule : Rule} {name : String}
    (hrun : (expectIdent rule).Runs w.fst c name x) (hx : x.pos ≤ stop + w.shift) :
    (expectIdent rule).Arrives w stop c' name x := by
  obtain ⟨t, ht, hk, hname⟩ := runs_expectIdent.1 hrun
  obtain ⟨x', ht', hx'⟩ := h.takes hw ht (by rw [hk]; rfl) hx
  exact ⟨x', runs_expectIdent.2 ⟨t, ht', hk, hname⟩, hx'⟩

theorem arrives_bump {k : Kind} {u : Unit} (hrun : bump.Runs w.fst c u x)
    (hk : w.fst.kindAt c.pos = k) (he : k ≠ .eof) (hb : k.bracket = .neither)
    (hx : x.pos ≤ stop + w.shift) : bump.Arrives w stop c' u x := by
  obtain ⟨t, ht, hkt⟩ := (runs_bump hk he).1 hrun
  obtain ⟨x', ht', hx'⟩ := h.takes hw ht (hkt ▸ hb) hx
  exact ⟨x', (runs_bump (ht'.kindAt.trans hkt) he).2 ⟨t, ht', hkt⟩, hx'⟩

theorem arrives_current {f : Option Token → Parse β} {b : β} (hlt : c'.pos < stop)
    (hf : (f w.fst.tokens[c.pos]?).Arrives w stop c' b x) : (current >>= f).Arrives w stop c' b x :=
  arrives_after (runs_current.2 ⟨(h.token_eq hw hlt).symm, rfl⟩) hf

end

end Parse

end TermLang
