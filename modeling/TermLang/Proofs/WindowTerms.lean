import TermLang.Proofs.Windows

/-!
# The grammar in a window

Every rule of the grammar answers alike at corresponding cursors of a window, if the parsers of terms
given to it do so from there on. A rule that opens brackets goes on in the zone that they close, where
it stays; so it looks behind them only when it has read them. The parser of terms itself answers alike
with any number of terms that may be open inside one another, as long as it suffices for the zone.
-/

namespace TermLang.Grammar

open Parse
open Terminal (within)

/-- Behind an index of the second stream of a window, two parsers of terms answer alike; and they read
terms. -/
structure MimicTerms (w : Window) (start : Nat) (term term' : TermParser) : Prop where
  reads : ReadsTerms term
  reads' : ReadsTerms term'
  mimics : ∀ {z : Zone} {lo : Nat} {c c' : Cursor} (r : Restrictions), w.Sees z lo c c' →
    start < c'.pos → (term r).Mimics w (w.Sees z (c'.pos + 1)) c c' (term' r)

section

variable {w : Window} {start : Nat} {term term' : TermParser} (ht : MimicTerms w start term term')
  {z : Zone} {lo : Nat} {c c' : Cursor} {Q : Cursor → Cursor → Prop}

include ht

/-! ## Annotations, parameters, fields and arguments -/

theorem mimics_termsUntil {close : Kind} (hclose : close.bracket = .closing) (rule : Rule)
    (h : w.Sees z lo c c') (hs : start < lo) (hexit : Exits w z lo Q) :
    (termsUntil term close rule).Mimics w Q c c' (termsUntil term' close rule) :=
  mimics_itemsUntil hclose h
    (fun hx _ => ht.mimics .free hx (Nat.lt_of_lt_of_le hs hx.le_pos)) hexit

theorem mimics_blocked (rule : Rule) (h : w.Sees z lo c c') (hs : start ≤ c'.pos) :
    (blocked term rule).Mimics w (w.Sees z (c'.pos + 1)) c c' (blocked term' rule) := by
  refine mimics_expect h (by decide) rule fun t hk => ?_
  obtain ⟨zi, hi, hexit⟩ := h.here.enter (by rw [hk]; rfl)
  exact mimics_termsUntil ht rfl .blocked hi (by omega) fun x x' hx hb =>
    (hexit _ x x' hx hb).mono (by omega)

theorem mimics_anno (r : Restrictions) (h : w.Sees z lo c c') (hs : start ≤ c'.pos) :
    (anno term r).Mimics w (w.Sees z (c'.pos + 1)) c c' (anno term' r) := by
  have type : ∀ {x x' : Cursor} (sort : Option Spread), w.Sees z (c'.pos + 1) x x' →
      (pure sort >>= fun sort => term r >>= fun t => pure (Anno.mk sort t)).Mimics w
        (w.Sees z (c'.pos + 1)) x x'
        (pure sort >>= fun sort => term' r >>= fun t => pure (Anno.mk sort t)) := by
    intro x x' sort hx
    have hle := hx.le_pos
    refine mimics_after (runs_pure.2 ⟨rfl, rfl⟩) (runs_pure.2 ⟨rfl, rfl⟩) ?_
    refine (ht.mimics r hx (by omega)).bind fun t y y' _ hy => ?_
    exact mimics_pure _ (hy.mono (by omega))
  refine mimics_expect h (by decide) .anno fun t hk => ?_
  have h₁ := h.here.bump (by rw [hk]; rfl) (by rw [hk]; decide)
  refine mimics_kind h₁ ?_
  split
  · rename_i hk₁
    refine mimics_bump h₁ (by rw [hk₁]; decide) ?_
    exact type _ ((h₁.bump (by rw [hk₁]; rfl) (by rw [hk₁]; decide)).mono (by omega))
  · rename_i hk₁
    refine mimics_bump h₁ (by rw [hk₁]; decide) ?_
    exact type _ ((h₁.bump (by rw [hk₁]; rfl) (by rw [hk₁]; decide)).mono (by omega))
  · exact type _ h₁

theorem mimics_anno? (r : Restrictions) (h : w.Sees z lo c c') (hs : start ≤ c'.pos) :
    (anno? term r).Mimics w (w.Sees z c'.pos) c c' (anno? term' r) := by
  refine mimics_at? h .colon ?_
  split
  · refine (mimics_anno ht r h hs).bind fun a x x' _ hx => ?_
    exact mimics_pure _ (hx.mono (by omega))
  · exact mimics_pure _ h.here

theorem mimics_param (h : w.Sees z lo c c') (hs : start ≤ c'.pos) :
    (param term).Mimics w (w.Sees z (c'.pos + 1)) c c' (param term') := by
  refine mimics_expectIdent h.here .param fun name h₁ => ?_
  refine (mimics_anno? ht .free h₁ (Nat.le_succ_of_le hs)).bind fun a x x' _ hx => ?_
  exact mimics_pure _ hx

theorem mimics_paramsUntil {close : Kind} (hclose : close.bracket = .closing) (rule : Rule)
    (h : w.Sees z lo c c') (hs : start ≤ lo) (hexit : Exits w z lo Q) :
    (paramsUntil term close rule).Mimics w Q c c' (paramsUntil term' close rule) :=
  mimics_itemsUntil hclose h (fun hx _ => mimics_param ht hx (Nat.le_trans hs hx.le_pos)) hexit

omit ht in
theorem mimics_shorthand (h : w.Sees z lo c c') :
    shorthand.Mimics w (w.Sees z (c'.pos + 1)) c c' shorthand :=
  mimics_expectIdent h.here .kwArg fun _ h₁ => mimics_pure _ h₁

theorem mimics_given (h : w.Sees z lo c c') (hs : start ≤ c'.pos) :
    (given term).Mimics w (w.Sees z (c'.pos + 1)) c c' (given term') := by
  refine mimics_expectIdent h.here .kwArg fun name h₁ => ?_
  refine mimics_expect h₁ (by decide) .kwArg fun t hk => ?_
  have h₂ := h₁.bump (by rw [hk]; rfl) (by rw [hk]; decide)
  have hle := h₂.le_pos
  refine (ht.mimics .free h₂ (by omega)).bind fun v x x' _ hx => ?_
  exact mimics_pure _ (hx.mono (by omega))

theorem mimics_annotatedName (h : w.Sees z lo c c') (hs : start ≤ c'.pos) :
    (annotatedName term).Mimics w (w.Sees z (c'.pos + 1)) c c' (annotatedName term') := by
  refine mimics_expectIdent h.here .kwArg fun name h₁ => ?_
  refine (mimics_anno ht .beforeAssign h₁ (Nat.le_succ_of_le hs)).bind fun a x x' _ hx => ?_
  have hle := hx.le_pos
  refine mimics_expect hx (by decide) .kwArg fun t hk => ?_
  have h₂ := hx.bump (by rw [hk]; rfl) (by rw [hk]; decide)
  exact mimics_pure _ (h₂.mono (by simp only; omega))

theorem mimics_annotatedField? (h : w.Sees z lo c c') (hs : start ≤ c'.pos) :
    (annotatedField? term).Mimics w (w.Sees z c'.pos) c c' (annotatedField? term') := by
  refine (mimics_annotatedName ht h hs).speculate ?_ (mimics_pure none h.here)
  rintro ⟨name, a⟩ x x' _ hx
  have hle := hx.le_pos
  refine (ht.mimics .free hx (by omega)).bind fun v y y' _ hy => ?_
  exact mimics_pure _ (hy.mono (by omega))

/-- An annotated field, where there is one, has moved the cursors. -/
theorem lt_of_annotatedField? {g : Field} {s : Stream} {c x : Cursor}
    (h : (annotatedField? term).Runs s c (some g) x) : c.pos < x.pos := by
  have hread := annotatedField?_reads ht.reads h
  have hlen := hread.row.stop_eq
  have hpos : 0 < (Field.yield g).length := by cases g <;> simp [Field.yield]
  simp only [Option.elim_some] at hlen
  omega

/-- A field begins with an identifier, so that the token after it is in view. -/
theorem mimics_field (h : w.Sees z lo c c') (hs : start ≤ c'.pos)
    (hk : w.snd.kindAt c'.pos = .ident) :
    (field term).Mimics w (w.Sees z (c'.pos + 1)) c c' (field term') := by
  have hnext := h.kindAt_next (by rw [hk]; rfl) (by rw [hk]; decide)
  refine mimics_after (runs_nthKind.2 ⟨hnext, rfl⟩) (runs_nthKind.2 ⟨rfl, rfl⟩) ?_
  split
  · exact mimics_given ht h hs
  · refine (mimics_annotatedField? ht h hs).bind fun found x x' hrun hx => ?_
    have hle := hx.le_pos
    split
    · exact mimics_pure _ (hx.past h (lt_of_annotatedField? ht hrun))
    · exact (mimics_shorthand hx).weaken fun y y' hy => hy.mono (by omega)
  · exact mimics_shorthand h

theorem mimics_fieldsUntil {close : Kind} (hclose : close.bracket = .closing) (rule : Rule)
    (h : w.Sees z lo c c') (hs : start ≤ lo) (hexit : Exits w z lo Q) :
    (fieldsUntil term close rule).Mimics w Q c c' (fieldsUntil term' close rule) :=
  mimics_itemsUntil hclose h (fun hx hb => mimics_field ht hx (Nat.le_trans hs hx.le_pos)
    (of_decide_eq_true hb)) hexit

theorem mimics_positional (h : w.Sees z lo c c') (hs : start < c'.pos) :
    (positional term).Mimics w (w.Sees z (c'.pos + 1)) c c' (positional term') :=
  (ht.mimics .free h hs).bind fun _ _ _ _ hx => mimics_pure _ hx

theorem mimics_arg (h : w.Sees z lo c c') (hs : start < c'.pos) :
    (arg term).Mimics w (w.Sees z (c'.pos + 1)) c c' (arg term') := by
  refine mimics_at? h .ident ?_
  split
  · rename_i hk
    have hk : w.snd.kindAt c'.pos = .ident := of_decide_eq_true hk
    have hnext := h.kindAt_next (by rw [hk]; rfl) (by rw [hk]; decide)
    refine mimics_after (runs_nthKind.2 ⟨hnext, rfl⟩) (runs_nthKind.2 ⟨rfl, rfl⟩) ?_
    split
    · exact (mimics_given ht h (Nat.le_of_lt hs)).bind fun _ _ _ _ hx => mimics_pure _ hx
    · refine (mimics_annotatedField? ht h (Nat.le_of_lt hs)).bind fun found x x' hrun hx => ?_
      have hle := hx.le_pos
      split
      · exact mimics_pure _ (hx.past h (lt_of_annotatedField? ht hrun))
      · exact (mimics_positional ht hx (by omega)).weaken fun y y' hy => hy.mono (by omega)
    · exact mimics_positional ht h hs
  · exact mimics_positional ht h hs

theorem mimics_argsUntil {close : Kind} (hclose : close.bracket = .closing) (rule : Rule)
    (h : w.Sees z lo c c') (hs : start < lo) (hexit : Exits w z lo Q) :
    (argsUntil term close rule).Mimics w Q c c' (argsUntil term' close rule) :=
  mimics_itemsUntil hclose h (fun hx _ => mimics_arg ht hx (Nat.lt_of_lt_of_le hs hx.le_pos)) hexit

/-! ## Chains -/

theorem mimics_namedApplier (h : w.Sees z lo c c') (hs : start ≤ c'.pos) :
    (namedApplier term).Mimics w (w.Sees z (c'.pos + 1)) c c' (namedApplier term') := by
  refine mimics_expect h (by decide) .namedApplier fun t hk => ?_
  obtain ⟨zi, hi, hexit⟩ := h.here.enter (by rw [hk]; rfl)
  exact mimics_fieldsUntil ht rfl .namedApplier hi (by omega) fun x x' hx hb =>
    (hexit _ x x' hx hb).mono (by omega)

theorem mimics_link (r : Restrictions) (target : Term) (h : w.Sees z lo c c') (hs : start ≤ c'.pos) :
    (link term r target).Mimics w (w.Sees z c'.pos) c c' (link term' r target) := by
  have args : ∀ {k close : Kind} (sort : Applier) (rule : Rule), w.snd.kindAt c'.pos = k →
      k.bracket = .opening → close.bracket = .closing →
      (bump >>= fun _ => argsUntil term close rule >>= fun as =>
        pure (some (Term.apply sort target as))).Mimics w (w.Sees z c'.pos) c c'
      (bump >>= fun _ => argsUntil term' close rule >>= fun as =>
        pure (some (Term.apply sort target as))) := by
    intro k close sort rule hk hopen hclose
    obtain ⟨zi, hi, hexit⟩ := h.here.enter (hk ▸ hopen)
    refine mimics_bump h ?_ ((mimics_argsUntil ht hclose rule hi (by omega)
      fun x x' hx hb => (hexit _ x x' hx hb).mono ?_).bind fun as x x' _ hx => mimics_pure _ hx)
    · rintro he
      rw [← hk, he] at hopen
      cases hopen
    · omega
  refine mimics_kind h ?_
  split
  · rename_i hk
    have h₁ := h.here.bump (by rw [hk]; rfl) (by rw [hk]; decide)
    refine mimics_bump h (by rw [hk]; decide) (mimics_expectIdent h₁ .selector fun name h₂ => ?_)
    exact mimics_pure _ (h₂.mono (by omega))
  · exact args .implicit _ ‹_› rfl rfl
  · exact args .positional _ ‹_› rfl rfl
  · refine (mimics_namedApplier ht h hs).speculate ?_ ?_
    · exact fun fields x x' _ hx => mimics_pure _ (hx.mono (by omega))
    · refine mimics_after (runs_cursor.2 ⟨rfl, rfl⟩) (runs_cursor.2 ⟨rfl, rfl⟩) ?_
      exact mimics_note _ _ (mimics_pure none h.here)
  · rename_i hk
    have h₁ := h.here.bump (by rw [hk]; rfl) (by rw [hk]; decide)
    refine mimics_bump h (by rw [hk]; decide) ?_
    refine (ht.mimics r h₁ (by simp only; omega)).bind fun v x x' _ hx => ?_
    exact mimics_pure _ (hx.mono (by simp only; omega))
  · exact mimics_pure none h.here

/-- The levels that the links opened are closed again in both streams. -/
theorem mimics_chainWithin (r : Restrictions) : ∀ (bound bound' : Nat) (head : Term)
    {lo : Nat} {c c' : Cursor}, w.Sees z lo c c' → start ≤ c'.pos →
    w.limit z < c'.pos + bound → w.limit z < c'.pos + bound' →
    (chainWithin term r bound head).Mimics w (w.Sees z c'.pos) c c'
      (chainWithin term' r bound' head) := by
  intro bound
  induction bound with
  | zero =>
    intro bound' head lo c c' h _ hlt _
    have := h.pos_le
    omega
  | succ bound ih =>
    intro bound' head lo c c' h hs hlt hlt'
    obtain ⟨bound', rfl⟩ : ∃ n, bound' = n + 1 := by
      have := h.pos_le
      exact ⟨bound' - 1, by omega⟩
    refine mimics_kind h ?_
    split
    · refine mimics_descend h fun h₁ => ?_
      refine (mimics_link ht r head h₁ hs).bind fun found x x' hrun hx => ?_
      have hdepth := h.depth_eq
      have hxdepth := hx.depth_eq
      rcases link_reads ht.reads hrun with ⟨longer, ys, rfl, hyield, hread, htarget⟩ | ⟨rfl, rfl⟩
      · have hpos : c.pos < x.pos := by
          have hlen := hread.row.stop_eq
          have hys := Term.length_target_lt htarget
          rw [hyield, List.length_append] at hys
          simp only at hlen
          omega
        have hx := hx.past h hpos
        have hle := hx.le_pos
        refine (ih bound' longer hx (by omega) (by omega) (by omega)).bind fun whole y y' hrun' hy => ?_
        obtain ⟨zs, -, hreads, -⟩ := chainWithin_reads ht.reads _ hrun'
        have hd := hread.depth_eq
        have hd' := hreads.depth_eq
        have hydepth := hy.depth_eq
        refine mimics_ascend (mimics_pure whole ((hy.mono (by omega)).level ?_))
        simp only at hd hd'
        omega
      · refine mimics_ascend (mimics_pure head (hx.level ?_))
        simp only at hxdepth ⊢
        omega
    · exact mimics_pure head h.here

theorem mimics_chain (r : Restrictions) (head : Term) (h : w.Sees z lo c c') (hs : start ≤ c'.pos) :
    (chain term r head).Mimics w (w.Sees z c'.pos) c c' (chain term' r head) :=
  mimics_after (runs_remaining.2 ⟨rfl, rfl⟩) (runs_remaining.2 ⟨rfl, rfl⟩)
    (mimics_chainWithin ht r _ _ head h hs h.lt_remaining.1 h.lt_remaining.2)

/-! ## Bodies and bindings -/

theorem mimics_body (r : Restrictions) (h : w.Sees z lo c c') (hs : start ≤ c'.pos) :
    (body term r).Mimics w (w.Sees z (c'.pos + 1)) c c' (body term' r) := by
  refine mimics_expect h (by decide) .fatArrow fun t hk => ?_
  have h₁ := h.here.bump (by rw [hk]; rfl) (by rw [hk]; decide)
  have hle := h₁.le_pos
  refine mimics_at? h₁ .braceOpen ?_
  split
  · refine (mimics_blocked ht .fatArrow h₁ (by omega)).bind fun ts x x' _ hx => ?_
    exact mimics_pure _ (hx.mono (by omega))
  · refine (ht.mimics r h₁ (by omega)).bind fun t x x' _ hx => ?_
    exact mimics_pure _ (hx.mono (by omega))

theorem mimics_binding (r : Restrictions) (h : w.Sees z lo c c') (hs : start ≤ c'.pos) :
    (binding term r).Mimics w (w.Sees z (c'.pos + 1)) c c' (binding term' r) := by
  refine mimics_expect h (by decide) .letRule fun t hk => ?_
  have h₁ := h.here.bump (by rw [hk]; rfl) (by rw [hk]; decide)
  refine mimics_expectIdent h₁ .letRule fun name h₂ => ?_
  have hle := h₂.le_pos
  refine mimics_kind h₂ ?_
  split
  · refine (mimics_anno? ht .beforeAssign h₂ (by omega)).bind fun a x x' _ hx => ?_
    have hle' := hx.le_pos
    refine mimics_expect hx (by decide) .letRule fun u hu => ?_
    have h₃ := hx.bump (by rw [hu]; rfl) (by rw [hu]; decide)
    refine (ht.mimics r h₃ (by simp only; omega)).bind fun v y y' _ hy => ?_
    exact mimics_pure _ (hy.mono (by simp only; omega))
  · exact mimics_pure _ (h₂.mono (by omega))

/-! ## Loops -/

omit ht in
/-- Behind a closing named application the lookup backwards finds where it begins. -/
theorem exists_opening {s : Stream} {x : Cursor} {target : Term} {fields : List Field} {us : List Term}
    (hread : s.Reads c (Term.applyNamed target fields).yield us x) :
    ∃ i, s.Row c.pos target.yield i ∧
      s.Row i (within .braceOpen .braceClose (fieldsYield fields)) x.pos ∧
      openingBefore?.Runs s x (some i) x ∧ i < s.tokens.size := by
  obtain ⟨i, htarget, hfields⟩ := hread.row.split
  have hlen := hfields.stop_eq
  simp only [within, List.length_cons] at hlen
  obtain ⟨last, hlast⟩ : ∃ last, x.pos = last + 1 := ⟨x.pos - 1, by omega⟩
  have hopen := Stream.matchingOpen?_of_row (o := .braceOpen) rfl (hlast ▸ hfields)
    (bracketed_fieldsYield fields)
  exact ⟨i, htarget, hfields, (runs_openingBefore? hlast).2 ⟨hopen, rfl⟩, hfields.start_lt⟩

omit ht in
/-- The bracket where a closing named application begins is found in both streams. -/
theorem sees_reclaimed {x x' : Cursor} {target : Term} {fields : List Field} {us us' : List Term}
    (h : w.Sees z lo c c') (hx : w.Sees z lo x x')
    (hread : w.fst.Reads c (Term.applyNamed target fields).yield us x)
    (hread' : w.snd.Reads c' (Term.applyNamed target fields).yield us' x') :
    ∃ i, openingBefore?.Runs w.fst x (some (i + w.shift)) x ∧
      openingBefore?.Runs w.snd x' (some i) x' ∧ i + w.shift < w.fst.tokens.size ∧
      i < w.snd.tokens.size ∧
      w.Sees z (c'.pos + 1) { x with pos := i + w.shift } { x' with pos := i } := by
  obtain ⟨j, htarget, -, hopen, hlt⟩ := exists_opening hread
  obtain ⟨i, htarget', -, hopen', hlt'⟩ := exists_opening hread'
  have hpos := h.pos_eq
  have hj := htarget.stop_eq
  have hi := htarget'.stop_eq
  obtain rfl : j = i + w.shift := by omega
  refine ⟨i, hopen, hopen', hlt, hlt', ?_⟩
  have hpast := h.here.past_row htarget' target.bracketed hlt'
  have hpos' := List.length_pos_iff.2 target.yield_ne_nil
  exact (hpast.mono (by omega)).level hx.depth_eq

omit ht in
/-- The lookup backwards fails nowhere. -/
theorem exists_runs_openingBefore? (s : Stream) (c : Cursor) : ∃ o, openingBefore?.Runs s c o c := by
  rcases c with ⟨_ | last, depth⟩
  · exact ⟨_, rfl, rfl⟩
  · exact ⟨_, rfl, rfl⟩

theorem mimics_loopHead (h : w.Sees z lo c c') (hs : start < c'.pos) :
    (loopHead term).Mimics w (w.Sees z (c'.pos + 1)) c c' (loopHead term') := by
  refine mimics_after (runs_cursor.2 ⟨rfl, rfl⟩) (runs_cursor.2 ⟨rfl, rfl⟩) ?_
  refine (ht.mimics .free h hs).bind_runs fun t x x' hrun hrun' hx => ?_
  refine mimics_at? hx .braceOpen ?_
  split
  · exact mimics_pure t hx
  · -- only a closing named application is given back; it begins at the same place in both
    have again : ∀ {y y' : Cursor}, (restore c >>= fun _ => term .beforeBody).Mimics w
        (w.Sees z (c'.pos + 1)) y y' (restore c' >>= fun _ => term' .beforeBody) := fun {y y'} =>
      mimics_restore c c' (ht.mimics .beforeBody h hs)
    obtain ⟨o, ho⟩ := exists_runs_openingBefore? w.fst x
    obtain ⟨o', ho'⟩ := exists_runs_openingBefore? w.snd x'
    cases t with
    | applyNamed target fields =>
      obtain ⟨i, hopen, hopen', hlt, hlt', hi⟩ := sees_reclaimed h.here (hx.mono (by omega))
        (ht.reads .free hrun) (ht.reads' .free hrun')
      refine mimics_after hopen hopen' (mimics_note _ _ ?_)
      exact mimics_seek (Nat.le_of_lt hlt) (Nat.le_of_lt hlt') (mimics_pure target hi)
    | _ => exact mimics_after ho ho' again

theorem mimics_loop (h : w.Sees z lo c c') (hs : start ≤ c'.pos) :
    (loop term).Mimics w (w.Sees z (c'.pos + 1)) c c' (loop term') := by
  refine mimics_expect h (by decide) .forRule fun t hk => ?_
  have h₁ := h.here.bump (by rw [hk]; rfl) (by rw [hk]; decide)
  have hle := h₁.le_pos
  -- the token after the first one counts only behind an identifier, where it is in view
  have hin : (decide (w.snd.kindAt (c'.pos + 1) = .ident) && w.fst.kindAt (c.pos + 1 + 1) == .kwIn) =
      (decide (w.snd.kindAt (c'.pos + 1) = .ident) && w.snd.kindAt (c'.pos + 1 + 1) == .kwIn) := by
    by_cases hi : w.snd.kindAt (c'.pos + 1) = .ident
    · have hnext := h₁.kindAt_next (by rw [hi]; rfl) (by rw [hi]; decide)
      rw [hnext]
    · rw [decide_eq_false hi, Bool.false_and, Bool.false_and]
  refine mimics_at? h₁ .ident ?_
  refine mimics_after (runs_nthKind.2 ⟨rfl, rfl⟩) (runs_nthKind.2 ⟨rfl, rfl⟩) ?_
  rw [hin]
  split
  · rename_i hin
    simp only [Bool.and_eq_true, beq_iff_eq] at hin
    refine mimics_expectIdent h₁ .forRule fun name h₂ => ?_
    refine mimics_bump h₂ (by rw [hin.2]; decide) ?_
    have h₃ := h₂.bump (by rw [hin.2]; rfl) (by rw [hin.2]; decide)
    have hle' := h₃.le_pos
    refine (mimics_loopHead ht h₃ (by omega)).bind fun t x x' _ hx => ?_
    have hle'' := hx.le_pos
    refine (mimics_blocked ht .forRule hx (by omega)).bind fun ts y y' _ hy => ?_
    exact mimics_pure _ (hy.mono (by omega))
  · refine mimics_at? h₁ .braceOpen ?_
    split
    · refine (mimics_blocked ht .forRule h₁ (by omega)).bind fun ts x x' _ hx => ?_
      exact mimics_pure _ (hx.mono (by omega))
    · refine (mimics_loopHead ht h₁ (by omega)).bind fun t x x' _ hx => ?_
      have hle' := hx.le_pos
      refine (mimics_blocked ht .forRule hx (by omega)).bind fun ts y y' _ hy => ?_
      exact mimics_pure _ (hy.mono (by omega))

/-! ## Declarations -/

omit ht in
/-- The name of a declaration leads into its bracket. -/
theorem mimics_declName (rule : Rule) (h : w.Sees z lo c c') :
    (declName rule).Mimics w (w.Inside z (c'.pos + 1)) c c' (declName rule) := by
  have opens : ∀ {x x' : Cursor} (name : Option String) (expected : List Kind), w.Sees z c'.pos x x' →
      (skip .braceOpen >>= fun b => if b then pure name else reject rule expected).Mimics w
        (w.Inside z (c'.pos + 1)) x x'
      (skip .braceOpen >>= fun b => if b then pure name else reject rule expected) := by
    intro x x' name expected hx
    refine mimics_skip hx (by decide) (fun hk => ?_) fun _ => mimics_reject hx _ _
    exact mimics_pure name (hx.enter (by rw [hk]; rfl))
  refine mimics_current h (fun t htok => ?_) fun t he htok => ?_
  · cases t with
    | none => exact mimics_reject h rule _
    | some t =>
      have hk := Stream.kindAt_of_token htok
      dsimp only
      by_cases hi : t.kind = .ident
      · rw [if_pos hi]
        have h₁ := h.here.bump (by rw [hk, hi]; rfl) (by rw [hk, hi]; decide)
        exact mimics_bump h (by rw [hk, hi]; decide) (opens _ _ (h₁.mono (by omega)))
      · rw [if_neg hi]
        exact opens none _ h.here
  · -- a name is missed alike, whether the end of the input is there or not
    have hk : w.snd.kindAt c'.pos ≠ .braceOpen := by
      rw [Stream.kindAt_of_token htok, he]
      decide
    have hskip : (skip .braceOpen).Runs w.snd c' false c' :=
      (runs_skip (by decide)).2 (.inr ⟨hk, rfl, rfl⟩)
    dsimp only
    rw [he, if_neg (by decide)]
    refine .error rfl ((bind_of_runs hskip).1.trans ?_)
    show Except.error (errorAt w.snd c' rule _) = _
    rw [h.errorAt_eq]

theorem mimics_signature (sort : Signature) (h : w.Sees z lo c c') (hs : start ≤ c'.pos)
    (hk : w.snd.kindAt c'.pos = sort.keyword) :
    (signature term sort).Mimics w (w.Sees z (c'.pos + 1)) c c' (signature term' sort) := by
  have he : w.snd.kindAt c'.pos ≠ .eof := hk ▸ (Kind.plain_of_text? sort.isSome_text?).1
  refine mimics_bump h he ?_
  have h₁ := h.here.bump (by rw [hk]; cases sort <;> rfl) he
  refine (mimics_declName (signatureRule sort) h₁).bind fun name x x' _ ⟨zi, hi, hexit⟩ => ?_
  refine (mimics_paramsUntil ht rfl _ hi (by simp only; omega) fun y y' hy hb => ?_).bind
    fun ps y y' _ hy => mimics_pure _ hy
  exact (hexit _ y y' hy hb).mono (by simp only; omega)

theorem mimics_record (sort : Record) (h : w.Sees z lo c c') (hs : start ≤ c'.pos)
    (hk : w.snd.kindAt c'.pos = sort.keyword) :
    (record term sort).Mimics w (w.Sees z (c'.pos + 1)) c c' (record term' sort) := by
  have he : w.snd.kindAt c'.pos ≠ .eof := hk ▸ (Kind.plain_of_text? sort.isSome_text?).1
  refine mimics_bump h he ?_
  have h₁ := h.here.bump (by rw [hk]; cases sort <;> rfl) he
  refine (mimics_declName (recordRule sort) h₁).bind fun name x x' _ ⟨zi, hi, hexit⟩ => ?_
  refine (mimics_fieldsUntil ht rfl _ hi (by simp only; omega) fun y y' hy hb => ?_).bind
    fun fs y y' _ hy => mimics_pure _ hy
  exact (hexit _ y y' hy hb).mono (by simp only; omega)

/-- The level of a binding is closed again in both streams. -/
theorem mimics_traitBinding (h : w.Sees z lo c c') (hs : start ≤ c'.pos) :
    (traitBinding term).Mimics w (w.Sees z (c'.pos + 1)) c c' (traitBinding term') := by
  refine mimics_descend h fun h₁ => ?_
  refine (mimics_binding ht .free h₁ hs).bind fun b x x' hrun hx => ?_
  have hd := (binding_reads ht.reads .free hrun).depth_eq
  have hdepth := h.depth_eq
  have hxdepth := hx.depth_eq
  refine mimics_ascend (mimics_pure b (hx.level ?_))
  simp only at hd
  omega

theorem mimics_trait (h : w.Sees z lo c c') (hs : start ≤ c'.pos) :
    (trait term).Mimics w (w.Sees z (c'.pos + 1)) c c' (trait term') := by
  refine mimics_expect h (by decide) .trait fun t hk => ?_
  have h₁ := h.here.bump (by rw [hk]; rfl) (by rw [hk]; decide)
  refine (mimics_declName .trait h₁).bind fun name x x' _ ⟨zi, hi, hexit⟩ => ?_
  refine (mimics_itemsUntil rfl hi (fun hy _ => mimics_traitBinding ht hy ?_) fun y y' hy hb => ?_).bind
    fun bs y y' _ hy => mimics_pure _ hy
  · have := hy.le_pos
    simp only at this
    omega
  · exact (hexit _ y y' hy hb).mono (by simp only; omega)

/-! ## Case distinctions -/

theorem mimics_branch (h : w.Sees z lo c c') (hs : start ≤ c'.pos) :
    (branch term).Mimics w (w.Sees z (c'.pos + 1)) c c' (branch term') := by
  refine mimics_expect h (by decide) .whenRule fun t hk => ?_
  have h₁ := h.here.bump (by rw [hk]; rfl) (by rw [hk]; decide)
  have hle := h₁.le_pos
  have rest : ∀ {x x' : Cursor} (guard : Term), w.Sees z (c'.pos + 1) x x' →
      (body term .free >>= fun b => pure (Branch.mk guard b)).Mimics w (w.Sees z (c'.pos + 1)) x x'
        (body term' .free >>= fun b => pure (Branch.mk guard b)) := by
    intro x x' guard hx
    have hle := hx.le_pos
    refine (mimics_body ht .free hx (by omega)).bind fun b y y' _ hy => ?_
    exact mimics_pure _ (hy.mono (by omega))
  refine mimics_after (runs_cursor.2 ⟨rfl, rfl⟩) (runs_cursor.2 ⟨rfl, rfl⟩) ?_
  refine (ht.mimics .free h₁ (by omega)).bind fun first x x' _ hx => ?_
  refine mimics_at? hx .fatArrow ?_
  split
  · refine mimics_after (runs_pure.2 ⟨rfl, rfl⟩) (runs_pure.2 ⟨rfl, rfl⟩) ?_
    exact rest first (hx.mono (by simp only; omega))
  · refine mimics_after (runs_cursor.2 ⟨rfl, rfl⟩) (runs_cursor.2 ⟨rfl, rfl⟩) ?_
    refine mimics_note _ _ (mimics_restore _ _ ?_)
    refine (ht.mimics .beforeArrow h₁ (by omega)).bind fun guard y y' _ hy => ?_
    exact rest guard (hy.mono (by simp only; omega))

theorem mimics_caseOf (h : w.Sees z lo c c') (hs : start ≤ c'.pos) :
    (caseOf term).Mimics w (w.Sees z (c'.pos + 1)) c c' (caseOf term') := by
  refine mimics_expect h (by decide) .caseRule fun t hk => ?_
  have h₁ := h.here.bump (by rw [hk]; rfl) (by rw [hk]; decide)
  refine mimics_expect h₁ (by decide) .caseRule fun u hu => ?_
  obtain ⟨zi, hi, hexit⟩ := h₁.enter (by rw [hu]; rfl)
  refine (mimics_itemsUntil rfl hi (fun hy _ => mimics_branch ht hy ?_) fun y y' hy hb => ?_).bind
    fun bs y y' _ hy => mimics_pure _ hy
  · have := hy.le_pos
    omega
  · exact (hexit _ y y' hy hb).mono (by omega)

/-! ## Heads -/

omit ht in
theorem mimics_literal (h : w.Sees z lo c c') :
    literal.Mimics w (w.Sees z (c'.pos + 1)) c c' literal := by
  refine mimics_current h (fun t htok => ?_) fun t he htok => ?_
  · cases t with
    | none => exact mimics_reject h .term termStart
    | some t =>
      have hk := Stream.kindAt_of_token htok
      have takes : ∀ {k : Kind} (u : Term), t.kind = k → k.bracket = .neither → k ≠ .eof →
          (bump >>= fun _ => pure u).Mimics w (w.Sees z (c'.pos + 1)) c c'
            (bump >>= fun _ => pure u) := by
        intro k u hkind hb he
        have he : w.snd.kindAt c'.pos ≠ .eof := by rwa [hk, hkind]
        exact mimics_bump h he (mimics_pure u (h.here.bump (by rwa [hk, hkind]) he))
      dsimp only
      split
      · exact takes _ ‹_› rfl (by decide)
      · exact takes _ ‹_› rfl (by decide)
      · exact takes _ ‹_› rfl (by decide)
      · exact takes _ ‹_› rfl (by decide)
      · exact takes _ ‹_› rfl (by decide)
      · exact takes _ ‹_› rfl (by decide)
      · exact mimics_reject h .term termStart
  · dsimp only
    rw [he]
    exact mimics_reject h .term termStart

theorem mimics_spread (r : Restrictions) (sort : Spread) (h : w.Sees z lo c c') (hs : start ≤ c'.pos)
    (hk : w.snd.kindAt c'.pos = sort.mark) :
    (spread term r sort).Mimics w (w.Sees z (c'.pos + 1)) c c' (spread term' r sort) := by
  have he : w.snd.kindAt c'.pos ≠ .eof := hk ▸ (Kind.plain_of_text? sort.isSome_text?).1
  have h₁ := h.here.bump (by rw [hk]; cases sort <;> rfl) he
  refine mimics_bump h he ((ht.mimics r h₁ (by simp only; omega)).bind fun t x x' _ hx => ?_)
  exact mimics_pure _ (hx.mono (by simp only; omega))

theorem mimics_generic (r : Restrictions) (h : w.Sees z lo c c') (hs : start ≤ c'.pos) :
    (generic term r).Mimics w (w.Sees z (c'.pos + 1)) c c' (generic term' r) := by
  refine mimics_expect h (by decide) .generic fun t hk => ?_
  obtain ⟨zi, hi, hexit⟩ := h.here.enter (by rw [hk]; rfl)
  refine (mimics_paramsUntil ht rfl _ hi (by omega) (hexit _)).bind fun ps x x' _ hx => ?_
  have hle := hx.le_pos
  refine (mimics_body ht r hx (by omega)).bind fun b y y' _ hy => ?_
  exact mimics_pure _ (hy.mono (by omega))

theorem mimics_typeList (h : w.Sees z lo c c') (hs : start ≤ c'.pos) :
    (typeList term).Mimics w (w.Sees z (c'.pos + 1)) c c' (typeList term') := by
  refine mimics_expect h (by decide) .funOf fun t hk => ?_
  obtain ⟨zi, hi, hexit⟩ := h.here.enter (by rw [hk]; rfl)
  exact mimics_termsUntil ht rfl .funOf hi (by omega) fun x x' hx hb =>
    (hexit _ x x' hx hb).mono (by omega)

theorem mimics_plainFunction (r : Restrictions) (h : w.Sees z lo c c') (hs : start ≤ c'.pos)
    (hk : w.snd.kindAt c'.pos = .parenOpen) :
    (plainFunction term r).Mimics w (w.Sees z (c'.pos + 1)) c c' (plainFunction term' r) := by
  obtain ⟨zi, hi, hexit⟩ := h.here.enter (by rw [hk]; rfl)
  refine mimics_bump h (by rw [hk]; decide) ?_
  refine (mimics_paramsUntil ht rfl _ hi (by omega) (hexit _)).bind fun ps x x' _ hx => ?_
  have hle := hx.le_pos
  refine (mimics_body ht r hx (by omega)).bind fun b y y' _ hy => ?_
  exact mimics_pure _ (hy.mono (by omega))

/-- The list and what is behind the arrow are both in view, though read out of order. -/
theorem mimics_withResult (r : Restrictions) {close : Nat} (h : w.Sees z lo c c')
    (hs : start ≤ c'.pos) (hk : w.snd.kindAt c'.pos = .parenOpen)
    (hclose : w.snd.matchingClose? c'.pos = some close) (harrow : w.snd.kindAt (close + 1) = .arrow) :
    (withResult term r (close + w.shift)).Mimics w (w.Sees z (c'.pos + 1)) c c'
      (withResult term' r close) := by
  have h₁ := (h.here.matchingClose?_eq (by rw [hk]; rfl)).2 close hclose
  have h₂ := h₁.bump (by rw [harrow]; rfl) (by rw [harrow]; decide)
  have hle := h₂.le_pos
  simp only at hle
  refine mimics_after (runs_cursor.2 ⟨rfl, rfl⟩) (runs_cursor.2 ⟨rfl, rfl⟩) ?_
  refine mimics_seek (Stream.lt_size_of_kindAt (h₁.kindAt_eq.trans harrow) (by decide))
    (Stream.lt_size_of_kindAt harrow (by decide)) ?_
  refine (ht.mimics r h₂ (by simp only; omega)).bind fun result x x' _ hx => ?_
  have hxle := hx.le_pos
  simp only at hxle
  refine mimics_after (runs_cursor.2 ⟨rfl, rfl⟩) (runs_cursor.2 ⟨rfl, rfl⟩) (mimics_kind hx ?_)
  refine mimics_note _ _ (mimics_restore c c' ?_)
  obtain ⟨zi, hi, hexit⟩ := h.here.enter (by rw [hk]; rfl)
  split
  · refine mimics_bump h (by rw [hk]; decide) ?_
    refine (mimics_paramsUntil ht rfl _ hi (by omega) (hexit _)).bind fun ps y y' _ hy => ?_
    refine mimics_expect hy (by decide) .fun_ fun t _ => mimics_restore x x' ?_
    refine (mimics_body ht r hx (by omega)).bind fun b y y' _ hy => ?_
    exact mimics_pure _ (hy.mono (by omega))
  · refine (mimics_typeList ht h hs).bind fun ts y y' _ hy => ?_
    refine mimics_expect hy (by decide) .funOf fun t _ => mimics_restore x x' (mimics_pure _ ?_)
    exact hx.mono (by simp only; omega)

theorem mimics_function (r : Restrictions) (h : w.Sees z lo c c') (hs : start ≤ c'.pos)
    (hk : w.snd.kindAt c'.pos = .parenOpen) :
    (function term r).Mimics w (w.Sees z (c'.pos + 1)) c c' (function term' r) := by
  have fails : ∀ expected, (typeList term >>= fun _ => (reject .funOf expected : Parse Term)).Mimics w
      (w.Sees z (c'.pos + 1)) c c' (typeList term' >>= fun _ => reject .funOf expected) := fun expected =>
    (mimics_typeList ht h hs).bind fun _ _ _ _ hx => mimics_reject hx .funOf expected
  obtain ⟨heq, hnext⟩ := h.here.matchingClose?_eq (by rw [hk]; rfl)
  refine mimics_after (runs_matchingClose?.2 ⟨heq, rfl⟩) (runs_matchingClose?.2 ⟨rfl, rfl⟩) ?_
  cases hclose : w.snd.matchingClose? c'.pos with
  | none => exact fails _
  | some close =>
    have h₁ := hnext close hclose
    refine mimics_after (runs_kindAt.2 ⟨h₁.kindAt_eq, rfl⟩) (runs_kindAt.2 ⟨rfl, rfl⟩) ?_
    dsimp only
    split
    · exact mimics_plainFunction ht r h hs hk
    · exact mimics_withResult ht r h hs hk hclose ‹_›
    · exact fails _

theorem mimics_head (r : Restrictions) (h : w.Sees z lo c c') (hs : start ≤ c'.pos) :
    (head term r).Mimics w (w.Sees z (c'.pos + 1)) c c' (head term' r) := by
  refine mimics_kind h ?_
  split
  · rename_i hk
    have h₁ := h.here.bump (by rw [hk]; rfl) (by rw [hk]; decide)
    refine mimics_bump h (by rw [hk]; decide) ?_
    refine (mimics_blocked ht .block h₁ (by simp only; omega)).bind fun ts x x' _ hx => ?_
    exact mimics_pure _ (hx.mono (by simp only; omega))
  · exact mimics_generic ht r h hs
  · exact (mimics_binding ht r h hs).bind fun b _ _ _ hx => mimics_pure _ hx
  · exact mimics_loop ht h hs
  · exact mimics_signature ht _ h hs ‹_›
  · exact mimics_signature ht _ h hs ‹_›
  · exact mimics_signature ht _ h hs ‹_›
  · exact mimics_signature ht _ h hs ‹_›
  · exact mimics_record ht _ h hs ‹_›
  · exact mimics_record ht _ h hs ‹_›
  · exact mimics_record ht _ h hs ‹_›
  · exact mimics_trait ht h hs
  · exact mimics_function ht r h hs ‹_›
  · exact mimics_caseOf ht h hs
  · exact mimics_spread ht r _ h hs ‹_›
  · exact mimics_spread ht r _ h hs ‹_›
  · exact mimics_literal h
  · exact mimics_literal h
  · exact mimics_literal h
  · exact mimics_literal h
  · exact mimics_literal h
  · exact mimics_literal h
  · exact mimics_reject h .term termStart

/-! ## Terms -/

theorem mimics_termOf (r : Restrictions) (h : w.Sees z lo c c') (hs : start ≤ c'.pos) :
    (termOf term r).Mimics w (w.Sees z (c'.pos + 1)) c c' (termOf term' r) := by
  refine mimics_descend h fun h₁ => ?_
  refine (mimics_head ht r h₁ hs).bind fun first x x' hrun hx => ?_
  have hle := hx.le_pos
  refine (mimics_chain ht r first hx (by simp only at hle; omega)).bind fun whole y y' hrun' hy => ?_
  have hd := (head_reads ht.reads r hrun).1.depth_eq
  have hd' : y.depth = x.depth := by
    simp only [chain, runs_bind, runs_remaining] at hrun'
    obtain ⟨_, _, ⟨rfl, rfl⟩, hrun'⟩ := hrun'
    obtain ⟨zs, -, hreads, -⟩ := chainWithin_reads ht.reads _ hrun'
    exact hreads.depth_eq
  have hdepth := h.depth_eq
  have hydepth := hy.depth_eq
  refine mimics_ascend (mimics_pure whole ((hy.mono (by simp only at hle; omega)).level ?_))
  simp only at hd
  omega

end

/-- The parsers of terms answer alike with any numbers of terms that may be open inside one another, if
these suffice for what can be in view. -/
theorem mimicTerms_termWithin {w : Window} : ∀ (levels levels' start : Nat),
    w.last ≤ start + levels → w.last ≤ start + levels' →
      MimicTerms w start (termWithin levels) (termWithin levels') := by
  intro levels
  induction levels with
  | zero =>
    intro levels' start hlast _
    refine ⟨termWithin_reads _, termWithin_reads _, fun r h hs => ?_⟩
    have := h.pos_le
    have := h.limit_le
    omega
  | succ levels ih =>
    intro levels' start hlast hlast'
    refine ⟨termWithin_reads _, termWithin_reads _, fun {z lo c c'} r h hs => ?_⟩
    have hle := h.pos_le
    have hlim := h.limit_le
    obtain ⟨levels', rfl⟩ : ∃ n, levels' = n + 1 := ⟨levels' - 1, by omega⟩
    have hread := mimics_termOf (ih levels' c'.pos (by omega) (by omega)) r h (Nat.le_refl _)
    exact hread.called_left.called_right

theorem term_apply (r : Restrictions) (s : Stream) (c : Cursor) :
    term r s c = termWithin (s.remaining c.pos) r s c := rfl

section

variable {w : Window} {z : Zone} {lo : Nat} {c c' : Cursor}

/-- Nothing but this zone is in view. -/
theorem sees_upTo (h : w.Sees z lo c c') : Window.Sees { w with last := w.limit z } z lo c c' :=
  { h with limit_le := Nat.le_refl _ }

theorem mimics_of_upTo {α : Type} {p p' : Parse α} (hlim : w.limit z ≤ w.last)
    (h : p.Mimics { w with last := w.limit z } (Window.Sees { w with last := w.limit z } z lo) c c' p') :
    p.Mimics w (w.Sees z lo) c c' p' := by
  cases h with
  | ok ha hb hc => exact .ok ha hb { hc with limit_le := hlim }
  | error ha hb => exact .error ha hb
  | lost hl ha he => exact .lost hl ha he

/-- Enough terms may be open for whatever is in view. -/
theorem mimics_termWithin_term (h : w.Sees z lo c c') {levels : Nat}
    (hlt : w.limit z < c'.pos + levels) (r : Restrictions) :
    (termWithin levels r).Mimics w (w.Sees z (c'.pos + 1)) c c' (term r) := by
  have hle := h.pos_le
  have hrem := h.lt_remaining.2
  obtain ⟨n, rfl⟩ : ∃ n, levels = n + 1 := ⟨levels - 1, by omega⟩
  obtain ⟨m, hm⟩ : ∃ m, w.snd.remaining c'.pos = m + 1 := ⟨w.snd.remaining c'.pos - 1, by omega⟩
  refine mimics_of_upTo h.limit_le ?_
  have hterms : MimicTerms { w with last := w.limit z } c'.pos (termWithin n) (termWithin m) :=
    mimicTerms_termWithin n m c'.pos (by simp only; omega) (by simp only; omega)
  have hread := (mimics_termOf hterms r (sees_upTo h) (Nat.le_refl _)).called_left.called_right
  unfold Parse.Mimics at hread ⊢
  rw [term_apply, hm]
  exact hread

/-- The parser of terms answers alike at corresponding cursors. -/
theorem mimics_term (h : w.Sees z lo c c') (r : Restrictions) :
    (term r).Mimics w (w.Sees z (c'.pos + 1)) c c' (term r) :=
  mimics_termWithin_term h h.lt_remaining.1 r

theorem mimicTerms_term (w : Window) (start : Nat) : MimicTerms w start term term :=
  ⟨term_reads, term_reads, fun r h _ => mimics_term h r⟩

/-- A term is a head and a chain whose parts are terms. -/
theorem mimics_term_termOf (h : w.Sees z lo c c') (r : Restrictions) :
    (term r).Mimics w (w.Sees z (c'.pos + 1)) c c' (termOf term r) := by
  have hle := h.pos_le
  have hrem := h.lt_remaining.1
  obtain ⟨n, hn⟩ : ∃ n, w.fst.remaining c.pos = n + 1 := ⟨w.fst.remaining c.pos - 1, by omega⟩
  refine mimics_of_upTo h.limit_le ?_
  have hterms : MimicTerms { w with last := w.limit z } c'.pos (termWithin n) term := by
    refine ⟨termWithin_reads _, term_reads, fun r h' hs => mimics_termWithin_term h' ?_ r⟩
    have := h'.limit_le
    simp only at this ⊢
    omega
  have hread := (mimics_termOf hterms r (sees_upTo h) (Nat.le_refl _)).called_left
  unfold Parse.Mimics at hread ⊢
  rw [term_apply, hn]
  exact hread

end

end TermLang.Grammar
