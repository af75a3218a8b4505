import TermLang.Proofs.Leads

/-!
# The grammar before a seam

A run of a rule of the grammar that ends before a seam arrives at the same place in the other stream. What
stands in brackets is read alike since it is seen alike; what stands outside is read token by token, or
by the parser of terms further on. Only the first reading of a loop head may look beyond the seam, though
the loop ends before it: what it then finds in the other stream is asked for in `Rereads`.
-/

namespace TermLang.Grammar

open Parse
open Terminal (within)

/-- A loop head whose first reading leads to no goal, and which is then read again before the body: in the
other stream the first reading ends at the seam, and with no application to give back. The loop stands
outside brackets. -/
def Rereads (w : Window) (stop : Nat) (goal : Nat → Prop) (start : Nat) : Prop :=
  ∀ {c c' x y : Cursor} {first t : Term}, start < c'.pos → w.Abreast stop c c' →
    (∃ i < stop, w.snd.Reaches 0 i ∧ w.snd.kindAt i = .kwFor) →
    (term .free).Runs w.fst c first y → ¬ w.fst.Leads goal y.pos →
    (term .beforeBody).Runs w.fst c t x → w.fst.Leads goal x.pos →
      ∃ other y', (term .free).Runs w.snd c' other y' ∧ y'.pos = stop ∧
        ∀ target fields, other ≠ .applyNamed target fields

/-- Behind an index, the terms that lead to a goal are carried over; there is none beyond the seam. -/
structure CarryTerms (w : Window) (stop : Nat) (goal : Nat → Prop) (start : Nat) : Prop where
  seam : w.Seam stop
  goal_le : ∀ i, goal i → i ≤ stop + w.shift
  carries : ∀ {c c' x : Cursor} {r : Restrictions} {t : Term}, start < c'.pos → w.Abreast stop c c' →
    (term r).Runs w.fst c t x → w.fst.Leads goal x.pos → (term r).Arrives w stop c' t x
  rereads : Rereads w stop goal start

section

variable {w : Window} {stop start : Nat} {goal : Nat → Prop} (ht : CarryTerms w stop goal start)
  {c c' x : Cursor}

include ht

/-! ## Annotations, blocks and bindings -/

theorem arrives_anno {r : Restrictions} {a : Anno} (h : w.Abreast stop c c') (hs : start ≤ c'.pos)
    (hrun : (anno term r).Runs w.fst c a x) (hgoal : w.fst.Leads goal x.pos) :
    (anno term r).Arrives w stop c' a x := by
  have hx := hgoal.le ht.goal_le
  have hpos := h.pos_eq
  obtain ⟨mark, y, z, t, hcolon, hterm, hcases⟩ := runs_anno.1 hrun
  have hy : y.pos = c.pos + 1 := (expect_mark hcolon rfl).row.stop_eq
  have hlt := lt_of_term hterm
  obtain ⟨sort, rfl, hk, hbump⟩ | ⟨rfl, hne, rfl⟩ := hcases
  · have hz : z.pos = y.pos + 1 := (bump_mark hbump hk sort.isSome_text?).row.stop_eq
    have hplain : sort.mark ≠ .eof ∧ sort.mark.bracket = .neither := by cases sort <;> decide
    obtain ⟨y', hcolon', hy'⟩ := arrives_expect ht.seam h hcolon (by decide) rfl (by omega)
    obtain ⟨z', hbump', hz'⟩ := arrives_bump ht.seam hy' hbump hk hplain.1 hplain.2 (by omega)
    have hposy := hy'.pos_eq
    have hposz := hz'.pos_eq
    obtain ⟨x', hterm', hx'⟩ := ht.carries (by omega) hz' hterm hgoal
    have hk' := (hy'.kindAt_eq ht.seam (by omega)).symm.trans hk
    exact ⟨x', runs_anno.2 ⟨mark, y', z', t, hcolon', hterm', .inl ⟨sort, rfl, hk', hbump'⟩⟩, hx'⟩
  · obtain ⟨z', hcolon', hz'⟩ := arrives_expect ht.seam h hcolon (by decide) rfl (by omega)
    have hposz := hz'.pos_eq
    obtain ⟨x', hterm', hx'⟩ := ht.carries (by omega) hz' hterm hgoal
    rw [hz'.kindAt_eq ht.seam (by omega)] at hne
    exact ⟨x', runs_anno.2 ⟨mark, z', z', t, hcolon', hterm', .inr ⟨rfl, hne, rfl⟩⟩, hx'⟩

/-- An annotation, where there may be one before more of the same run. -/
theorem arrives_anno? {r : Restrictions} {a : Option Anno} (h : w.Abreast stop c c')
    (hs : start ≤ c'.pos) (hrun : (anno? term r).Runs w.fst c a x) (hx : x.pos < stop + w.shift)
    (hgoal : w.fst.Leads goal x.pos) :
    (anno? term r).Arrives w stop c' a x := by
  have hlen := (anno?_reads term_reads r hrun).row.stop_eq
  have hpos := h.pos_eq
  have hkind := h.kindAt_eq ht.seam (by omega)
  obtain ⟨hk, b, rfl, hb⟩ | ⟨hk, rfl, rfl⟩ := runs_anno?.1 hrun
  · obtain ⟨x', hb', hx'⟩ := arrives_anno ht h hs hb hgoal
    exact ⟨x', runs_anno?.2 (.inl ⟨hkind ▸ hk, b, rfl, hb'⟩), hx'⟩
  · exact ⟨c', runs_anno?.2 (.inr ⟨hkind ▸ hk, rfl, rfl⟩), h⟩

theorem arrives_blocked {rule : Rule} {ts : List Term} (h : w.Abreast stop c c')
    (hrun : (blocked term rule).Runs w.fst c ts x) (hx : x.pos ≤ stop + w.shift) :
    (blocked term rule).Arrives w stop c' ts x := by
  simp only [blocked, runs_bind] at hrun
  obtain ⟨_, y, hopen, hts⟩ := hrun
  have hlen := (termsUntil_reads term_reads rfl _ hts).row.stop_eq
  obtain ⟨htake, hk⟩ := (runs_expect (by decide)).1 hopen
  obtain ⟨y', z, htake', hz, hexit⟩ := h.opens ht.seam htake (by rw [hk]; rfl) (by omega)
  refine arrives_after ((runs_expect (by decide)).2 ⟨htake', hk⟩) ?_
  exact (mimics_termsUntil (mimicTerms_term w c'.pos) rfl .blocked hz (Nat.lt_succ_self _)
    (hexit _)).arrives hts

theorem arrives_body {r : Restrictions} {b : Body} (h : w.Abreast stop c c') (hs : start ≤ c'.pos)
    (hrun : (body term r).Runs w.fst c b x) (hgoal : w.fst.Leads goal x.pos) :
    (body term r).Arrives w stop c' b x := by
  have hx := hgoal.le ht.goal_le
  have hlt := lt_of_body hrun
  obtain ⟨mark, y, harrow, hcases⟩ := runs_body.1 hrun
  have hpos := h.pos_eq
  have hy : y.pos = c.pos + 1 := (expect_mark harrow rfl).row.stop_eq
  obtain ⟨y', harrow', hy'⟩ := arrives_expect ht.seam h harrow (by decide) rfl (by omega)
  have hpos' := hy'.pos_eq
  have hk := hy'.kindAt_eq ht.seam (by omega)
  obtain ⟨hopen, ts, rfl, hts⟩ | ⟨hne, t, rfl, hterm⟩ := hcases
  · obtain ⟨x', hts', hx'⟩ := arrives_blocked ht hy' hts hx
    exact ⟨x', runs_body.2 ⟨mark, y', harrow', .inl ⟨hk ▸ hopen, ts, rfl, hts'⟩⟩, hx'⟩
  · obtain ⟨x', hterm', hx'⟩ := ht.carries (by omega) hy' hterm hgoal
    exact ⟨x', runs_body.2 ⟨mark, y', harrow', .inr ⟨hk ▸ hne, t, rfl, hterm'⟩⟩, hx'⟩

/-- What stands in a binding before its value. -/
theorem arrives_bound {mark mark' : Token} {name : String} {a : Option Anno} {y z u v : Cursor}
    (h : w.Abreast stop c c') (hs : start ≤ c'.pos)
    (hlet : (expect .kwLet .letRule).Runs w.fst c mark y)
    (hname : (expectIdent .letRule).Runs w.fst y name z)
    (ha : (anno? term .beforeAssign).Runs w.fst z a u)
    (heq : (expect .equals .letRule).Runs w.fst u mark' v) (hv : v.pos ≤ stop + w.shift)
    (hgoal : w.fst.Leads goal u.pos) :
    ∃ y' z' u' v', (expect .kwLet .letRule).Runs w.snd c' mark y' ∧
      (expectIdent .letRule).Runs w.snd y' name z' ∧ w.fst.kindAt z.pos = w.snd.kindAt z'.pos ∧
      (anno? term .beforeAssign).Runs w.snd z' a u' ∧ (expect .equals .letRule).Runs w.snd u' mark' v' ∧
      w.Abreast stop v v' ∧ c.pos < v.pos ∧ v.depth = c.depth := by
  have hpos := h.pos_eq
  have hlet_mark := expect_mark hlet rfl
  have hname_reads := expectIdent_reads .letRule hname
  have ha_reads := anno?_reads term_reads .beforeAssign ha
  have heq_mark := expect_mark heq rfl
  have hy : y.pos = c.pos + 1 := hlet_mark.row.stop_eq
  have hz : z.pos = y.pos + 1 := hname_reads.row.stop_eq
  have hu := ha_reads.row.stop_eq
  have hv' : v.pos = u.pos + 1 := heq_mark.row.stop_eq
  obtain ⟨y', hlet', hy'⟩ := arrives_expect ht.seam h hlet (by decide) rfl (by omega)
  obtain ⟨z', hname', hz'⟩ := arrives_expectIdent ht.seam hy' hname (by omega)
  have hpos' := hz'.pos_eq
  obtain ⟨u', ha', hu'⟩ := arrives_anno? ht hz' (by omega) ha (by omega) hgoal
  obtain ⟨v', heq', hv''⟩ := arrives_expect ht.seam hu' heq (by decide) rfl (by omega)
  refine ⟨y', z', u', v', hlet', hname', hz'.kindAt_eq ht.seam (by omega), ha', heq', hv'', by omega, ?_⟩
  rw [heq_mark.depth_eq, ha_reads.depth_eq, hname_reads.depth_eq, hlet_mark.depth_eq]

theorem arrives_binding {r : Restrictions} {b : Binding} (h : w.Abreast stop c c')
    (hs : start ≤ c'.pos) (hrun : (binding term r).Runs w.fst c b x) (hgoal : w.fst.Leads goal x.pos) :
    (binding term r).Arrives w stop c' b x := by
  have hx := hgoal.le ht.goal_le
  obtain ⟨mark, y, name, z, hlet, hname, hcases⟩ := runs_binding.1 hrun
  obtain ⟨hk, a, u, mark', v, value, rfl, ha, heq, hvalue⟩ | ⟨hk, rfl, rfl⟩ := hcases
  · have hlt := lt_of_term hvalue
    obtain ⟨y', z', u', v', hlet', hname', hkind, ha', heq', hv, hle, -⟩ :=
      arrives_bound ht h hs hlet hname ha heq (by omega) (leads_of_equals heq hvalue hgoal)
    have hpos := h.pos_eq
    have hposv := hv.pos_eq
    obtain ⟨x', hvalue', hx'⟩ := ht.carries (by omega) hv hvalue hgoal
    exact ⟨x', runs_binding.2 ⟨mark, y', name, z', hlet', hname', .inl ⟨hkind ▸ hk, a, u', mark', v', value,
      rfl, ha', heq', hvalue'⟩⟩, hx'⟩
  · have hy : y.pos = c.pos + 1 := (expect_mark hlet rfl).row.stop_eq
    have hz : x.pos = y.pos + 1 := (expectIdent_reads .letRule hname).row.stop_eq
    obtain ⟨y', hlet', hy'⟩ := arrives_expect ht.seam h hlet (by decide) rfl (by omega)
    obtain ⟨z', hname', hz'⟩ := arrives_expectIdent ht.seam hy' hname (by omega)
    rw [not_or] at hk
    have hk' := not_or.2 ⟨hz'.kindAt_ne ht.seam rfl hk.1, hz'.kindAt_ne ht.seam rfl hk.2⟩
    exact ⟨z', runs_binding.2 ⟨mark, y', name, z', hlet', hname', .inr ⟨hk', rfl, rfl⟩⟩, hz'⟩

/-! ## Loops -/

/-- A loop head is taken as it is, cut down or read again in both streams; if the first reading leads to
no goal in the first stream, the head is read again in both. -/
theorem arrives_loopHead {t : Term} {rule : Rule} {ts : List Term} {y : Cursor}
    (h : w.Abreast stop c c') (hs : start < c'.pos)
    (hfor : ∃ i < stop, w.snd.Reaches 0 i ∧ w.snd.kindAt i = .kwFor)
    (hrun : (loopHead term).Runs w.fst c t y) (hblock : (blocked term rule).Runs w.fst y ts x)
    (hgoal : w.fst.Leads goal x.pos) : (loopHead term).Arrives w stop c' t y := by
  have hx := hgoal.le ht.goal_le
  have hpos := h.pos_eq
  have hrow := (blocked_reads term_reads rule hblock).row
  have hlen := hrow.stop_eq
  simp only [within, List.length_cons] at hlen
  have hy := leads_of_blocked hblock hgoal
  obtain ⟨first, u, hfirst, hcases⟩ := runs_loopHead.1 hrun
  by_cases hu : w.fst.Leads goal u.pos
  · obtain ⟨u', hfirst', hu'⟩ := ht.carries hs h hfirst hu
    rcases hcases with ⟨hk, rfl, rfl⟩ | ⟨hk, fields, i, rfl, htarget, hfields, rfl⟩ | ⟨hk, hne, hterm⟩
    · have hlt := hu'.lt_stop (by omega) hx
      refine ⟨u', runs_loopHead.2 ⟨_, u', hfirst', .inl ⟨?_, rfl, rfl⟩⟩, hu'⟩
      rw [← hu'.kindAt_eq ht.seam hlt, hk]
    · have hk' := hu'.kindAt_ne ht.seam rfl hk
      obtain ⟨j, htarget', hfields', -, -⟩ := exists_opening (term_reads .free hfirst')
      have hi := htarget.stop_eq
      have hj := htarget'.stop_eq
      refine ⟨{ u' with pos := j }, runs_loopHead.2 ⟨_, u', hfirst', .inr (.inl ⟨hk', fields, j, rfl,
        htarget', hfields', rfl⟩)⟩, { hu' with
          pos_eq := by show i = j + w.shift; omega
          reached := h.reached.trans (htarget'.reaches t.bracketed)
          le_stop := ?_ }⟩
      have := hfields'.stop_eq
      have := hu'.le_stop
      show j ≤ stop
      omega
    · obtain ⟨y', hterm', hy'⟩ := ht.carries hs h hterm hy
      have hk' := hu'.kindAt_ne ht.seam rfl hk
      exact ⟨y', runs_loopHead.2 ⟨_, u', hfirst', .inr (.inr ⟨hk', hne, hterm'⟩)⟩, hy'⟩
  · rcases hcases with ⟨hk, rfl, rfl⟩ | ⟨hk, fields, i, rfl, -, hfields, rfl⟩ | ⟨hk, hne, hterm⟩
    · exact absurd hy hu
    · -- the block that follows is the application given back, so both end where the loop ends
      have hclose := Stream.matchingClose?_of_row (o := .braceOpen) rfl hfields
        (bracketed_fieldsYield fields)
      have hclose' := Stream.matchingClose?_of_row (o := .braceOpen) rfl hrow (bracketed_termsYield ts)
      have hlen' := hfields.stop_eq
      simp only [within, List.length_cons] at hlen'
      rw [hclose, Option.some.injEq] at hclose'
      simp only at hlen
      exact absurd (show u.pos = x.pos by omega) fun he => hu (he ▸ hgoal)
    · obtain ⟨y', hterm', hy'⟩ := ht.carries hs h hterm hy
      obtain ⟨other, u', hother, hstop, hne'⟩ := ht.rereads hs h hfor hfirst hu hterm hy
      refine ⟨y', runs_loopHead.2 ⟨_, u', hother, .inr (.inr ⟨?_, hne', hterm'⟩)⟩, hy'⟩
      intro hk'
      have hends := ht.seam.ends
      rw [← hstop, hk'] at hends
      cases hends

theorem arrives_loop {t : Term} (h : w.Abreast stop c c') (hs : start ≤ c'.pos)
    (hrun : (loop term).Runs w.fst c t x) (hgoal : w.fst.Leads goal x.pos) :
    (loop term).Arrives w stop c' t x := by
  have hx := hgoal.le ht.goal_le
  obtain ⟨mark, y, hfor, hcases⟩ := runs_loop.1 hrun
  have hpos := h.pos_eq
  have hy : y.pos = c.pos + 1 := (expect_mark hfor rfl).row.stop_eq
  have block : ∀ {v : Cursor} {ts : List Term}, (blocked term .forRule).Runs w.fst v ts x →
      v.pos + 1 < x.pos := fun hts => by
    have := (blocked_reads term_reads _ hts).row.stop_eq
    simp only [within, List.length_cons, List.length_append, List.length_nil] at this
    omega
  have hlt : y.pos + 1 < x.pos := by
    rcases hcases with ⟨hi, hin, name, source, ts, z, u, v, rfl, hname, hbump, hsource, hts⟩ |
      ⟨hin, hk, ts, rfl, hts⟩ | ⟨hin, hk, condition, ts, v, rfl, hcond, hts⟩
    · have hz := (expectIdent_reads .forRule hname).row.stop_eq
      have hu := (bump_mark hbump (hz ▸ hin) rfl).row.stop_eq
      have hv := (loopHead_reads term_reads hsource).row.stop_eq
      have := block hts
      omega
    · exact block hts
    · have hv := (loopHead_reads term_reads hcond).row.stop_eq
      have := block hts
      omega
  obtain ⟨y', hfor', hy'⟩ := arrives_expect ht.seam h hfor (by decide) rfl (by omega)
  have hpos' := hy'.pos_eq
  have hk₁ := hy'.kindAt_eq ht.seam (by omega)
  have hk₂ := hy'.kindAt_next ht.seam (by omega)
  have hfor₀ : ∃ i < stop, w.snd.Reaches 0 i ∧ w.snd.kindAt i = .kwFor := by
    obtain ⟨htake, hk⟩ := (runs_expect (by decide)).1 hfor'
    exact ⟨c'.pos, by omega, h.reached, htake.kindAt.trans hk⟩
  rcases hcases with ⟨hi, hin, name, source, ts, z, u, v, rfl, hname, hbump, hsource, hts⟩ |
    ⟨hin, hk, ts, rfl, hts⟩ | ⟨hin, hk, condition, ts, v, rfl, hcond, hts⟩
  · have hz : z.pos = y.pos + 1 := (expectIdent_reads .forRule hname).row.stop_eq
    have hu : u.pos = z.pos + 1 := (bump_mark hbump (hz ▸ hin) rfl).row.stop_eq
    have hv := (loopHead_reads term_reads hsource).row.stop_eq
    have := block hts
    obtain ⟨z', hname', hz'⟩ := arrives_expectIdent ht.seam hy' hname (by omega)
    obtain ⟨u', hbump', hu'⟩ := arrives_bump ht.seam hz' hbump (hz ▸ hin) (by decide) rfl (by omega)
    have hposu := hu'.pos_eq
    obtain ⟨v', hsource', hv'⟩ := arrives_loopHead ht hu' (by omega) hfor₀ hsource hts hgoal
    obtain ⟨x', hts', hx'⟩ := arrives_blocked ht hv' hts hx
    exact ⟨x', runs_loop.2 ⟨mark, y', hfor', .inl ⟨hk₁ ▸ hi, hk₂ ▸ hin, name, source, ts, z', u', v',
      rfl, hname', hbump', hsource', hts'⟩⟩, hx'⟩
  · obtain ⟨x', hts', hx'⟩ := arrives_blocked ht hy' hts hx
    rw [hk₁, hk₂] at hin
    exact ⟨x', runs_loop.2 ⟨mark, y', hfor', .inr (.inl ⟨hin, hk₁ ▸ hk, ts, rfl, hts'⟩)⟩, hx'⟩
  · obtain ⟨v', hcond', hv'⟩ := arrives_loopHead ht hy' (by omega) hfor₀ hcond hts hgoal
    obtain ⟨x', hts', hx'⟩ := arrives_blocked ht hv' hts hx
    rw [hk₁, hk₂] at hin
    exact ⟨x', runs_loop.2 ⟨mark, y', hfor', .inr (.inr ⟨hin, hk₁ ▸ hk, condition, ts, v', rfl, hcond',
      hts'⟩)⟩, hx'⟩

/-! ## Declarations -/

omit ht in
/-- The name of a declaration leads into its bracket. -/
theorem exists_runs_declName (hw : w.Seam stop) (h : w.Abreast stop c c') {rule : Rule}
    {name : Option String} (hrun : (declName rule).Runs w.fst c name x) (hx : x.pos ≤ stop + w.shift) :
    ∃ x' z, (declName rule).Runs w.snd c' name x' ∧ w.Sees z (c'.pos + 1) x x' ∧
      ∀ lo, Exits w z lo (w.Abreast stop) := by
  have hbrace : Kind.braceOpen ≠ .eof := by decide
  have hlen := (declName_reads rule hrun).row.stop_eq
  rw [List.length_append, List.length_singleton] at hlen
  simp only [declName, runs_bind, runs_current] at hrun
  obtain ⟨_, _, ⟨rfl, rfl⟩, hrun⟩ := hrun
  have opens : ∀ {y y' : Cursor} {o : Option String} {expected : List Kind}, w.Abreast stop y y' →
      (skip .braceOpen >>= fun b => if b then pure o else reject rule expected).Runs w.fst y name x →
        ∃ x' z, (skip .braceOpen >>= fun b => if b then pure o else reject rule expected).Runs w.snd y'
          name x' ∧ w.Sees z (y'.pos + 1) x x' ∧ ∀ lo, Exits w z lo (w.Abreast stop) := by
    intro y y' o expected hy hrun
    simp only [runs_bind, runs_skip hbrace] at hrun
    obtain ⟨_, z, ⟨⟨t, htake, hk⟩, rfl⟩ | ⟨-, rfl, rfl⟩, hrun⟩ := hrun
    · obtain ⟨rfl, rfl⟩ := runs_pure.1 hrun
      obtain ⟨x', z, htake', hz, hexit⟩ := hy.opens hw htake (by rw [hk]; rfl) hx
      refine ⟨x', z, runs_bind.2 ⟨true, x', (runs_skip hbrace).2 (.inl ⟨⟨t, htake', hk⟩, rfl⟩), ?_⟩,
        hz, hexit⟩
      exact runs_pure.2 ⟨rfl, rfl⟩
    · exact absurd hrun not_runs_reject
  split at hrun
  · rename_i t htok
    have hpos := h.pos_eq
    have htok' : w.snd.tokens[c'.pos]? = some t :=
      (h.token_eq hw (h.lt_stop (by omega) hx)).symm.trans htok
    by_cases hi : t.kind = .ident
    · rw [if_pos hi, runs_bind] at hrun
      obtain ⟨u, y, hbump, hrun⟩ := hrun
      have hle : y.pos ≤ x.pos := by
        obtain ⟨b, z, hskip, hrest⟩ := runs_bind.1 hrun
        rcases (runs_skip hbrace).1 hskip with ⟨⟨v, hv, -⟩, rfl⟩ | ⟨-, rfl, rfl⟩
        · obtain ⟨-, rfl⟩ := runs_pure.1 hrest
          rw [hv.next]
          exact Nat.le_succ _
        · exact absurd hrest not_runs_reject
      have hk := (Stream.kindAt_of_token htok).trans hi
      obtain ⟨y', hbump', hy'⟩ := arrives_bump hw h hbump hk (by decide) rfl (by omega)
      obtain ⟨x', z, hrun', hz, hexit⟩ := opens hy' hrun
      refine ⟨x', z, runs_bind.2 ⟨_, _, runs_current.2 ⟨htok', rfl⟩, ?_⟩, hz.mono ?_, hexit⟩
      · dsimp only
        rw [if_pos hi]
        exact runs_bind.2 ⟨u, y', hbump', hrun'⟩
      · have hy := (runs_bump hk (by decide)).1 hbump
        obtain ⟨v, hv, -⟩ := hy
        have := hy'.pos_eq
        rw [hv.next] at this
        simp only at this
        omega
    · rw [if_neg hi] at hrun
      obtain ⟨x', z, hrun', hz, hexit⟩ := opens h hrun
      refine ⟨x', z, runs_bind.2 ⟨_, _, runs_current.2 ⟨htok', rfl⟩, ?_⟩, hz, hexit⟩
      dsimp only
      rwa [if_neg hi]
  · exact absurd hrun not_runs_reject

theorem arrives_signature {sort : Signature} {t : Term} (h : w.Abreast stop c c')
    (hk : w.fst.kindAt c.pos = sort.keyword) (hrun : (signature term sort).Runs w.fst c t x)
    (hx : x.pos ≤ stop + w.shift) : (signature term sort).Arrives w stop c' t x := by
  obtain ⟨he, -⟩ := Kind.plain_of_text? sort.isSome_text?
  simp only [signature, runs_bind, runs_pure] at hrun
  obtain ⟨_, y, hbump, name, z, hname, ps, _, hps, rfl, rfl⟩ := hrun
  have hz := (declName_reads _ hname).row.stop_eq
  have hlen := (paramsUntil_reads term_reads rfl _ hps).row.stop_eq
  refine (arrives_bump ht.seam h hbump hk he (by cases sort <;> rfl) (by omega)).bind fun y' hy' => ?_
  obtain ⟨z', zone, hname', hzone, hexit⟩ := exists_runs_declName ht.seam hy' hname (by omega)
  refine arrives_after hname' (Arrives.bind ?_ fun _ hx => arrives_pure hx _)
  exact (mimics_paramsUntil (mimicTerms_term w y'.pos) rfl _ hzone (Nat.le_succ _) (hexit _)).arrives hps

theorem arrives_record {sort : Record} {t : Term} (h : w.Abreast stop c c')
    (hk : w.fst.kindAt c.pos = sort.keyword) (hrun : (record term sort).Runs w.fst c t x)
    (hx : x.pos ≤ stop + w.shift) : (record term sort).Arrives w stop c' t x := by
  obtain ⟨he, -⟩ := Kind.plain_of_text? sort.isSome_text?
  simp only [record, runs_bind, runs_pure] at hrun
  obtain ⟨_, y, hbump, name, z, hname, fs, _, hfs, rfl, rfl⟩ := hrun
  have hz := (declName_reads _ hname).row.stop_eq
  have hlen := (fieldsUntil_reads term_reads rfl _ hfs).row.stop_eq
  refine (arrives_bump ht.seam h hbump hk he (by cases sort <;> rfl) (by omega)).bind fun y' hy' => ?_
  obtain ⟨z', zone, hname', hzone, hexit⟩ := exists_runs_declName ht.seam hy' hname (by omega)
  refine arrives_after hname' (Arrives.bind ?_ fun _ hx => arrives_pure hx _)
  exact (mimics_fieldsUntil (mimicTerms_term w y'.pos) rfl _ hzone (Nat.le_succ _) (hexit _)).arrives hfs

theorem arrives_trait {t : Term} (h : w.Abreast stop c c') (hrun : (trait term).Runs w.fst c t x)
    (hx : x.pos ≤ stop + w.shift) : (trait term).Arrives w stop c' t x := by
  simp only [trait, runs_bind, runs_pure] at hrun
  obtain ⟨_, y, htrait, name, z, hname, bs, _, hbs, rfl, rfl⟩ := hrun
  have hz := (declName_reads _ hname).row.stop_eq
  have hlen := (itemsUntil_reads (traitBinding_reads term_reads) rfl hbs).row.stop_eq
  refine (arrives_expect ht.seam h htrait (by decide) rfl (by omega)).bind fun y' hy' => ?_
  obtain ⟨z', zone, hname', hzone, hexit⟩ := exists_runs_declName ht.seam hy' hname (by omega)
  refine arrives_after hname' (Arrives.bind ?_ fun _ hx => arrives_pure hx _)
  refine (mimics_itemsUntil rfl hzone (fun hy _ => ?_) (hexit _)).arrives hbs
  exact mimics_traitBinding (mimicTerms_term w y'.pos) hy (Nat.le_of_succ_le hy.le_pos)

theorem arrives_caseOf {t : Term} (h : w.Abreast stop c c') (hrun : (caseOf term).Runs w.fst c t x)
    (hx : x.pos ≤ stop + w.shift) : (caseOf term).Arrives w stop c' t x := by
  simp only [caseOf, runs_bind, runs_pure] at hrun
  obtain ⟨_, y, hcase, _, z, hopen, bs, _, hbs, rfl, rfl⟩ := hrun
  have hlen := (itemsUntil_reads (branch_reads term_reads) rfl hbs).row.stop_eq
  have hz := (expect_mark hopen rfl).row.stop_eq
  obtain ⟨htake, hk⟩ := (runs_expect (by decide)).1 hopen
  refine (arrives_expect ht.seam h hcase (by decide) rfl (by omega)).bind fun y' hy' => ?_
  obtain ⟨z', zone, htake', hzone, hexit⟩ := hy'.opens ht.seam htake (by rw [hk]; rfl) (by omega)
  refine arrives_after ((runs_expect (by decide)).2 ⟨htake', hk⟩) ?_
  refine Arrives.bind ?_ fun _ hx => arrives_pure hx _
  refine (mimics_itemsUntil rfl hzone (fun hy _ => ?_) (hexit _)).arrives hbs
  exact mimics_branch (mimicTerms_term w y'.pos) hy (Nat.le_of_succ_le hy.le_pos)

/-! ## Heads -/

omit ht in
theorem arrives_literal (hw : w.Seam stop) {t : Term} (h : w.Abreast stop c c')
    (hrun : literal.Runs w.fst c t x) (hx : x.pos ≤ stop + w.shift) :
    literal.Arrives w stop c' t x := by
  have hlen := (literal_reads hrun).1.row.stop_eq
  have hne := List.length_pos_iff.2 t.yield_ne_nil
  simp only [literal, runs_bind, runs_current] at hrun
  obtain ⟨_, _, ⟨rfl, rfl⟩, hrun⟩ := hrun
  refine arrives_current hw h (h.lt_stop (by omega) hx) ?_
  revert hrun
  split
  · rename_i tok htok
    have takes : ∀ {k : Kind} {u : Term}, tok.kind = k → k.bracket = .neither → k ≠ .eof →
        (bump >>= fun _ => pure u).Runs w.fst c t x →
          (bump >>= fun _ => pure u).Arrives w stop c' t x := by
      intro k u hk hb he hrun
      simp only [runs_bind, runs_pure] at hrun
      obtain ⟨_, _, hbump, rfl, rfl⟩ := hrun
      exact (arrives_bump hw h hbump ((Stream.kindAt_of_token htok).trans hk) he hb hx).bind
        fun _ hx => arrives_pure hx _
    split
    · exact takes ‹_› rfl (by decide)
    · exact takes ‹_› rfl (by decide)
    · exact takes ‹_› rfl (by decide)
    · exact takes ‹_› rfl (by decide)
    · exact takes ‹_› rfl (by decide)
    · exact takes ‹_› rfl (by decide)
    · exact fun hrun => absurd hrun not_runs_reject
  · exact fun hrun => absurd hrun not_runs_reject

theorem arrives_spread {r : Restrictions} {sort : Spread} {t : Term} (h : w.Abreast stop c c')
    (hs : start ≤ c'.pos) (hk : w.fst.kindAt c.pos = sort.mark)
    (hrun : (spread term r sort).Runs w.fst c t x) (hgoal : w.fst.Leads goal x.pos) :
    (spread term r sort).Arrives w stop c' t x := by
  have hx := hgoal.le ht.goal_le
  obtain ⟨he, -⟩ := Kind.plain_of_text? sort.isSome_text?
  simp only [spread, runs_bind, runs_pure] at hrun
  obtain ⟨_, y, hbump, operand, _, hterm, rfl, rfl⟩ := hrun
  have hpos := h.pos_eq
  have hy : y.pos = c.pos + 1 := (bump_mark hbump hk sort.isSome_text?).row.stop_eq
  have hlt := lt_of_term hterm
  refine (arrives_bump ht.seam h hbump hk he (by cases sort <;> rfl) (by omega)).bind fun y' hy' => ?_
  have hpos' := hy'.pos_eq
  exact (ht.carries (by omega) hy' hterm hgoal).bind fun _ hx => arrives_pure hx _

/-! ## Functions -/

/-- Parameters in square brackets. -/
theorem arrives_genericParams {mark : Token} {ps : List Param} {y : Cursor} (h : w.Abreast stop c c')
    (hopen : (expect .bracketOpen .generic).Runs w.fst c mark y)
    (hps : (paramsUntil term .bracketClose .generic).Runs w.fst y ps x) (hx : x.pos ≤ stop + w.shift) :
    ∃ y', (expect .bracketOpen .generic).Runs w.snd c' mark y' ∧
      (paramsUntil term .bracketClose .generic).Arrives w stop y' ps x := by
  have hlen := (paramsUntil_reads term_reads rfl _ hps).row.stop_eq
  obtain ⟨htake, hk⟩ := (runs_expect (by decide)).1 hopen
  obtain ⟨y', zone, htake', hzone, hexit⟩ := h.opens ht.seam htake (by rw [hk]; rfl) (by omega)
  refine ⟨y', (runs_expect (by decide)).2 ⟨htake', hk⟩, ?_⟩
  exact (mimics_paramsUntil (mimicTerms_term w c'.pos) rfl _ hzone (Nat.le_succ _) (hexit _)).arrives hps

theorem arrives_generic {r : Restrictions} {t : Term} (h : w.Abreast stop c c') (hs : start ≤ c'.pos)
    (hrun : (generic term r).Runs w.fst c t x) (hgoal : w.fst.Leads goal x.pos) :
    (generic term r).Arrives w stop c' t x := by
  have hx := hgoal.le ht.goal_le
  simp only [generic, runs_bind, runs_pure] at hrun
  obtain ⟨mark, y, hopen, ps, z, hps, b, _, hb, rfl, rfl⟩ := hrun
  have hlen := ((expect_mark hopen rfl).trans (paramsUntil_reads term_reads rfl _ hps)).row.stop_eq
  have hlt := lt_of_body hb
  have hpos := h.pos_eq
  obtain ⟨y', hopen', hps'⟩ := arrives_genericParams ht h hopen hps (by omega)
  refine arrives_after hopen' (hps'.bind fun z' hz' => ?_)
  have hpos' := hz'.pos_eq
  exact (arrives_body ht hz' (by omega) hb hgoal).bind fun _ hx => arrives_pure hx _

theorem arrives_typeList {ts : List Term} (h : w.Abreast stop c c')
    (hrun : (typeList term).Runs w.fst c ts x) (hx : x.pos ≤ stop + w.shift) :
    (typeList term).Arrives w stop c' ts x := by
  simp only [typeList, runs_bind] at hrun
  obtain ⟨_, y, hopen, hts⟩ := hrun
  have hlen := (termsUntil_reads term_reads rfl _ hts).row.stop_eq
  obtain ⟨htake, hk⟩ := (runs_expect (by decide)).1 hopen
  obtain ⟨y', zone, htake', hzone, hexit⟩ := h.opens ht.seam htake (by rw [hk]; rfl) (by omega)
  refine arrives_after ((runs_expect (by decide)).2 ⟨htake', hk⟩) ?_
  exact (mimics_termsUntil (mimicTerms_term w c'.pos) rfl .funOf hzone (Nat.lt_succ_self _)
    (hexit _)).arrives hts

/-- Parameters in round brackets, from the opening one on. -/
theorem arrives_params {ps : List Param} {u : Unit} {y : Cursor} (h : w.Abreast stop c c')
    (hk : w.fst.kindAt c.pos = .parenOpen) (hbump : bump.Runs w.fst c u y)
    (hps : (paramsUntil term .parenClose .fun_).Runs w.fst y ps x) (hx : x.pos ≤ stop + w.shift) :
    ∃ y', bump.Runs w.snd c' u y' ∧
      (paramsUntil term .parenClose .fun_).Arrives w stop y' ps x := by
  have hlen := (paramsUntil_reads term_reads rfl _ hps).row.stop_eq
  obtain ⟨t, htake, hkt⟩ := (runs_bump hk (by decide)).1 hbump
  obtain ⟨y', zone, htake', hzone, hexit⟩ := h.opens ht.seam htake (by rw [hkt]; rfl) (by omega)
  refine ⟨y', (runs_bump (htake'.kindAt.trans hkt) (by decide)).2 ⟨t, htake', hkt⟩, ?_⟩
  exact (mimics_paramsUntil (mimicTerms_term w c'.pos) rfl _ hzone (Nat.le_succ _) (hexit _)).arrives hps

theorem arrives_plainFunction {r : Restrictions} {t : Term} {close : Nat} (h : w.Abreast stop c c')
    (hs : start ≤ c'.pos) (hk : w.fst.kindAt c.pos = .parenOpen)
    (hclose : w.fst.matchingClose? c.pos = some (close + w.shift))
    (hrun : (plainFunction term r).Runs w.fst c t x) (hgoal : w.fst.Leads goal x.pos) :
    close + 1 < stop ∧ (plainFunction term r).Arrives w stop c' t x := by
  have hx := hgoal.le ht.goal_le
  simp only [plainFunction, runs_bind, runs_pure] at hrun
  obtain ⟨_, y, hbump, ps, z, hps, b, _, hb, rfl, rfl⟩ := hrun
  have hlist := (bump_mark hbump hk rfl).trans (paramsUntil_reads term_reads rfl _ hps)
  have hpair := Stream.matchingClose?_of_row (o := .parenOpen) rfl hlist.row (bracketed_paramsYield ps)
  rw [hclose, Option.some.injEq] at hpair
  have hz := hlist.row.stop_eq
  rw [List.length_append, List.length_singleton] at hz
  have hlt := lt_of_body hb
  have hpos := h.pos_eq
  obtain ⟨y', hbump', hps'⟩ := arrives_params ht h hk hbump hps (by omega)
  refine ⟨by omega, arrives_after hbump' (hps'.bind fun z' hz' => ?_)⟩
  have hpos' := hz'.pos_eq
  exact (arrives_body ht hz' (by omega) hb hgoal).bind fun _ hx => arrives_pure hx _

omit ht in
/-- The place behind a list and an arrow. -/
theorem abreast_result (h : w.Abreast stop c c') {close : Nat} (hreach : w.snd.Reaches 0 (close + 1))
    (harrow : w.snd.kindAt (close + 1) = .arrow) (hlt : close + 1 < stop) :
    w.Abreast stop { c with pos := close + w.shift + 2 } { c' with pos := close + 2 } :=
  { h with
    pos_eq := by show close + w.shift + 2 = close + 2 + w.shift; omega
    reached := hreach.trans (.plain (by rw [harrow]; rfl) (by rw [harrow]; decide) (.refl _))
    le_stop := hlt }

/-- The parameters of a function with a result, and the arrow behind them. -/
theorem arrives_paramList {close : Nat} {u : Unit} {ps : List Param} {mark : Token} {y z v : Cursor}
    (h : w.Abreast stop c c') (hk : w.fst.kindAt c.pos = .parenOpen)
    (hclose : w.fst.matchingClose? c.pos = some (close + w.shift)) (hlt : close + 1 < stop)
    (hbump : bump.Runs w.fst c u y) (hps : (paramsUntil term .parenClose .fun_).Runs w.fst y ps z)
    (hmark : (expect .arrow .fun_).Runs w.fst z mark v) :
    ∃ y' z' v', bump.Runs w.snd c' u y' ∧ (paramsUntil term .parenClose .fun_).Runs w.snd y' ps z' ∧
      (expect .arrow .fun_).Runs w.snd z' mark v' := by
  have hlist := (bump_mark hbump hk rfl).trans (paramsUntil_reads term_reads rfl _ hps)
  have hland := Stream.seek_past_list hclose (hlist.cast rfl nofun) (bracketed_paramsYield ps)
    ((runs_expect (by decide)).1 hmark).1
  have hv : v.pos ≤ close + w.shift + 2 := by
    rw [← hland]
    exact Nat.min_le_left _ _
  have hz := (expect_mark hmark rfl).row.stop_eq
  obtain ⟨y', hbump', z', hps', hz'⟩ := arrives_params ht h hk hbump hps (by omega)
  obtain ⟨v', hmark', -⟩ := arrives_expect ht.seam hz' hmark (by decide) rfl (by omega)
  exact ⟨y', z', v', hbump', hps', hmark'⟩

/-- The list of a function type, and the arrow behind it. -/
theorem arrives_typesList {close : Nat} {ts : List Term} {mark : Token} {z v : Cursor}
    (h : w.Abreast stop c c') (hclose : w.fst.matchingClose? c.pos = some (close + w.shift))
    (hlt : close + 1 < stop) (hts : (typeList term).Runs w.fst c ts z)
    (hmark : (expect .arrow .funOf).Runs w.fst z mark v) :
    ∃ z' v', (typeList term).Runs w.snd c' ts z' ∧ (expect .arrow .funOf).Runs w.snd z' mark v' := by
  have hlist := typeList_reads term_reads hts
  have hland := Stream.seek_past_list hclose (hlist.cast rfl nofun) (bracketed_termsYield ts)
    ((runs_expect (by decide)).1 hmark).1
  have hv : v.pos ≤ close + w.shift + 2 := by
    rw [← hland]
    exact Nat.min_le_left _ _
  have hz := (expect_mark hmark rfl).row.stop_eq
  obtain ⟨z', hts', hz'⟩ := arrives_typeList ht h hts (by omega)
  obtain ⟨v', hmark', -⟩ := arrives_expect ht.seam hz' hmark (by decide) rfl (by omega)
  exact ⟨z', v', hts', hmark'⟩

/-- The result of a function is read where it stands in both streams, and so is what follows it. -/
theorem arrives_withResult {r : Restrictions} {t : Term} {close : Nat} (h : w.Abreast stop c c')
    (hs : start ≤ c'.pos) (hk : w.fst.kindAt c.pos = .parenOpen)
    (hclose : w.fst.matchingClose? c.pos = some (close + w.shift)) (hreach : w.snd.Reaches 0 (close + 1))
    (harrow : w.fst.kindAt (close + w.shift + 1) = .arrow)
    (hrun : (withResult term r (close + w.shift)).Runs w.fst c t x) (hgoal : w.fst.Leads goal x.pos) :
    close + 1 < stop ∧ (withResult term r close).Arrives w stop c' t x := by
  have hx := hgoal.le ht.goal_le
  obtain ⟨result, u, hresult, hcases⟩ := (runs_withResult harrow).1 hrun
  have hlt := lt_of_term hresult
  simp only at hlt
  have hu : w.fst.Leads goal u.pos := by
    rcases hcases with ⟨-, -, _, _, _, _, b, _, -, -, -, -, hb⟩ | ⟨-, _, _, _, _, -, -, -, rfl⟩
    · exact leads_of_body hb hgoal
    · exact hgoal
  have hux := hu.le ht.goal_le
  have hstop : close + 1 < stop := by omega
  have harrow' : w.snd.kindAt (close + 1) = .arrow := by
    rw [← ht.seam.kindAt_eq hstop, Nat.add_right_comm, harrow]
  have hlt' := Stream.lt_of_matchingClose? (by rw [hk]; rfl) hclose
  have hpos := h.pos_eq
  obtain ⟨u', hresult', hu'⟩ := ht.carries (by simp only; omega) (abreast_result h hreach harrow' hstop)
    hresult hu
  have hposu := hu'.pos_eq
  refine ⟨hstop, ?_⟩
  rcases hcases with ⟨hr, hku, y, z, v, ps, b, mark, rfl, hbump, hps, hmark, hb⟩ |
    ⟨hfun, z, v, ts, mark, rfl, hts, hmark, rfl⟩
  · have hltb := lt_of_body hb
    obtain ⟨y', z', v', hbump', hps', hmark'⟩ := arrives_paramList ht h hk hclose hstop hbump hps hmark
    obtain ⟨x', hb', hx'⟩ := arrives_body ht hu' (by omega) hb hgoal
    refine ⟨x', (runs_withResult harrow').2 ⟨result, u', hresult', .inl ⟨hr, ?_, y', z', v', ps, b, mark,
      rfl, hbump', hps', hmark', hb'⟩⟩, hx'⟩
    rw [← hu'.kindAt_eq ht.seam (by omega), hku]
  · obtain ⟨z', v', hts', hmark'⟩ := arrives_typesList ht h hclose hstop hts hmark
    refine ⟨u', (runs_withResult harrow').2 ⟨result, u', hresult', .inr ⟨?_, z', v', ts, mark, rfl, hts',
      hmark', rfl⟩⟩, hu'⟩
    rintro ⟨hr, hk'⟩
    exact hu'.kindAt_ne ht.seam rfl (fun hku => hfun ⟨hr, hku⟩) hk'

theorem arrives_function {r : Restrictions} {t : Term} (h : w.Abreast stop c c')
    (hs : start ≤ c'.pos) (hk : w.fst.kindAt c.pos = .parenOpen)
    (hrun : (function term r).Runs w.fst c t x) (hgoal : w.fst.Leads goal x.pos) :
    (function term r).Arrives w stop c' t x := by
  have hx := hgoal.le ht.goal_le
  have hlen := (function_reads term_reads hrun hk).1.row.stop_eq
  have hne := List.length_pos_iff.2 t.yield_ne_nil
  have hlt := h.lt_stop (by omega) hx
  have hk' := h.kindAt_eq ht.seam hlt
  obtain ⟨close, hclose, hstop, hfst, hreach⟩ := h.matchingClose?_eq ht.seam hlt (by rw [← hk', hk]; rfl)
  obtain ⟨close', hclose', hcases⟩ := runs_function.1 hrun
  rw [hfst, Option.some.injEq] at hclose'
  subst hclose'
  have next : ∀ {k : Kind}, close + 1 < stop → w.fst.kindAt (close + w.shift + 1) = k →
      w.snd.kindAt (close + 1) = k := fun hlt hk => by
    rw [← ht.seam.kindAt_eq hlt, Nat.add_right_comm, hk]
  rcases hcases with ⟨harrow, hrun⟩ | ⟨harrow, hrun⟩
  · obtain ⟨hlt, x', hrun', hx'⟩ := arrives_plainFunction ht h hs hk hfst hrun hgoal
    exact ⟨x', runs_function.2 ⟨close, hclose, .inl ⟨next hlt harrow, hrun'⟩⟩, hx'⟩
  · obtain ⟨hlt, x', hrun', hx'⟩ := arrives_withResult ht h hs hk hfst hreach harrow hrun hgoal
    exact ⟨x', runs_function.2 ⟨close, hclose, .inr ⟨next hlt harrow, hrun'⟩⟩, hx'⟩

/-! ## Heads, chains and terms -/

theorem arrives_head {r : Restrictions} {t : Term} (h : w.Abreast stop c c') (hs : start ≤ c'.pos)
    (hrun : (head term r).Runs w.fst c t x) (hgoal : w.fst.Leads goal x.pos) :
    (head term r).Arrives w stop c' t x := by
  have hx := hgoal.le ht.goal_le
  have hlen := (head_reads term_reads r hrun).1.row.stop_eq
  have hne := List.length_pos_iff.2 t.yield_ne_nil
  have hkind := (h.kindAt_eq ht.seam (h.lt_stop (by omega) hx)).symm
  cases runs_head.1 hrun with
  | @block y _ ts hk hbump hts =>
    have hy := (blocked_reads term_reads _ hts).row.stop_eq
    obtain ⟨y', hbump', hy'⟩ := arrives_bump ht.seam h hbump hk (by decide) rfl (by omega)
    obtain ⟨x', hts', hx'⟩ := arrives_blocked ht hy' hts hx
    exact ⟨x', runs_head.2 (.block (hkind.trans hk) hbump' hts'), hx'⟩
  | generic hk hrun =>
    obtain ⟨x', hrun', hx'⟩ := arrives_generic ht h hs hrun hgoal
    exact ⟨x', runs_head.2 (.generic (hkind.trans hk) hrun'), hx'⟩
  | binding hk hb =>
    obtain ⟨x', hb', hx'⟩ := arrives_binding ht h hs hb hgoal
    exact ⟨x', runs_head.2 (.binding (hkind.trans hk) hb'), hx'⟩
  | loop hk hrun =>
    obtain ⟨x', hrun', hx'⟩ := arrives_loop ht h hs hrun hgoal
    exact ⟨x', runs_head.2 (.loop (hkind.trans hk) hrun'), hx'⟩
  | signature sort hk hrun =>
    obtain ⟨x', hrun', hx'⟩ := arrives_signature ht h hk hrun hx
    exact ⟨x', runs_head.2 (.signature sort (hkind.trans hk) hrun'), hx'⟩
  | record sort hk hrun =>
    obtain ⟨x', hrun', hx'⟩ := arrives_record ht h hk hrun hx
    exact ⟨x', runs_head.2 (.record sort (hkind.trans hk) hrun'), hx'⟩
  | trait hk hrun =>
    obtain ⟨x', hrun', hx'⟩ := arrives_trait ht h hrun hx
    exact ⟨x', runs_head.2 (.trait (hkind.trans hk) hrun'), hx'⟩
  | function hk hrun =>
    obtain ⟨x', hrun', hx'⟩ := arrives_function ht h hs hk hrun hgoal
    exact ⟨x', runs_head.2 (.function (hkind.trans hk) hrun'), hx'⟩
  | cases hk hrun =>
    obtain ⟨x', hrun', hx'⟩ := arrives_caseOf ht h hrun hx
    exact ⟨x', runs_head.2 (.cases (hkind.trans hk) hrun'), hx'⟩
  | spread sort hk hrun =>
    obtain ⟨x', hrun', hx'⟩ := arrives_spread ht h hs hk hrun hgoal
    exact ⟨x', runs_head.2 (.spread sort (hkind.trans hk) hrun'), hx'⟩
  | literal hk hrun =>
    obtain ⟨x', hrun', hx'⟩ := arrives_literal ht.seam h hrun hx
    exact ⟨x', runs_head.2 (.literal (hkind.symm ▸ hk) hrun'), hx'⟩

/-- A named application before the seam, read or not. -/
theorem mimics_applier (h : w.Abreast stop c c') (hlt : c'.pos < stop)
    (hk : w.fst.kindAt c.pos = .braceOpen) :
    (namedApplier term).Mimics w (w.Abreast stop) c c' (namedApplier term) := by
  have hpos := h.pos_eq
  obtain ⟨t, htoken, hkt⟩ := Stream.exists_token_of_kindAt hk (by decide)
  have htake : w.fst.Takes c t { c with pos := c.pos + 1 } := ⟨htoken, by rw [hkt]; decide, rfl⟩
  obtain ⟨y', zone, htake', hzone, hexit⟩ := h.opens ht.seam htake (by rw [hkt]; rfl) (by simp only; omega)
  refine mimics_after ((runs_expect (by decide)).2 ⟨htake, hkt⟩)
    ((runs_expect (by decide)).2 ⟨htake', hkt⟩) ?_
  exact mimics_fieldsUntil (mimicTerms_term w c'.pos) rfl .namedApplier hzone (Nat.le_succ _) (hexit _)

theorem arrives_link {r : Restrictions} {target : Term} {o : Option Term} (h : w.Abreast stop c c')
    (hs : start ≤ c'.pos) (hlt : c'.pos < stop) (hrun : (link term r target).Runs w.fst c o x)
    (hgoal : w.fst.Leads goal x.pos) : (link term r target).Arrives w stop c' o x := by
  have hx := hgoal.le ht.goal_le
  have hpos := h.pos_eq
  have hkind := (h.kindAt_eq ht.seam hlt).symm
  cases runs_link.1 hrun with
  | @select y _ name hk hbump hname =>
    have hy := (expectIdent_reads .selector hname).row.stop_eq
    obtain ⟨y', hbump', hy'⟩ := arrives_bump ht.seam h hbump hk (by decide) rfl (by omega)
    obtain ⟨x', hname', hx'⟩ := arrives_expectIdent ht.seam hy' hname hx
    exact ⟨x', runs_link.2 (.select (hkind.trans hk) hbump' hname'), hx'⟩
  | @apply sort y _ as hk hbump has =>
    have hopen : sort.opening ≠ .eof ∧ sort.opening.bracket = .opening := by cases sort <;> decide
    have hclose : sort.closing.bracket = .closing ∧ sort.closing.text?.isSome = true := by
      cases sort <;> exact ⟨rfl, rfl⟩
    have hlen := (argsUntil_reads term_reads hclose.2 _ has).row.stop_eq
    obtain ⟨t, htake, hkt⟩ := (runs_bump hk hopen.1).1 hbump
    obtain ⟨y', zone, htake', hzone, hexit⟩ := h.opens ht.seam htake (hkt ▸ hopen.2) (by omega)
    have hbump' : bump.Runs w.snd c' () y' :=
      (runs_bump (htake'.kindAt.trans hkt) hopen.1).2 ⟨t, htake', hkt⟩
    obtain ⟨x', has', hx'⟩ := (mimics_argsUntil (mimicTerms_term w c'.pos) hclose.1 (Applier.rule sort) hzone
      (Nat.lt_succ_self _) (hexit _)).arrives has
    exact ⟨x', runs_link.2 (.apply sort (hkind.trans hk) hbump' has'), hx'⟩
  | applyNamed hk hfields =>
    obtain ⟨x', hfields', hx'⟩ := (mimics_applier ht h hlt hk).speculate_arrives hfields h
    exact ⟨x', runs_link.2 (.applyNamed (hkind.trans hk) hfields'), hx'⟩
  | left hk hfields =>
    obtain ⟨x', hfields', hx'⟩ := (mimics_applier ht h hlt hk).speculate_arrives hfields h
    exact ⟨x', runs_link.2 (.left (hkind.trans hk) hfields'), hx'⟩
  | @assign y _ value hk hbump hvalue =>
    have hy : y.pos = c.pos + 1 := (bump_mark hbump hk rfl).row.stop_eq
    have hlt := lt_of_term hvalue
    obtain ⟨y', hbump', hy'⟩ := arrives_bump ht.seam h hbump hk (by decide) rfl (by omega)
    have hpos' := hy'.pos_eq
    obtain ⟨x', hvalue', hx'⟩ := ht.carries (by omega) hy' hvalue hgoal
    exact ⟨x', runs_link.2 (.assign (hkind.trans hk) hbump' hvalue'), hx'⟩
  | none hk => exact ⟨c', runs_link.2 (.none (hkind.symm ▸ hk)), h⟩

theorem arrives_chains {r : Restrictions} {first t : Term} (hrun : Chains w.fst r first c t x) :
    ∀ {c' : Cursor}, w.Abreast stop c c' → start ≤ c'.pos → w.fst.Leads goal x.pos →
      ∃ x', Chains w.snd r first c' t x' ∧ w.Abreast stop x x' := by
  induction hrun with
  | done hk => exact fun h _ _ => ⟨_, .done (h.not_continuesChain ht.seam hk), h⟩
  | @left head c hk hdepth hlink =>
    intro c' h hs hgoal
    have hpos := h.pos_eq
    have hd := h.depth_eq
    have hd' := ht.seam.maxDepth_eq
    by_cases hlt : c'.pos < stop
    · have hk' := h.kindAt_eq ht.seam hlt
      have h₁ : w.Abreast stop { c with depth := c.depth + 1 } { c' with depth := c'.depth + 1 } :=
        h.level (by omega)
      obtain ⟨y', hlink', -⟩ := arrives_link ht h₁ hs hlt hlink hgoal
      rcases link_reads term_reads hlink' with ⟨_, _, ho, -⟩ | ⟨-, rfl⟩
      · cases ho
      · exact ⟨c', .left (hk' ▸ hk) (by omega) hlink', h⟩
    · -- the token at the seam begins no link in the second stream
      have hstop : c'.pos = stop := Nat.le_antisymm h.le_stop (Nat.not_lt.1 hlt)
      refine ⟨c', .done ?_, h⟩
      by_contra hc
      have hends := extendsTerm_of_continuesChain (Bool.not_eq_false _ ▸ hc)
      rw [hstop, ht.seam.ends] at hends
      cases hends
  | @link head longer whole c y x hk hdepth hlink hchain ih =>
    intro c' h hs hgoal
    have hx := hgoal.le ht.goal_le
    have hpos := h.pos_eq
    have hd := h.depth_eq
    have hd' := ht.seam.maxDepth_eq
    obtain ⟨ys, hread, -, hlt⟩ := reads_of_link hlink
    obtain ⟨zs, -, hread'⟩ := reads_of_chains hchain
    have hyx := hread'.row.stop_eq
    have hdx : x.depth = c.depth + 1 := hread'.depth_eq.trans hread.depth_eq
    simp only at hlt hx
    have hk' := h.kindAt_eq ht.seam (by omega)
    have h₁ : w.Abreast stop { c with depth := c.depth + 1 } { c' with depth := c'.depth + 1 } :=
      h.level (by omega)
    obtain ⟨y', hlink', hy'⟩ := arrives_link ht h₁ hs (by simp only; omega) hlink
      (leads_of_chains hchain hgoal)
    have hposy := hy'.pos_eq
    obtain ⟨x', hchain', hx'⟩ := ih hy' (by omega) hgoal
    have hdx' := hx'.depth_eq
    exact ⟨_, .link (hk' ▸ hk) (by omega) hlink' hchain', hx'.level (by omega)⟩

/-- One level deep, a head and its links. -/
theorem arrives_term {r : Restrictions} {t : Term} (h : w.Abreast stop c c') (hs : start ≤ c'.pos)
    (hrun : (term r).Runs w.fst c t x) (hgoal : w.fst.Leads goal x.pos) :
    (term r).Arrives w stop c' t x := by
  have hx := hgoal.le ht.goal_le
  have hpos := h.pos_eq
  have hd := h.depth_eq
  have hd' := ht.seam.maxDepth_eq
  have hstop := h.le_stop
  have hle := ht.seam.le_fst
  have hle' := ht.seam.le_snd
  obtain ⟨hdepth, first, y, z, hfirst, hchain, rfl⟩ := (runs_term (by omega)).1 hrun
  have hread := (head_reads term_reads r hfirst).1
  have hy := hread.row.stop_eq
  obtain ⟨zs, -, hread'⟩ := reads_of_chains hchain
  have hyz := hread'.row.stop_eq
  have hdz : z.depth = c.depth + 1 := hread'.depth_eq.trans hread.depth_eq
  have h₁ : w.Abreast stop { c with depth := c.depth + 1 } { c' with depth := c'.depth + 1 } :=
    h.level (by omega)
  simp only at hx hy
  obtain ⟨y', hfirst', hy'⟩ := arrives_head ht h₁ hs hfirst (leads_of_chains hchain hgoal)
  have hposy := hy'.pos_eq
  obtain ⟨z', hchain', hz'⟩ := arrives_chains ht hchain hy' (by omega) hgoal
  have hdz' := hz'.depth_eq
  exact ⟨_, (runs_term (by omega)).2 ⟨by omega, first, y', z', hfirst', hchain', rfl⟩, hz'.level (by omega)⟩

end

/-- If the loop heads that are read again are so in both streams, all terms that lead to the goal are
carried over. -/
theorem carryTerms_of_rereads {w : Window} {stop : Nat} {goal : Nat → Prop} (hw : w.Seam stop)
    (hgoal : ∀ i, goal i → i ≤ stop + w.shift) (hre : ∀ start, Rereads w stop goal start) (start : Nat) :
    CarryTerms w stop goal start := by
  induction hn : stop - start using Nat.strong_induction_on generalizing start with
  | _ n ih =>
    refine ⟨hw, hgoal, fun {c c'} _ _ _ hs h hrun hx => ?_, hre start⟩
    have hlt := h.lt_stop (lt_of_term hrun) (hx.le hgoal)
    exact arrives_term (ih (stop - c'.pos) (by omega) c'.pos rfl) h (Nat.le_refl _) hrun hx

end TermLang.Grammar
