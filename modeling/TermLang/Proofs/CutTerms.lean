import TermLang.Proofs.Levels
import TermLang.Proofs.Relaxed
import TermLang.Proofs.SeamTerms

/-!
# Terms that are cut off

Where the terms around it end, a term that is read without restrictions may go on: before `=>` a function
type, which the terms around it have ended with, becomes a function. If the second stream ends there, the
term is cut off: what was read of it is a term, and ends there as well (`CutOff`). It ends with another
term, so it is no application.
-/

namespace TermLang

open Grammar

/-- The seam as a goal in the first stream. -/
abbrev Window.atSeam (w : Window) (stop : Nat) : Nat → Prop := (· = stop + w.shift)

/-- In the second stream the parser succeeds up to the seam, with something that ends with a term. -/
def Parse.CutOff {α : Type} (p : Parse α) (last? : α → Option Term) (w : Window) (stop : Nat)
    (c' : Cursor) : Prop :=
  ∃ a, p.Runs w.snd c' a { c' with pos := stop } ∧ (last? a).isSome = true

namespace Grammar

open Parse
open Terminal (within)

/-- The terms that lead to the seam are carried over, no link begins there, and behind an index the terms
that lead to nowhere are cut off, if under other restrictions a term is read there that leads to the
seam. -/
structure CutTerms (w : Window) (stop start : Nat) : Prop extends
    CarryTerms w stop (w.atSeam stop) start where
  eof : w.snd.kindAt stop = .eof
  no_link : ∀ {d : Nat} {target longer : Term} {x : Cursor},
    continuesChain .free (w.fst.kindAt (stop + w.shift)) = true →
      ¬ (link term .free target).Runs w.fst ⟨stop + w.shift, d⟩ (some longer) x
  cuts : ∀ {c c' x y : Cursor} {d : Nat} {r : Restrictions} {first t : Term}, start < c'.pos →
    w.Abreast stop c c' → (term .free).Runs w.fst c first y → ¬ w.fst.Leads (w.atSeam stop) y.pos →
    (term r).Runs w.fst ⟨c.pos, d⟩ t x → w.fst.Leads (w.atSeam stop) x.pos →
      (term .free).CutOff Term.last? w stop c'

section

variable {s : Stream} {c x : Cursor} {r : Restrictions} {t : Term}

/-- Two bracketed rows from one bracket end with the same one. -/
theorem stop_eq_of_rows {o k : Kind} {ys zs : List Terminal} {i j j' : Nat} (ho : o.partner? = some k)
    (h : s.Row i (within o k ys) j) (hb : Bracketed ys) (h' : s.Row i (within o k zs) j')
    (hb' : Bracketed zs) : j = j' := by
  have hclose := Stream.matchingClose?_of_row ho h hb
  rw [Stream.matchingClose?_of_row ho h' hb', Option.some.injEq] at hclose
  have hj := h.stop_eq
  have hj' := h'.stop_eq
  simp only [within, List.length_cons] at hj hj'
  omega

/-- Of two readings of a list with a result, if the one without restrictions does not read the list as
types, then the other one does; or both read the same result, and the other one goes on with a body. -/
theorem types_or_body {close : Nat} {d : Nat} {t e result : Term} {x y u : Cursor}
    (hk : s.kindAt c.pos = .parenOpen) (harrow : s.kindAt (close + 1) = .arrow)
    (hrun : (withResult term .free close).Runs s c t y)
    (hrun' : (withResult term r close).Runs s ⟨c.pos, d⟩ e x)
    (hresult : (term .free).Runs s { c with pos := close + 2 } result u) :
    (∃ ts z mark v, (typeList term).Runs s c ts z ∧ (expect .arrow .funOf).Runs s z mark v) ∨
      ∃ u' b, u'.pos = u.pos ∧ (body term r).Runs s u' b x := by
  have hlt := start_lt_of_term hresult
  have hdepth := ((runs_term (Nat.le_of_lt hlt)).1 hresult).1
  obtain ⟨_, _, -, hcases⟩ := (runs_withResult harrow).1 hrun
  obtain ⟨result', u', hresult', hcases'⟩ := (runs_withResult harrow).1 hrun'
  obtain ⟨-, -, z, v, n, ps, b, mark, -, hbump, hps, hmark, -⟩ |
    ⟨-, z, v, ts, mark, -, hts, hmark, -⟩ := hcases
  · obtain ⟨hr, hku, _, _, _, _, b', _, -, -, -, -, hb'⟩ | ⟨-, _, _, ts, _, -, hts, -, -⟩ := hcases'
    · -- no restriction keeps the arrow from this result, so it is the same without restrictions
      have hfree := relax_term hresult' (by rw [hku]; exact hr)
      have hsame := same_of_mimics (fun hsees => ⟨_, mimics_term hsees .free⟩) (by rfl)
        (Nat.le_of_lt hlt) hresult hfree
      exact .inr ⟨u', b', hsame.2.symm, hb'⟩
    · obtain ⟨htake, hm⟩ := (runs_expect (by decide)).1 hmark
      exact .inl ⟨ts, v, mark, n, typeList_of_params hk hbump hps hts rfl hdepth,
        (runs_expect (by decide)).2 ⟨htake, hm⟩⟩
  · exact .inl ⟨ts, z, mark, v, hts, hmark⟩

theorem kindAt_ne_of_term (h : (term r).Runs s c t x) : s.kindAt c.pos ≠ .braceOpen := by
  intro hk
  obtain ⟨-, first, y, z, hfirst, -, -⟩ := (runs_term (Nat.le_of_lt (start_lt_of_term h))).1 h
  simp only [head, runs_bind, runs_kind] at hfirst
  obtain ⟨_, _, ⟨rfl, rfl⟩, hfirst⟩ := hfirst
  rw [hk] at hfirst
  exact not_runs_reject hfirst

end

section

variable {w : Window} {stop start : Nat} (ht : CutTerms w stop start) {c c' x y : Cursor} {d : Nat}
  {r : Restrictions}

include ht

/-! ## Bodies, operands and bindings -/

theorem cut_body {b : Body} (h : w.Abreast stop c c') (hs : start ≤ c'.pos) (hlt : c'.pos < stop)
    (hrun : (body term .free).Runs w.fst c b y) (hy : ¬ w.fst.Leads (w.atSeam stop) y.pos)
    (hc : w.fst.Leads (w.atSeam stop) c.pos) : (body term .free).CutOff Body.last? w stop c' := by
  have hpos := h.pos_eq
  obtain ⟨mark, z, harrow, hcases⟩ := runs_body.1 hrun
  obtain ⟨htake, hk⟩ := (runs_expect (by decide)).1 harrow
  have hkc := htake.kindAt.trans hk
  have hz := htake.next
  obtain ⟨z', htake', hz'⟩ := h.takes ht.seam htake (by rw [hk]; rfl) (by rw [hz]; simp only; omega)
  obtain rfl := hz
  obtain rfl := htake'.next
  cases hc with
  | here hstop =>
    have : c.pos = stop + w.shift := hstop
    omega
  | select hk' => exact absurd (hkc.symm.trans hk') (by decide)
  | pair hb =>
    rw [hkc] at hb
    cases hb
  | @block _ close _ hopen hclose hend =>
    obtain ⟨-, ts, -, hts⟩ | ⟨hne, -⟩ := hcases
    · obtain ⟨-, hlt', hclose'⟩ := close_of_blocked hts
      simp only [hclose, Option.some.injEq] at hclose'
      simp only at hlt'
      rw [show close + 1 = y.pos by omega] at hend
      exact absurd hend hy
    · exact absurd hopen hne
  | term _ hterm hx =>
    obtain ⟨hopen, -⟩ | ⟨hne, t, rfl, ht'⟩ := hcases
    · exact False.elim (kindAt_ne_of_term hterm hopen)
    · have hlt' := lt_of_term hterm
      have hle := hx.le ht.goal_le
      simp only at hlt'
      obtain ⟨other, hother, hopen⟩ := ht.cuts (by simp only; omega) hz' ht' hy hterm hx
      refine ⟨.single other, runs_body.2 ⟨mark, _, (runs_expect (by decide)).2 ⟨htake', hk⟩,
        .inr ⟨?_, other, rfl, hother⟩⟩, rfl⟩
      rwa [← hz'.kindAt_eq ht.seam (by simp only; omega)]

theorem cut_spread (sort : Spread) {t e : Term} (h : w.Abreast stop c c') (hs : start ≤ c'.pos)
    (hk : w.fst.kindAt c.pos = sort.mark) (hrun : (spread term .free sort).Runs w.fst c t y)
    (hy : ¬ w.fst.Leads (w.atSeam stop) y.pos) (hrun' : (spread term r sort).Runs w.fst ⟨c.pos, d⟩ e x)
    (hx : w.fst.Leads (w.atSeam stop) x.pos) : (spread term .free sort).CutOff Term.last? w stop c' := by
  have hpos := h.pos_eq
  obtain ⟨he, -⟩ := Kind.plain_of_text? sort.isSome_text?
  simp only [spread, runs_bind, runs_pure] at hrun hrun'
  obtain ⟨_, z, hbump, u, _, hu, rfl, rfl⟩ := hrun
  obtain ⟨_, v, hbump', u', _, hu', rfl, rfl⟩ := hrun'
  obtain ⟨tok, htake, hkt⟩ := (runs_bump hk he).1 hbump
  obtain ⟨_, htakev, -⟩ := (runs_bump (c := ⟨c.pos, d⟩) hk he).1 hbump'
  obtain rfl := htakev.next
  have hlt := lt_of_term hu'
  have hle := hx.le ht.goal_le
  have hz := htake.next
  simp only at hlt
  obtain ⟨z', htake', hz'⟩ := h.takes ht.seam htake (by rw [hkt]; cases sort <;> rfl)
    (by rw [hz]; simp only; omega)
  obtain rfl := hz
  obtain rfl := htake'.next
  obtain ⟨other, hother, hopen⟩ := ht.cuts (by simp only; omega) hz' hu hy hu' hx
  refine ⟨.spread sort other, ?_, rfl⟩
  simp only [spread, runs_bind, runs_pure]
  exact ⟨(), _, (runs_bump (htake'.kindAt.trans hkt) he).2 ⟨tok, htake', hkt⟩, other, _, hother, rfl, rfl⟩

theorem cut_binding {b b' : Binding} (h : w.Abreast stop c c') (hs : start ≤ c'.pos)
    (hrun : (binding term .free).Runs w.fst c b y) (hy : ¬ w.fst.Leads (w.atSeam stop) y.pos)
    (hrun' : (binding term r).Runs w.fst ⟨c.pos, d⟩ b' x) (hx : w.fst.Leads (w.atSeam stop) x.pos) :
    (binding term .free).CutOff Binding.last? w stop c' := by
  have hle := hx.le ht.goal_le
  obtain ⟨mark, z, name, v, hlet, hname, hcases⟩ := runs_binding.1 hrun
  obtain ⟨_, z₁, _, v₁, hlet₁, hname₁, hcases₁⟩ := runs_binding.1 hrun'
  have hv : v.pos = v₁.pos := by
    have hz : z.pos = c.pos + 1 := (expect_mark hlet rfl).row.stop_eq
    have hz₁ : z₁.pos = c.pos + 1 := (expect_mark hlet₁ rfl).row.stop_eq
    have hv : v.pos = z.pos + 1 := (expectIdent_reads .letRule hname).row.stop_eq
    have hv₁ : v₁.pos = z₁.pos + 1 := (expectIdent_reads .letRule hname₁).row.stop_eq
    omega
  obtain ⟨hnext, a, u, mark', m, value, rfl, ha, heq, hvalue⟩ | ⟨hnext, -, rfl⟩ := hcases
  · obtain ⟨-, a₁, u₁, _, m₁, value₁, -, ha₁, heq₁, hvalue₁⟩ | ⟨hnext₁, -⟩ := hcases₁
    · have ha_len := (anno?_reads term_reads .beforeAssign ha).row.stop_eq
      have hm : m.pos = u.pos + 1 := (expect_mark heq rfl).row.stop_eq
      have hm₁ : m₁.pos = u₁.pos + 1 := (expect_mark heq₁ rfl).row.stop_eq
      have hsize := start_lt_of_term hvalue
      -- the annotation is read under the same restrictions
      have hu : u.pos = u₁.pos := by
        refine (same_of_mimics (fun hsees => ?_) hv (by omega) ha ha₁).2
        exact ⟨_, mimics_anno? (mimicTerms_term _ _) .beforeAssign hsees (Nat.le_refl _)⟩
      have hlt := lt_of_term hvalue₁
      obtain ⟨z', v', u', m', hlet', hname', hkind, ha', heq', hplace, hcm, hdepth⟩ :=
        arrives_bound ht.toCarryTerms h hs hlet hname ha heq (by omega)
          (hu ▸ leads_of_equals heq₁ hvalue₁ hx)
      have hpos := h.pos_eq
      have hposm := hplace.pos_eq
      have hm' : m₁ = ⟨m.pos, m₁.depth⟩ := by rw [show m.pos = m₁.pos by omega]
      rw [hm'] at hvalue₁
      obtain ⟨other, hother, -⟩ := ht.cuts (by omega) hplace hvalue hy hvalue₁ hx
      have hd : m'.depth = c'.depth := by
        have := hplace.depth_eq
        have := h.depth_eq
        omega
      rw [hd] at hother
      exact ⟨.init name a other, runs_binding.2 ⟨mark, z', name, v', hlet', hname', .inl ⟨hkind ▸ hnext, a,
        u', mark', m', other, rfl, ha', heq', hother⟩⟩, rfl⟩
    · exact absurd (hv ▸ hnext) hnext₁
  · obtain ⟨hnext₁, -⟩ | ⟨-, -, rfl⟩ := hcases₁
    · exact absurd (hv ▸ hnext₁) hnext
    · exact absurd (hv ▸ hx) hy

theorem cut_generic {t e : Term} (h : w.Abreast stop c c') (hs : start ≤ c'.pos)
    (hrun : (generic term .free).Runs w.fst c t y) (hy : ¬ w.fst.Leads (w.atSeam stop) y.pos)
    (hrun' : (generic term r).Runs w.fst ⟨c.pos, d⟩ e x) (hx : w.fst.Leads (w.atSeam stop) x.pos) :
    (generic term .free).CutOff Term.last? w stop c' := by
  have hpos := h.pos_eq
  have hle := hx.le ht.goal_le
  simp only [generic, runs_bind, runs_pure] at hrun hrun'
  obtain ⟨mark, z, hopen, ps, v, hps, b, _, hb, rfl, rfl⟩ := hrun
  obtain ⟨_, _, hopen', ps', v', hps', b', _, hb', rfl, rfl⟩ := hrun'
  have hlist := (expect_mark hopen rfl).trans (paramsUntil_reads term_reads rfl _ hps)
  have hlist' := (expect_mark hopen' rfl).trans (paramsUntil_reads term_reads rfl _ hps')
  have hv : v.pos = v'.pos := stop_eq_of_rows (o := .bracketOpen) rfl hlist.row (bracketed_paramsYield ps)
    hlist'.row (bracketed_paramsYield ps')
  have hlen := hlist.row.stop_eq
  have hlt := lt_of_body hb'
  obtain ⟨z', hopen', u', hps', hu'⟩ := arrives_genericParams ht.toCarryTerms h hopen hps (by omega)
  have hposu := hu'.pos_eq
  have hlead : w.fst.Leads (w.atSeam stop) v.pos := by
    rw [hv]
    exact leads_of_body hb' hx
  obtain ⟨other, hother, hopen⟩ := cut_body ht hu' (by omega) (by omega) hb hy hlead
  have hd : u'.depth = c'.depth := by
    have := hu'.depth_eq
    have := h.depth_eq
    have := hlist.depth_eq
    omega
  refine ⟨.generic ps other, ?_, hopen⟩
  simp only [generic, runs_bind, runs_pure]
  rw [hd] at hother
  exact ⟨mark, z', hopen', ps, u', hps', other, _, hother, rfl, rfl⟩

/-! ## Functions -/

theorem cut_plainFunction {t e : Term} (h : w.Abreast stop c c') (hs : start ≤ c'.pos)
    (hk : w.fst.kindAt c.pos = .parenOpen) (hrun : (plainFunction term .free).Runs w.fst c t y)
    (hy : ¬ w.fst.Leads (w.atSeam stop) y.pos) (hrun' : (plainFunction term r).Runs w.fst ⟨c.pos, d⟩ e x)
    (hx : w.fst.Leads (w.atSeam stop) x.pos) :
    (∃ v : Cursor, v.pos + 1 < stop + w.shift ∧ w.fst.matchingClose? c.pos = some (v.pos - 1)) ∧
      (plainFunction term .free).CutOff Term.last? w stop c' := by
  have hpos := h.pos_eq
  have hle := hx.le ht.goal_le
  simp only [plainFunction, runs_bind, runs_pure] at hrun hrun'
  obtain ⟨u, z, hbump, ps, v, hps, b, _, hb, rfl, rfl⟩ := hrun
  obtain ⟨_, _, hbump', ps', v', hps', b', _, hb', rfl, rfl⟩ := hrun'
  have hlist := (bump_mark hbump hk rfl).trans (paramsUntil_reads term_reads rfl _ hps)
  have hlist' := (bump_mark (c := ⟨c.pos, d⟩) hbump' hk rfl).trans (paramsUntil_reads term_reads rfl _ hps')
  have hv : v.pos = v'.pos := stop_eq_of_rows (o := .parenOpen) rfl hlist.row (bracketed_paramsYield ps)
    hlist'.row (bracketed_paramsYield ps')
  have hlen := hlist.row.stop_eq
  have hlt := lt_of_body hb'
  obtain ⟨z', hbump', u', hps', hu'⟩ := arrives_params ht.toCarryTerms h hk hbump hps (by omega)
  have hposu := hu'.pos_eq
  have hlead : w.fst.Leads (w.atSeam stop) v.pos := by
    rw [hv]
    exact leads_of_body hb' hx
  obtain ⟨other, hother, hopen⟩ := cut_body ht hu' (by omega) (by omega) hb hy hlead
  have hd : u'.depth = c'.depth := by
    have := hu'.depth_eq
    have := h.depth_eq
    have := hlist.depth_eq
    omega
  rw [hd] at hother
  refine ⟨⟨v, by omega, Stream.matchingClose?_of_row (o := .parenOpen) rfl hlist.row
    (bracketed_paramsYield ps)⟩, .function ps none other, ?_, hopen⟩
  simp only [plainFunction, runs_bind, runs_pure]
  exact ⟨u, z', hbump', ps, u', hps', other, _, hother, rfl, rfl⟩

/-- The result is cut off, or the body is, or the function before its body. -/
theorem cut_withResult {close : Nat} {t e : Term} (h : w.Abreast stop c c') (hs : start ≤ c'.pos)
    (hk : w.fst.kindAt c.pos = .parenOpen)
    (hclose : w.fst.matchingClose? c.pos = some (close + w.shift)) (hreach : w.snd.Reaches 0 (close + 1))
    (harrow : w.fst.kindAt (close + w.shift + 1) = .arrow)
    (hrun : (withResult term .free (close + w.shift)).Runs w.fst c t y)
    (hy : ¬ w.fst.Leads (w.atSeam stop) y.pos)
    (hrun' : (withResult term r (close + w.shift)).Runs w.fst ⟨c.pos, d⟩ e x)
    (hx : w.fst.Leads (w.atSeam stop) x.pos) :
    close + 1 < stop ∧ (withResult term .free close).CutOff Term.last? w stop c' := by
  have hle := hx.le ht.goal_le
  obtain ⟨result, u, hresult, hcases⟩ := (runs_withResult harrow).1 hrun
  obtain ⟨result', m, hresult', hcases'⟩ := (runs_withResult harrow).1 hrun'
  have hm : w.fst.Leads (w.atSeam stop) m.pos := by
    obtain ⟨-, -, _, _, _, _, b, _, -, -, -, -, hb⟩ | ⟨-, _, _, _, _, -, -, -, rfl⟩ := hcases'
    · exact leads_of_body hb hx
    · exact hx
  have hmle := hm.le ht.goal_le
  have hlt := lt_of_term hresult'
  simp only at hlt
  have hstop : close + 1 < stop := by omega
  have harrow' : w.snd.kindAt (close + 1) = .arrow := by
    rw [← ht.seam.kindAt_eq hstop, Nat.add_right_comm, harrow]
  have hlt' := Stream.lt_of_matchingClose? (by rw [hk]; rfl) hclose
  have hpos := h.pos_eq
  have hplace := abreast_result h hreach harrow' hstop
  refine ⟨hstop, ?_⟩
  -- as a function type it is read if the other reading does not go on behind the same result
  have types : ∀ {result : Term}, (∀ u' b, u'.pos = u.pos → ¬ (body term r).Runs w.fst u' b x) →
      (term .free).Runs w.snd { c' with pos := close + 2 } result { c' with pos := stop } →
        (withResult term .free close).CutOff Term.last? w stop c' := by
    intro result hbody hresult'
    obtain ⟨ts, z, mark, v, hts, hmark⟩ | ⟨u', b, hu, hb⟩ := types_or_body hk harrow hrun hrun' hresult
    · obtain ⟨z', v', hts', hmark'⟩ := arrives_typesList ht.toCarryTerms h hclose hstop hts hmark
      refine ⟨.funType ts result, (runs_withResult harrow').2 ⟨result, _, hresult', .inr ⟨?_, z', v', ts,
        mark, rfl, hts', hmark', rfl⟩⟩, rfl⟩
      rintro ⟨-, hk'⟩
      exact absurd (ht.eof.symm.trans hk') (by decide)
    · exact absurd hb (hbody u' b hu)
  by_cases hu : w.fst.Leads (w.atSeam stop) u.pos
  · obtain ⟨u', hresult', hu'⟩ := ht.carries (by simp only; omega) hplace hresult hu
    have hposu := hu'.pos_eq
    have hd : u'.depth = c'.depth := (term_reads _ hresult').depth_eq
    have hltu := lt_of_term hresult'
    simp only at hltu
    obtain ⟨-, hku, z, v, n, ps, b, mark, rfl, hbump, hps, hmark, hb⟩ | ⟨-, _, _, _, _, -, -, -, rfl⟩ :=
      hcases
    · by_cases hstopu : u'.pos < stop
      · obtain ⟨other, hother, hopen⟩ := cut_body ht hu' (by omega) hstopu hb hy hu
        obtain ⟨z', v', n', hbump', hps', hmark'⟩ :=
          arrives_paramList ht.toCarryTerms h hk hclose hstop hbump hps hmark
        rw [hd] at hother
        refine ⟨.function ps (some result) other, (runs_withResult harrow').2 ⟨result, u', hresult', .inl
          ⟨rfl, ?_, z', v', n', ps, other, mark, rfl, hbump', hps', hmark', hother⟩⟩, hopen⟩
        rw [← hu'.kindAt_eq ht.seam hstopu, hku]
      · have hend : u'.pos = stop := Nat.le_antisymm hu'.le_stop (Nat.not_lt.1 hstopu)
        have hu'' : u' = { c' with pos := stop } := by rw [← hd, ← hend]
        refine types (fun u' b hpos hb => ?_) (hu'' ▸ hresult')
        have := lt_of_body hb
        omega
    · exact absurd hu hy
  · obtain ⟨other, hother, -⟩ := ht.cuts (by simp only; omega) hplace hresult hu hresult' hm
    refine types (fun u' b hpos hb => hu ?_) hother
    rw [← hpos]
    exact leads_of_body hb hx

theorem cut_function {t e : Term} (h : w.Abreast stop c c') (hs : start ≤ c'.pos)
    (hk : w.fst.kindAt c.pos = .parenOpen) (hrun : (function term .free).Runs w.fst c t y)
    (hy : ¬ w.fst.Leads (w.atSeam stop) y.pos) (hrun' : (function term r).Runs w.fst ⟨c.pos, d⟩ e x)
    (hx : w.fst.Leads (w.atSeam stop) x.pos) : (function term .free).CutOff Term.last? w stop c' := by
  have hlen := (function_reads term_reads hrun' hk).1.row.stop_eq
  have hne := List.length_pos_iff.2 e.yield_ne_nil
  have hle := hx.le ht.goal_le
  have hpos := h.pos_eq
  simp only at hlen
  have hlt : c'.pos < stop := by omega
  obtain ⟨close, hclose, hstop, hfst, hreach⟩ :=
    h.matchingClose?_eq ht.seam hlt (by rw [← h.kindAt_eq ht.seam hlt, hk]; rfl)
  obtain ⟨m, hm, hcases⟩ := runs_function.1 hrun
  obtain ⟨m', hm', hcases'⟩ := runs_function.1 hrun'
  simp only [hfst, Option.some.injEq] at hm hm'
  subst hm hm'
  have next : ∀ {k : Kind}, close + 1 < stop → w.fst.kindAt (close + w.shift + 1) = k →
      w.snd.kindAt (close + 1) = k := fun hlt hk => by
    rw [← ht.seam.kindAt_eq hlt, Nat.add_right_comm, hk]
  obtain ⟨harrow, hrun⟩ | ⟨harrow, hrun⟩ := hcases
  · obtain ⟨-, hrun'⟩ | ⟨harrow', -⟩ := hcases'
    · obtain ⟨⟨v, hv, hclose'⟩, other, hother, hopen⟩ := cut_plainFunction ht h hs hk hrun hy hrun' hx
      rw [hfst, Option.some.injEq] at hclose'
      exact ⟨other, runs_function.2 ⟨close, hclose, .inl ⟨next (by omega) harrow, hother⟩⟩, hopen⟩
    · exact absurd (harrow.symm.trans harrow') (by decide)
  · obtain ⟨harrow', -⟩ | ⟨-, hrun'⟩ := hcases'
    · exact absurd (harrow.symm.trans harrow') (by decide)
    · obtain ⟨hlt, other, hother, hopen⟩ := cut_withResult ht h hs hk hfst hreach harrow hrun hy hrun' hx
      exact ⟨other, runs_function.2 ⟨close, hclose, .inr ⟨next hlt harrow, hother⟩⟩, hopen⟩

/-! ## Heads, chains and terms -/

theorem cut_head {t e : Term} (h : w.Abreast stop c c') (hs : start ≤ c'.pos)
    (hrun : (head term .free).Runs w.fst c t y) (hy : ¬ w.fst.Leads (w.atSeam stop) y.pos)
    (hrun' : (head term r).Runs w.fst ⟨c.pos, d⟩ e x) (hx : w.fst.Leads (w.atSeam stop) x.pos) :
    (head term .free).CutOff Term.last? w stop c' := by
  have hpos := h.pos_eq
  have hlen := (head_reads term_reads r hrun').1.row.stop_eq
  have hne := List.length_pos_iff.2 e.yield_ne_nil
  have hle := hx.le ht.goal_le
  have hsize := ht.seam.le_fst
  simp only at hlen
  by_cases hk : endsItself (w.fst.kindAt c.pos) = true
  · have hfree := hrun'.congr (head_congr (c := ⟨c.pos, d⟩) hk r .free)
    have hsame : t = e ∧ y.pos = x.pos := by
      refine same_of_mimics (fun hsees => ?_) (by rfl) (by omega) hrun hfree
      exact ⟨_, mimics_head (mimicTerms_term _ _) .free hsees (Nat.le_refl _)⟩
    exact absurd hx (hsame.2 ▸ hy)
  · have hkind := (h.kindAt_eq ht.seam (by omega)).symm
    simp only [head, runs_bind, runs_kind] at hrun hrun'
    obtain ⟨_, _, ⟨rfl, rfl⟩, hrun⟩ := hrun
    obtain ⟨_, _, ⟨rfl, rfl⟩, hrun'⟩ := hrun'
    cases hkc : w.fst.kindAt c.pos <;> rw [hkc] at hrun hrun' hk
    case bracketOpen =>
      obtain ⟨a, ha, hopen⟩ := cut_generic ht h hs hrun hy hrun' hx
      exact ⟨a, runs_head.2 (.generic (hkind.trans hkc) ha), hopen⟩
    case kwLet =>
      obtain ⟨b, _, hb, hrun⟩ := runs_bind.1 hrun
      obtain ⟨rfl, rfl⟩ := runs_pure.1 hrun
      obtain ⟨b', _, hb', hrun'⟩ := runs_bind.1 hrun'
      obtain ⟨rfl, rfl⟩ := runs_pure.1 hrun'
      obtain ⟨other, hother, hopen⟩ := cut_binding ht h hs hb hy hb' hx
      exact ⟨.binding other, runs_head.2 (.binding (hkind.trans hkc) hother), hopen⟩
    case parenOpen =>
      obtain ⟨a, ha, hopen⟩ := cut_function ht h hs hkc hrun hy hrun' hx
      exact ⟨a, runs_head.2 (.function (hkind.trans hkc) ha), hopen⟩
    case star =>
      obtain ⟨a, ha, hopen⟩ := cut_spread ht .tuple h hs hkc hrun hy hrun' hx
      exact ⟨a, runs_head.2 (.spread .tuple (hkind.trans hkc) ha), hopen⟩
    case starStar =>
      obtain ⟨a, ha, hopen⟩ := cut_spread ht .dict h hs hkc hrun hy hrun' hx
      exact ⟨a, runs_head.2 (.spread .dict (hkind.trans hkc) ha), hopen⟩
    all_goals exact absurd rfl hk

/-- Up to the link that is cut off, an assignment, the links are carried over. -/
theorem cut_chains {first t : Term} (hrun : Chains w.fst .free first c t y) :
    ∀ {c' : Cursor}, w.Abreast stop c c' → start ≤ c'.pos → w.fst.Leads (w.atSeam stop) c.pos →
      ¬ w.fst.Leads (w.atSeam stop) y.pos →
        ∃ other, Chains w.snd .free first c' other { c' with pos := stop } ∧ other.last?.isSome = true := by
  induction hrun with
  | done | left => exact fun _ _ hc hy => absurd hc hy
  | @link target longer whole c v x hk hdepth hlink hchain ih =>
    intro c' h hs hc hy
    have hpos := h.pos_eq
    have hd := h.depth_eq
    have hd' := ht.seam.maxDepth_eq
    have hle := hc.le ht.goal_le
    have hne : c.pos ≠ stop + w.shift := by
      intro hstop
      rw [hstop] at hk
      have hlink' := hlink
      rw [hstop] at hlink'
      exact ht.no_link hk hlink'
    have hlt : c'.pos < stop := by omega
    have hk' := h.kindAt_eq ht.seam hlt
    have h₁ : w.Abreast stop { c with depth := c.depth + 1 } { c' with depth := c'.depth + 1 } :=
      h.level (by omega)
    by_cases hv : w.fst.Leads (w.atSeam stop) v.pos
    · obtain ⟨v', hlink', hv'⟩ := arrives_link ht.toCarryTerms h₁ hs hlt hlink hv
      obtain ⟨_, hread, -, hltv⟩ := reads_of_link hlink'
      obtain ⟨other, hchain', hopen⟩ := ih hv' (by simp only at hltv; omega) hv hy
      have hlinked := Chains.link (hk' ▸ hk) (by omega) hlink' hchain'
      simp only [hread.depth_eq, Nat.add_sub_cancel] at hlinked
      exact ⟨other, hlinked, hopen⟩
    · obtain hstop | hv' | ⟨heq, value, rfl, hvalue, d, r, t, x, hterm, hx⟩ :=
        link_of_leads (c := { c with depth := c.depth + 1 }) hc hk hlink
      · exact absurd hstop hne
      · exact absurd hv' hv
      · obtain ⟨tok, htoken, hkt⟩ := Stream.exists_token_of_kindAt heq (by decide)
        have htake : w.fst.Takes { c with depth := c.depth + 1 } tok ⟨c.pos + 1, c.depth + 1⟩ :=
          ⟨htoken, by rw [hkt]; decide, rfl⟩
        obtain ⟨z', htake', hz'⟩ := h₁.takes ht.seam htake (by rw [hkt]; rfl) (by simp only; omega)
        obtain rfl := htake'.next
        obtain ⟨other, hother, -⟩ := ht.cuts (by simp only; omega) hz' hvalue hv hterm hx
        have hlink' : (link term .free target).Runs w.snd { c' with depth := c'.depth + 1 }
            (some (.assign target other)) { pos := stop, depth := c'.depth + 1 } := by
          have hk' := htake'.kindAt.trans hkt
          exact runs_link.2 (.assign hk' ((runs_bump hk' (by decide)).2 ⟨tok, htake', hkt⟩) hother)
        refine ⟨_, .link (hk' ▸ hk) (by omega) hlink' (.done ?_), rfl⟩
        show continuesChain .free (w.snd.kindAt stop) = false
        rw [ht.eof]
        rfl

/-- A term is cut off in its head or behind it. -/
theorem cut_term {t e : Term} (h : w.Abreast stop c c') (hs : start ≤ c'.pos)
    (hrun : (term .free).Runs w.fst c t y) (hy : ¬ w.fst.Leads (w.atSeam stop) y.pos)
    (hrun' : (term r).Runs w.fst ⟨c.pos, d⟩ e x) (hx : w.fst.Leads (w.atSeam stop) x.pos) :
    (term .free).CutOff Term.last? w stop c' := by
  have hpos := h.pos_eq
  have hd := h.depth_eq
  have hd' := ht.seam.maxDepth_eq
  have hstop := h.le_stop
  have hle := ht.seam.le_fst
  have hle' := ht.seam.le_snd
  obtain ⟨hdepth, first, u, z, hfirst, hchain, rfl⟩ := (runs_term (by omega)).1 hrun
  obtain ⟨-, first', u', z', hfirst', hchain', rfl⟩ := (runs_term (by simp only; omega)).1 hrun'
  have hu' := leads_of_chains hchain' hx
  have h₁ : w.Abreast stop { c with depth := c.depth + 1 } { c' with depth := c'.depth + 1 } :=
    h.level (by omega)
  by_cases hu : w.fst.Leads (w.atSeam stop) u.pos
  · obtain ⟨v, hfirst', hv⟩ := arrives_head ht.toCarryTerms h₁ hs hfirst hu
    have hread := (head_reads term_reads .free hfirst').1
    have hlen := hread.row.stop_eq
    simp only at hlen
    obtain ⟨other, hchain', hopen⟩ := cut_chains ht hchain hv (by omega) hu hy
    refine ⟨other, (runs_term (by omega)).2 ⟨by omega, first, v, _, hfirst', hchain', ?_⟩, hopen⟩
    simp only [hread.depth_eq, Nat.add_sub_cancel]
  · obtain ⟨other, hother, hopen⟩ := cut_head ht h₁ hs hfirst hu hfirst' hu'
    refine ⟨other, (runs_term (by omega)).2 ⟨by omega, other, _, _, hother, .done ?_, rfl⟩, hopen⟩
    show continuesChain .free (w.snd.kindAt stop) = false
    rw [ht.eof]
    rfl

end

/-- Where the second stream ends at the seam, all terms that lead to the seam are carried over. -/
theorem cutTerms {w : Window} {stop : Nat} (hw : w.Seam stop) (heof : w.snd.kindAt stop = .eof)
    (hlink : ∀ {d : Nat} {target longer : Term} {x : Cursor},
      continuesChain .free (w.fst.kindAt (stop + w.shift)) = true →
        ¬ (link term .free target).Runs w.fst ⟨stop + w.shift, d⟩ (some longer) x)
    (start : Nat) : CutTerms w stop start := by
  induction hn : stop - start using Nat.strong_induction_on generalizing start with
  | _ n ih =>
    have further : ∀ {c c' : Cursor} {i : Nat}, w.Abreast stop c c' → c.pos < i →
        w.fst.Leads (w.atSeam stop) i → start < c'.pos → CutTerms w stop c'.pos := by
      intro c c' i h hlt hi hs
      have := hi.le fun _ => Nat.le_of_eq
      have := h.pos_eq
      exact ih (stop - c'.pos) (by omega) c'.pos rfl
    have cuts : ∀ {c c' x y : Cursor} {d : Nat} {r : Restrictions} {first t : Term}, start < c'.pos →
        w.Abreast stop c c' → (term .free).Runs w.fst c first y →
        ¬ w.fst.Leads (w.atSeam stop) y.pos → (term r).Runs w.fst ⟨c.pos, d⟩ t x →
          w.fst.Leads (w.atSeam stop) x.pos → (term .free).CutOff Term.last? w stop c' := by
      intro c c' x y d r first t hs h hrun hy hrun' hx
      have hlt := lt_of_term hrun'
      exact cut_term (further h hlt hx hs) h (Nat.le_refl _) hrun hy hrun' hx
    refine ⟨⟨hw, fun _ => Nat.le_of_eq, fun hs h hrun hx => ?_, ?_⟩, heof, hlink, cuts⟩
    · exact arrives_term (further h (lt_of_term hrun) hx hs).toCarryTerms h (Nat.le_refl _) hrun hx
    · intro c c' x y first t hs h _ hfirst hy hterm hx
      obtain ⟨other, hother, hopen⟩ := cuts hs h hfirst hy hterm hx
      refine ⟨other, _, hother, rfl, ?_⟩
      rintro target fields rfl
      cases hopen

end Grammar

end TermLang
