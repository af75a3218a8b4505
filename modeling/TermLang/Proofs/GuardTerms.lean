import TermLang.Proofs.Guards
import TermLang.Proofs.Juxtaposed

/-!
# Guards that are function types

What a guard before an arrow ends with is followed down its right spine, rule by rule: each rule hands on
what became of the term that it ends with, and a function type that is the innermost one meets the arrow
itself.
-/

namespace TermLang

namespace Grammar

open Parse

/-- At an index there is an arrow; a body is read there, up to an index where no term goes on. With more
levels open it is read up to the same index, unless that hits the nesting limit. -/
structure Arrow (s : Stream) (arrow depth stop : Nat) : Prop where
  kindAt_eq : s.kindAt arrow = .fatArrow
  ends : extendsTerm (s.kindAt stop) = false
  body : ∀ d, depth ≤ d → (∃ b y, (body term .free).Runs s ⟨arrow, d⟩ b y ∧ y.pos = stop) ∨
    ∃ e, (body term .free s ⟨arrow, d⟩).result = .error e ∧ e.isTooDeep = true

variable {s : Stream} {c x : Cursor} {t : Term} {arrow depth stop start : Nat}

theorem arrow_of_body {b : Body} (h : (body term .free).Runs s c b x)
    (hends : extendsTerm (s.kindAt x.pos) = false) : Arrow s c.pos c.depth x.pos := by
  obtain ⟨mark, y, harrow, -⟩ := runs_body.1 h
  obtain ⟨htake, hk⟩ := (runs_expect (by decide)).1 harrow
  have hkind : s.kindAt c.pos = .fatArrow := htake.kindAt.trans hk
  have hle := Nat.le_of_lt (Stream.lt_size_of_kindAt hkind (by decide))
  refine ⟨hkind, hends, fun d hd => ?_⟩
  have hsees : (Window.self s (d - c.depth)).Sees .whole c.pos ⟨c.pos, d⟩ c :=
    sees_self rfl (by simp only; omega) hle
  cases mimics_body (mimicTerms_term _ c.pos) .free hsees (Nat.le_refl _) with
  | ok ha hb hc =>
    refine .inl ⟨_, _, ⟨ha, rfl⟩, hc.pos_eq.trans ?_⟩
    exact congrArg Cursor.pos h.2
  | error _ hb => cases h.1.symm.trans hb
  | lost _ ha he => exact .inr ⟨_, ha, he⟩

/-- Up to the arrow a function type was read that no other one ends; it is a function with the body now, if
its list is one of parameters, and else the list is rejected. -/
theorem freed_asFunction {ts : List Term} {z v : Cursor} {mark : Token} (ha : Arrow s arrow depth stop)
    (hx : x.pos = arrow) (hd : depth ≤ x.depth) (result : Term) (hts : (typeList term).Runs s c ts z)
    (hmark : (expect .arrow .funOf).Runs s z mark v) :
    Parse.Freed (do
      bump
      let params ← paramsUntil term .parenClose .fun_
      let _ ← expect .arrow .fun_
      restore x
      return Term.function params (some result) (← body term .free))
      s c stop (Term.funType ts result) x (some ts) := by
  obtain ⟨y, hbump, hnames, hreject⟩ := params_of_typeList hts
  refine hbump.freed ?_
  cases hall : ts.all Term.isName with
  | false =>
    obtain ⟨w, hw⟩ := hreject hall
    exact .rejected hall (bind_of_error hw)
  | true =>
    obtain ⟨ps, hps⟩ := hnames hall
    have hmark' : (expect .arrow .fun_).Runs s z mark v :=
      (runs_expect (by decide)).2 ((runs_expect (by decide)).1 hmark)
    refine hps.freed (hmark'.freed (Runs.freed (a := ()) (runs_restore.2 rfl) ?_))
    have hbody := ha.body x.depth hd
    rw [← hx] at hbody
    obtain ⟨b, y', hb, hy'⟩ | ⟨e, he, hdeep⟩ := hbody
    · exact .past hall (runs_bind.2 ⟨b, y', hb, runs_pure.2 ⟨rfl, rfl⟩⟩) hy'
    · exact .tooDeep (bind_of_error he) hdeep

/-- Behind an index, what stands before the arrow is read freely as told. -/
def Frees (s : Stream) (arrow depth stop start : Nat) : Prop :=
  ∀ {c x : Cursor} {t : Term}, start < c.pos → depth ≤ c.depth → (term .beforeArrow).Runs s c t x →
    x.pos = arrow → (term .free).Freed s c stop t x t.lastTypes?

/-- Something is read, and then a term up to the arrow. -/
theorem Frees.behind {y : Cursor} {ys : List Terminal} {us : List Term} (ht : Frees s arrow depth stop start)
    (hs : start ≤ c.pos) (hd : depth ≤ c.depth) (hread : s.Reads c ys us y) (hne : ys ≠ [])
    (h : (term .beforeArrow).Runs s y t x) (hx : x.pos = arrow) :
    (term .free).Freed s y stop t x t.lastTypes? := by
  have hpos := hread.row.stop_eq
  have hdepth : y.depth = c.depth := hread.depth_eq
  have hlen := List.length_pos_iff.2 hne
  exact ht (by omega) (by omega) h hx

section

variable (ht : Frees s arrow depth stop start) (hs : start ≤ c.pos) (hd : depth ≤ c.depth)
  (hx : x.pos = arrow)

include ht hs hd hx

theorem freed_body {b : Body} (h : (body term .beforeArrow).Runs s c b x) :
    (body term .free).Freed s c stop b x b.lastTypes? := by
  obtain ⟨mark, y, hmark, ⟨hk, ts, rfl, hts⟩ | ⟨hk, t, rfl, hrun⟩⟩ := runs_body.1 h
  · exact .same (runs_body.2 ⟨mark, y, hmark, .inl ⟨hk, ts, rfl, hts⟩⟩)
  · refine hmark.freed ((runs_at?.2 ⟨rfl, rfl⟩).freed ?_)
    rw [decide_eq_false hk, if_neg Bool.false_ne_true]
    exact (ht.behind hs hd (expect_mark hmark rfl) (by simp) hrun hx).map

theorem freed_binding {b : Binding} (h : (binding term .beforeArrow).Runs s c b x) :
    (binding term .free).Freed s c stop b x b.lastTypes? := by
  obtain ⟨mark, y, name, z, hlet, hname, hcases⟩ := runs_binding.1 h
  obtain ⟨hk, a, u, mark', v, value, rfl, ha, heq, hvalue⟩ | ⟨hk, rfl, rfl⟩ := hcases
  · have hread := ((expect_mark hlet rfl).trans (expectIdent_reads .letRule hname)).trans
      ((anno?_reads term_reads .beforeAssign ha).trans (expect_mark heq rfl))
    refine hlet.freed (hname.freed ((runs_kind.2 ⟨rfl, rfl⟩).freed ?_))
    rw [if_pos hk]
    exact ha.freed (heq.freed (ht.behind hs hd hread (by simp) hvalue hx).map)
  · exact .same (runs_binding.2 ⟨mark, y, name, x, hlet, hname, .inr ⟨hk, rfl, rfl⟩⟩)

theorem freed_spread (sort : Spread) (hk : s.kindAt c.pos = sort.mark)
    (h : (spread term .beforeArrow sort).Runs s c t x) :
    (spread term .free sort).Freed s c stop t x t.lastTypes? := by
  simp only [spread, runs_bind, runs_pure] at h
  obtain ⟨_, y, hbump, u, _, hu, rfl, rfl⟩ := h
  exact hbump.freed (ht.behind hs hd (bump_mark hbump hk sort.isSome_text?) (by simp) hu hx).map

theorem freed_generic (h : (generic term .beforeArrow).Runs s c t x) :
    (generic term .free).Freed s c stop t x t.lastTypes? := by
  simp only [generic, runs_bind, runs_pure] at h
  obtain ⟨mark, y, hopen, ps, z, hps, b, _, hb, rfl, rfl⟩ := h
  have hread := (expect_mark hopen rfl).trans (paramsUntil_reads term_reads rfl _ hps)
  have hz := hread.row.stop_eq
  have hdepth : z.depth = c.depth := hread.depth_eq
  exact hopen.freed (hps.freed (freed_body ht (by omega) (by omega) hx hb).map)

theorem freed_plainFunction (hk : s.kindAt c.pos = .parenOpen)
    (h : (plainFunction term .beforeArrow).Runs s c t x) :
    (plainFunction term .free).Freed s c stop t x t.lastTypes? := by
  simp only [plainFunction, runs_bind, runs_pure] at h
  obtain ⟨_, y, hbump, ps, z, hps, b, _, hb, rfl, rfl⟩ := h
  have hread := (bump_mark hbump hk rfl).trans (paramsUntil_reads term_reads rfl _ hps)
  have hz := hread.row.stop_eq
  have hdepth : z.depth = c.depth := hread.depth_eq
  exact hbump.freed (hps.freed (freed_body ht (by omega) (by omega) hx hb).map)

variable (ha : Arrow s arrow depth stop)

include ha

/-- If no function type ends the result, the arrow behind it is that of a function; else the list and the
result are a function type as before. -/
theorem freed_withResult {close : Nat} (hlt : c.pos < close) (harrow : s.kindAt (close + 1) = .arrow)
    (h : (withResult term .beforeArrow close).Runs s c t x) :
    (withResult term .free close).Freed s c stop t x t.lastTypes? := by
  obtain ⟨result, u, hresult, ⟨hpft, -⟩ | ⟨-, z, v, ts, mark, rfl, hts, hmark, rfl⟩⟩ :=
    (runs_withResult harrow).1 h
  · cases hpft
  have hsize : min (close + 2) s.tokens.size = close + 2 :=
    Nat.min_eq_left (Stream.lt_size_of_kindAt harrow (by decide))
  have hdepth : x.depth = c.depth := (term_reads .beforeArrow hresult).depth_eq
  have hfree := ht (by simp only; omega) (by exact hd) hresult hx
  refine (runs_cursor.2 ⟨rfl, rfl⟩).freed ?_
  refine Runs.freed (a := ()) (u := { c with pos := close + 2 }) (runs_seek.2 (by rw [hsize])) ?_
  refine hfree.bind (fun hnone => ?_) (fun types hsome => by rw [Term.lastTypes?, hsome]; rfl)
    fun other y hy => ?_
  · have hk : s.kindAt x.pos = .fatArrow := hx ▸ ha.kindAt_eq
    rw [Term.lastTypes?, hnone]
    refine (runs_cursor.2 ⟨rfl, rfl⟩).freed ((runs_kind.2 ⟨hk, rfl⟩).freed ?_)
    refine Runs.freed (a := ()) (runs_note.2 rfl) (Runs.freed (a := ()) (runs_restore.2 rfl) ?_)
    rw [if_pos (by decide)]
    exact freed_asFunction ha hx (by omega) result hts hmark
  · -- behind a body no arrow stands
    have hk : s.kindAt y.pos ≠ .fatArrow := by
      intro hk
      rw [hy] at hk
      exact absurd ha.ends (by rw [hk]; decide)
    refine ⟨.funType ts other, y, runs_bind.2 ⟨y, y, runs_cursor.2 ⟨rfl, rfl⟩, ?_⟩, hy⟩
    refine runs_bind.2 ⟨_, y, runs_kind.2 ⟨rfl, rfl⟩, runs_bind.2 ⟨(), y, runs_note.2 rfl, ?_⟩⟩
    refine runs_bind.2 ⟨(), c, runs_restore.2 rfl, ?_⟩
    rw [if_neg (by simpa using fun _ => hk)]
    refine runs_bind.2 ⟨ts, z, hts, runs_bind.2 ⟨mark, v, hmark, ?_⟩⟩
    exact runs_bind.2 ⟨(), y, runs_restore.2 rfl, runs_pure.2 ⟨rfl, rfl⟩⟩

theorem freed_function (hk : s.kindAt c.pos = .parenOpen)
    (h : (function term .beforeArrow).Runs s c t x) :
    (function term .free).Freed s c stop t x t.lastTypes? := by
  obtain ⟨close, hclose, ⟨harrow, h⟩ | ⟨harrow, h⟩⟩ := runs_function.1 h
  · refine (runs_matchingClose?.2 ⟨hclose, rfl⟩).freed ((runs_kindAt.2 ⟨harrow, rfl⟩).freed ?_)
    exact freed_plainFunction ht hs hd hx hk h
  · refine (runs_matchingClose?.2 ⟨hclose, rfl⟩).freed ((runs_kindAt.2 ⟨harrow, rfl⟩).freed ?_)
    exact freed_withResult ht hs hd hx ha (Stream.lt_of_matchingClose? (by rw [hk]; rfl) hclose) harrow h

theorem freed_head (h : (head term .beforeArrow).Runs s c t x) :
    (head term .free).Freed s c stop t x t.lastTypes? := by
  by_cases hself : endsItself (s.kindAt c.pos) = true
  · rw [Term.lastTypes?_of_last? (last?_of_head hself h)]
    exact .same (h.congr (head_congr hself .beforeArrow .free))
  · cases runs_head.1 h with
    | generic hk h => exact (runs_kind.2 ⟨hk, rfl⟩).freed (freed_generic ht hs hd hx h)
    | binding hk hb => exact (runs_kind.2 ⟨hk, rfl⟩).freed (freed_binding ht hs hd hx hb).map
    | function hk h => exact (runs_kind.2 ⟨hk, rfl⟩).freed (freed_function ht hs hd hx ha hk h)
    | spread sort hk h =>
      refine (runs_kind.2 ⟨hk, rfl⟩).freed ?_
      cases sort <;> exact freed_spread ht hs hd hx _ hk h
    | block hk | loop hk | trait hk | cases hk => exact absurd (by rw [hk]; rfl) hself
    | signature sort hk | record sort hk => exact absurd (by rw [hk]; cases sort <;> rfl) hself
    | literal hk =>
      have hitself : ∀ k ∈ literalKinds, endsItself k = true := by decide
      exact absurd (hitself _ hk) hself

omit ha in
theorem freed_link {target longer : Term} (h : (link term .beforeArrow target).Runs s c (some longer) x) :
    (link term .free target).Freed s c stop (some longer) x longer.lastTypes? := by
  cases runs_link.1 h with
  | @assign y _ value hk hbump hvalue =>
    refine (runs_kind.2 ⟨hk, rfl⟩).freed (hbump.freed ?_)
    exact (ht.behind hs hd (bump_mark hbump hk rfl) (by simp) hvalue hx).map
  | select hk | applyNamed hk =>
    exact .same (h.congr (link_congr (by rw [hk]; decide) .beforeArrow .free target))
  | apply sort hk =>
    exact .same (h.congr (link_congr (by rw [hk]; cases sort <;> decide) .beforeArrow .free target))

end

theorem bars_beforeArrow {k : Kind} (h : k ≠ .fatArrow) : Restrictions.beforeArrow.bars k = false := by
  cases k <;> first
    | rfl
    | exact absurd rfl h

/-- Where the body ends no link begins. -/
theorem Arrow.not_continuesChain (ha : Arrow s arrow depth stop) (hc : c.pos = stop) (r : Restrictions) :
    continuesChain r (s.kindAt c.pos) = false := by
  rw [hc]
  refine Bool.eq_false_iff.2 fun hk => ?_
  exact absurd ha.ends (by rw [extendsTerm_of_continuesChain hk]; decide)

section

variable (ht : Frees s arrow depth stop start) (ha : Arrow s arrow depth stop) (hx : x.pos = arrow)

include ht ha hx

/-- The links up to the arrow: the last one hands on what its value became, and those before it stand before
no arrow. -/
theorem freed_chainWithin {n : Nat} {first : Term} (h : Chains s .beforeArrow first c t x)
    (hs : start ≤ c.pos) (hd : depth ≤ c.depth) (hc : s.kindAt c.pos ≠ .fatArrow)
    (hle : c.pos ≤ s.tokens.size) (hlt : s.tokens.size < c.pos + n) :
    (chainWithin term .free n first).Freed s c stop t x t.lastTypes? := by
  induction h generalizing n with
  | done | left => exact absurd (hx ▸ ha.kindAt_eq) hc
  | @link target longer whole c y x hk hdepth hlink hrest ih =>
    obtain ⟨n, rfl⟩ : ∃ m, n = m + 1 := ⟨n - 1, by omega⟩
    obtain ⟨ys, hread, -, hpos⟩ := reads_of_link hlink
    have hy := hread.row.stop_le hle
    have hydepth : y.depth = c.depth + 1 := hread.depth_eq
    simp only at hpos
    refine (runs_kind.2 ⟨rfl, rfl⟩).freed ?_
    rw [if_pos ((continuesChain_free (bars_of_continuesChain hk)).trans hk)]
    refine (runs_descend.2 ⟨hdepth, rfl⟩).freed (a := ()) ?_
    by_cases hky : s.kindAt y.pos = .fatArrow
    · cases hrest with
      | left hk' | link hk' =>
        rw [hky] at hk'
        cases hk'
      | done =>
        have hlast := freed_link (c := { c with depth := c.depth + 1 }) ht hs (by simp only; omega)
          (show y.pos = arrow from hx) hlink
        refine hlast.bind (fun hnone => ?_) (fun _ => id) fun other u hu => ?_
        · rw [hnone]
          exact (Freed.same (runs_chainWithin_stop (by rw [hky]; rfl) longer)).ascended
        · have hstop := ha.not_continuesChain hu .free
          cases other with
          | none => exact ⟨target, _, runs_ascended, hu⟩
          | some other =>
            exact ⟨other, _, runs_bind.2 ⟨_, _, runs_chainWithin_stop hstop other, runs_ascended⟩, hu⟩
    · have hrelax : Relaxes s .beforeArrow c.pos := fun _ => relax_term
      have hlink' := relax_link (c := { c with depth := c.depth + 1 }) hrelax (Nat.le_refl _)
        (bars_beforeArrow hky) hlink
      refine hlink'.freed ?_
      exact (ih hx (by omega) (by omega) hky hy (by omega)).ascended

/-- A term up to the arrow. The head stands before the arrow itself, or before the first link. -/
theorem freed_termOf (h : (term .beforeArrow).Runs s c t x) (hs : start ≤ c.pos) (hd : depth ≤ c.depth) :
    (termOf term .free).Freed s c stop t x t.lastTypes? := by
  have hle := Nat.le_of_lt (start_lt_of_term h)
  obtain ⟨hdepth, first, y, z, hfirst, hchain, rfl⟩ := (runs_term hle).1 h
  have hread := (head_reads term_reads .beforeArrow hfirst).1
  have hy := hread.row.stop_le hle
  have hypos := hread.row.stop_eq
  have hydepth : y.depth = c.depth + 1 := hread.depth_eq
  simp only at hypos
  refine (runs_descend.2 ⟨hdepth, rfl⟩).freed (a := ()) ?_
  by_cases hky : s.kindAt y.pos = .fatArrow
  · cases hchain with
    | left hk' | link hk' =>
      rw [hky] at hk'
      cases hk'
    | done =>
      have hhead := freed_head (c := { c with depth := c.depth + 1 }) ht hs (by simp only; omega)
        (show y.pos = arrow from hx) ha hfirst
      refine hhead.bind (fun hnone => ?_) (fun _ => id) fun other u hu => ?_
      · rw [hnone]
        exact (Freed.same (runs_chain_stop (by rw [hky]; rfl) t)).ascended
      · have hstop := ha.not_continuesChain hu .free
        exact ⟨other, _, runs_bind.2 ⟨_, _, runs_chain_stop hstop other, runs_ascended⟩, hu⟩
  · have hrelax : Relaxes s .beforeArrow c.pos := fun _ => relax_term
    have hfirst' := relax_head (c := { c with depth := c.depth + 1 }) hrelax (Nat.le_refl _)
      (bars_beforeArrow hky) hfirst
    refine hfirst'.freed ?_
    refine Freed.ascended (x := z) ((runs_remaining.2 ⟨rfl, rfl⟩).freed ?_)
    exact freed_chainWithin ht ha (show z.pos = arrow from hx) hchain (by omega) (by omega) hky hy
      (by unfold Stream.remaining; omega)

end

theorem freed_of_mimics {α : Type} {p p' : Parse α} {lo : Nat} {a : α} {o : Option (List Term)}
    (hm : p.Mimics (Window.self s 0) ((Window.self s 0).Sees .whole lo) c c p')
    (h : p'.Freed s c stop a x o) : p.Freed s c stop a x o := by
  have hresult := result_eq_of_mimics hm
  cases h with
  | same hrun => exact .same ((runs_iff_of_mimics hm).2 hrun)
  | past hts hrun hy => exact .past hts ((runs_iff_of_mimics hm).2 hrun) hy
  | rejected hts hr => exact .rejected hts (hresult.trans hr)
  | tooDeep hr he => exact .tooDeep (hresult.trans hr) he

/-- A guard up to the arrow, read without preferring function types. -/
theorem freed_term (ha : Arrow s arrow depth stop) (h : (term .beforeArrow).Runs s c t x)
    (hd : depth ≤ c.depth) (hx : x.pos = arrow) : (term .free).Freed s c stop t x t.lastTypes? := by
  induction hn : s.tokens.size - c.pos using Nat.strong_induction_on generalizing c t x with
  | _ n ih =>
    have hlt := start_lt_of_term h
    have ht : Frees s arrow depth stop c.pos := fun hs hd' h' hx' =>
      ih _ (by omega) h' hd' hx' rfl
    refine freed_of_mimics (mimics_term_termOf (sees_self rfl rfl (Nat.le_of_lt hlt)) .free) ?_
    exact freed_termOf ht ha hx h (Nat.le_refl _) hd

/-! ## Branches -/

/-- A guard read under restrictions, and the body behind it. -/
def guarded (r : Restrictions) : Parse Branch := do
  let guard ← term r
  return .mk guard (← body term .free)

/-- A branch is its guard and its body, the guard read again if no arrow follows its first reading. -/
theorem outcome_branch {first : Term} {y : Cursor} (hk : s.kindAt c.pos = .kwWhen)
    (h : (term .free).Runs s { c with pos := c.pos + 1 } first y) :
    (branch term s c).outcome = (guarded (if s.kindAt y.pos = .fatArrow then .free else .beforeArrow) s
      { c with pos := c.pos + 1 }).outcome := by
  obtain ⟨mark, hmark⟩ := exists_runs_expect .whenRule hk (by decide)
  refine (outcome_bind hmark).trans ((outcome_bind (runs_cursor.2 ⟨rfl, rfl⟩)).trans ?_)
  refine (outcome_bind h).trans ((outcome_bind (runs_at?.2 ⟨rfl, rfl⟩)).trans ?_)
  by_cases hky : s.kindAt y.pos = .fatArrow
  · rw [if_pos hky, if_pos (decide_eq_true hky), guarded]
    rw [outcome_bind h]
    exact outcome_bind (runs_pure.2 ⟨rfl, rfl⟩)
  · rw [if_neg hky, if_neg (by simpa using hky)]
    refine (outcome_bind (runs_cursor.2 ⟨rfl, rfl⟩)).trans ?_
    exact (outcome_bind (a := ()) (runs_note.2 rfl)).trans (outcome_bind (a := ()) (runs_restore.2 rfl))

/-- A branch whose guard fails at the first reading. -/
theorem branch_of_error {e : SyntaxError} (hk : s.kindAt c.pos = .kwWhen)
    (h : (term .free s { c with pos := c.pos + 1 }).result = .error e) :
    (branch term s c).result = .error e := by
  obtain ⟨mark, hmark⟩ := exists_runs_expect .whenRule hk (by decide)
  refine (bind_of_runs hmark).1.trans ((bind_of_runs (runs_cursor.2 ⟨rfl, rfl⟩)).1.trans ?_)
  exact bind_of_error h

/-- A branch whose guard stands before an arrow if function types are preferred, with a body behind it. The
first reading of the guard may take the body too; then the second one gives it back. -/
theorem branch_cases {guard : Term} {b : Body} {y : Cursor} (hk : s.kindAt c.pos = .kwWhen)
    (hguard : (term .beforeArrow).Runs s { c with pos := c.pos + 1 } guard x)
    (hbody : (body term .free).Runs s x b y) (hends : extendsTerm (s.kindAt y.pos) = false) :
    (guard.listsNames = true ∧ (branch term).Runs s c (.mk guard b) y) ∨
    (guard.listsNames = false ∧ ∃ z, (branch term s c).result =
      .error (errorAt s z .fun_ (.unexpected (.ofList [.ident, .parenClose])))) ∨
    ∃ e, (branch term s c).result = .error e ∧ e.isTooDeep = true := by
  have ha := arrow_of_body hbody hends
  have hfree := freed_term ha hguard (Nat.le_of_eq (term_reads .beforeArrow hguard).depth_eq) rfl
  have runs : ∀ {r : Restrictions}, (term r).Runs s { c with pos := c.pos + 1 } guard x →
      (branch term s c).outcome = (guarded r s { c with pos := c.pos + 1 }).outcome →
        (branch term).Runs s c (.mk guard b) y := by
    intro r hterm heq
    rw [runs_iff_outcome, heq, ← runs_iff_outcome]
    exact runs_bind.2 ⟨guard, x, hterm, runs_bind.2 ⟨b, y, hbody, runs_pure.2 ⟨rfl, rfl⟩⟩⟩
  unfold Term.listsNames
  generalize guard.lastTypes? = o at hfree ⊢
  cases hfree with
  | same hfirst =>
    have heq := outcome_branch hk hfirst
    rw [if_pos ha.kindAt_eq] at heq
    exact .inl ⟨rfl, runs hfirst heq⟩
  | past hall hfirst hz =>
    have heq := outcome_branch hk hfirst
    rw [if_neg fun h => absurd ha.ends (by rw [← hz, h]; decide)] at heq
    exact .inl ⟨hall, runs hguard heq⟩
  | rejected hall hr => exact .inr (.inl ⟨hall, _, branch_of_error hk hr⟩)
  | tooDeep hr he => exact .inr (.inr ⟨_, branch_of_error hk hr, he⟩)

end Grammar

open Grammar in
/-- A branch is the second reading of its guard, with function types preferred, wherever the first one
succeeds without an arrow behind it; where the first one fails, so does the branch. So of the guards that
stand before an arrow and a body when function types are preferred, those can guard the branch whose
innermost function type lists names alone; the others are rejected as lists of parameters. -/
theorem branch_of_guard {s : Stream} {c : Cursor} (hk : s.kindAt c.pos = .kwWhen) :
    (∀ first x, (term .free).Runs s { c with pos := c.pos + 1 } first x → s.kindAt x.pos ≠ .fatArrow →
      (branch term s c).outcome = (guarded .beforeArrow s { c with pos := c.pos + 1 }).outcome) ∧
    (∀ e, (term .free s { c with pos := c.pos + 1 }).result = .error e →
      (branch term s c).result = .error e) ∧
    ∀ guard x b y, (term .beforeArrow).Runs s { c with pos := c.pos + 1 } guard x →
      (body term .free).Runs s x b y → extendsTerm (s.kindAt y.pos) = false →
      (∀ e, (branch term s c).result = .error e → e.isTooDeep = false) →
        if guard.listsNames = true then (branch term).Runs s c (.mk guard b) y
        else ∃ z, (branch term s c).result =
          .error (Parse.errorAt s z .fun_ (.unexpected (.ofList [.ident, .parenClose]))) := by
  refine ⟨fun first x h hne => ?_, fun e h => branch_of_error hk h, ?_⟩
  · have heq := outcome_branch hk h
    rwa [if_neg hne] at heq
  · intro guard x b y hguard hbody hends hdeep
    obtain ⟨hnames, hrun⟩ | ⟨hnames, hreject⟩ | ⟨e, he, htooDeep⟩ := branch_cases hk hguard hbody hends
    · rwa [if_pos hnames]
    · rwa [if_neg (by rw [hnames]; decide)]
    · rw [hdeep e he] at htooDeep
      cases htooDeep

/-- The tokens of a branch `when ( … ) -> a => a` in a case distinction, the list made of the given kinds. -/
def Stream.guarding (types : List Kind) : Stream :=
  ⟨(tokensOfKinds ([.kwWhen, .parenOpen] ++ types ++
    [.parenClose, .arrow, .ident, .fatArrow, .ident, .braceClose])).toArray, 9⟩

open Grammar in
/-- With the list `(a)` the branch is read, though the guard takes its body first; with the list `(*a)`, which
is none of parameters, it is rejected. -/
theorem branch_of_guard_spread :
    ((branch term (.guarding [.ident]) .start).outcome =
        (guarded .beforeArrow (.guarding [.ident]) ⟨1, 0⟩).outcome ∧
      (branch term).Runs (.guarding [.ident]) .start
        (.mk (.funType [.ident "a"] (.ident "a")) (.single (.ident "a"))) ⟨8, 0⟩) ∧
    (term .beforeArrow).Runs (.guarding [.star, .ident]) ⟨1, 0⟩
        (.funType [.spread .tuple (.ident "a")] (.ident "a")) ⟨7, 0⟩ ∧
      ∃ z, (branch term (.guarding [.star, .ident]) .start).result = .error
        (Parse.errorAt (.guarding [.star, .ident]) z .fun_ (.unexpected (.ofList [.ident, .parenClose]))) := by
  have htype : (term .beforeArrow).Runs (.guarding [.star, .ident]) ⟨1, 0⟩
      (.funType [.spread .tuple (.ident "a")] (.ident "a")) ⟨7, 0⟩ := ⟨rfl, rfl⟩
  have hnames := branch_of_guard (s := .guarding [.ident]) (c := .start) rfl
  have hspread := branch_of_guard (s := .guarding [.star, .ident]) (c := .start) rfl
  refine ⟨⟨hnames.1 _ ⟨8, 0⟩ ⟨rfl, rfl⟩ (by decide), ?_⟩, htype, ?_⟩
  · exact hnames.2.2 _ ⟨6, 0⟩ _ ⟨8, 0⟩ ⟨rfl, rfl⟩ ⟨rfl, rfl⟩ rfl fun e he => by cases he
  · refine hspread.2.2 _ _ (.single (.ident "a")) ⟨9, 0⟩ htype ⟨rfl, rfl⟩ rfl fun e he => ?_
    cases he
    rfl

end TermLang
