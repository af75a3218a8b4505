import TermLang.Proofs.Leads
import TermLang.Proofs.OpenTerms

/-!
# Terms without restrictions

Restrictions only decide where a term ends. Where the token behind a term is none that its restrictions
keep out, the term is read without restrictions as well, and the same.
-/

namespace TermLang

/-- The restrictions keep a token of the kind from a term that could go on with it. -/
def Restrictions.bars (r : Restrictions) : Kind → Bool
  | .equals => r.noAssign
  | .braceOpen => r.noNamed
  | .fatArrow => r.preferFunType
  | _ => false

theorem Parse.Runs.congr {α : Type} {p q : Parse α} {s : Stream} {c x : Cursor} {a : α}
    (h : p.Runs s c a x) (hpq : p s c = q s c) : q.Runs s c a x :=
  ⟨hpq ▸ h.1, hpq ▸ h.2⟩

namespace Grammar

open Parse

variable {s : Stream} {c x : Cursor} {r : Restrictions} {t : Term}

theorem bars_of_continuesChain {k : Kind} (h : continuesChain r k = true) : r.bars k = false := by
  cases k <;> first
    | rfl
    | cases h
    | exact Bool.not_eq_true' _ ▸ h

theorem continuesChain_free {k : Kind} (h : r.bars k = false) :
    continuesChain .free k = continuesChain r k := by
  cases k <;> first
    | rfl
    | exact (congrArg (!·) h).symm

/-! ## Heads that end by themselves -/

/-- A head that does not end with a term does not depend on the restrictions. -/
theorem head_congr (h : endsItself (s.kindAt c.pos) = true) (r r' : Restrictions) :
    head term r s c = head term r' s c := by
  refine bind_congr rfl fun k x hk => ?_
  obtain ⟨rfl, rfl⟩ := runs_kind.1 hk
  clear hk
  generalize s.kindAt c.pos = k at h ⊢
  cases k <;> first
    | exact absurd h (by decide)
    | rfl

/-- Only an assignment depends on them among the links. -/
theorem link_congr (h : s.kindAt c.pos ≠ .equals) (r r' : Restrictions) (target : Term) :
    link term r target s c = link term r' target s c := by
  refine bind_congr rfl fun k x hk => ?_
  obtain ⟨rfl, rfl⟩ := runs_kind.1 hk
  clear hk
  generalize s.kindAt c.pos = k at h ⊢
  cases k <;> first
    | exact absurd rfl h
    | rfl

/-- An equals sign that begins an assignment is never left. -/
theorem kindAt_of_link_none {target : Term} (h : (link term r target).Runs s c none x) :
    s.kindAt c.pos ≠ .equals := by
  intro he
  cases runs_link.1 h with
  | left hk => exact absurd (hk.symm.trans he) (by decide)
  | none hk =>
    rw [he] at hk
    cases hk

/-! ## Heads that end with a term -/

/-- Behind an index, terms under the restrictions are read without them. -/
def Relaxes (s : Stream) (r : Restrictions) (start : Nat) : Prop :=
  ∀ {c x : Cursor} {t : Term}, start < c.pos → (term r).Runs s c t x →
    r.bars (s.kindAt x.pos) = false → (term .free).Runs s c t x

section

variable {start : Nat} (hr : Relaxes s r start) (hs : start ≤ c.pos)
  (hx : r.bars (s.kindAt x.pos) = false)

include hr hs hx

theorem relax_body {b : Body} (h : (body term r).Runs s c b x) : (body term .free).Runs s c b x := by
  obtain ⟨mark, y, harrow, hcases⟩ := runs_body.1 h
  have hy : y.pos = c.pos + 1 := (expect_mark harrow rfl).row.stop_eq
  refine runs_body.2 ⟨mark, y, harrow, hcases.imp_right ?_⟩
  rintro ⟨hk, t, rfl, ht⟩
  exact ⟨hk, t, rfl, hr (by omega) ht hx⟩

theorem relax_binding {b : Binding} (h : (binding term r).Runs s c b x) :
    (binding term .free).Runs s c b x := by
  obtain ⟨mark, y, name, z, hlet, hname, hcases⟩ := runs_binding.1 h
  refine runs_binding.2 ⟨mark, y, name, z, hlet, hname, hcases.imp_left ?_⟩
  rintro ⟨hk, a, u, mark', v, value, rfl, ha, heq, hvalue⟩
  have hy := (expect_mark hlet rfl).row.stop_eq
  have hz := (expectIdent_reads .letRule hname).row.stop_eq
  have hu := (anno?_reads term_reads .beforeAssign ha).row.stop_eq
  have hv := (expect_mark heq rfl).row.stop_eq
  simp only [List.length_singleton] at hy hv
  exact ⟨hk, a, u, mark', v, value, rfl, ha, heq, hr (by omega) hvalue hx⟩

theorem relax_spread (sort : Spread) (hk : s.kindAt c.pos = sort.mark)
    (h : (spread term r sort).Runs s c t x) : (spread term .free sort).Runs s c t x := by
  simp only [spread, runs_bind, runs_pure] at h ⊢
  obtain ⟨_, y, hbump, u, _, hu, rfl, rfl⟩ := h
  have hy : y.pos = c.pos + 1 := (bump_mark hbump hk sort.isSome_text?).row.stop_eq
  exact ⟨(), y, hbump, u, _, hr (by omega) hu hx, rfl, rfl⟩

theorem relax_generic (h : (generic term r).Runs s c t x) : (generic term .free).Runs s c t x := by
  simp only [generic, runs_bind, runs_pure] at h ⊢
  obtain ⟨mark, y, hopen, ps, z, hps, b, _, hb, rfl, rfl⟩ := h
  have hlen := ((expect_mark hopen rfl).trans (paramsUntil_reads term_reads rfl _ hps)).row.stop_eq
  exact ⟨mark, y, hopen, ps, z, hps, b, _, relax_body hr (by omega) hx hb, rfl, rfl⟩

theorem relax_plainFunction (hk : s.kindAt c.pos = .parenOpen)
    (h : (plainFunction term r).Runs s c t x) : (plainFunction term .free).Runs s c t x := by
  simp only [plainFunction, runs_bind, runs_pure] at h ⊢
  obtain ⟨_, y, hbump, ps, z, hps, b, _, hb, rfl, rfl⟩ := h
  have hlen := ((bump_mark hbump hk rfl).trans (paramsUntil_reads term_reads rfl _ hps)).row.stop_eq
  exact ⟨(), y, hbump, ps, z, hps, b, _, relax_body hr (by omega) hx hb, rfl, rfl⟩

/-- A result before `=>` is none that function types are preferred for. -/
theorem relax_withResult {close : Nat} (hlt : c.pos < close) (harrow : s.kindAt (close + 1) = .arrow)
    (h : (withResult term r close).Runs s c t x) : (withResult term .free close).Runs s c t x := by
  obtain ⟨result, u, hresult, hcases⟩ := (runs_withResult harrow).1 h
  have hu := lt_of_term hresult
  simp only at hu
  obtain ⟨hpft, hk, y, z, v, ps, b, mark, rfl, hbump, hps, hmark, hb⟩ |
    ⟨hfun, z, v, ts, mark, rfl, hts, hmark, rfl⟩ := hcases
  · have hresult' := hr (by simp only; omega) hresult (hk ▸ hpft)
    have hb' := relax_body hr (by omega) hx hb
    exact (runs_withResult harrow).2
      ⟨result, u, hresult', .inl ⟨rfl, hk, y, z, v, ps, b, mark, rfl, hbump, hps, hmark, hb'⟩⟩
  · have hresult' := hr (by simp only; omega) hresult hx
    refine (runs_withResult harrow).2
      ⟨result, x, hresult', .inr ⟨?_, z, v, ts, mark, rfl, hts, hmark, rfl⟩⟩
    rintro ⟨-, hk⟩
    rw [hk] at hx
    exact hfun ⟨hx, hk⟩

theorem relax_function (hk : s.kindAt c.pos = .parenOpen) (h : (function term r).Runs s c t x) :
    (function term .free).Runs s c t x := by
  obtain ⟨close, hclose, ⟨harrow, h⟩ | ⟨harrow, h⟩⟩ := runs_function.1 h
  · exact runs_function.2 ⟨close, hclose, .inl ⟨harrow, relax_plainFunction hr hs hx hk h⟩⟩
  · have hlt := Stream.lt_of_matchingClose? (by rw [hk]; rfl) hclose
    exact runs_function.2 ⟨close, hclose, .inr ⟨harrow, relax_withResult hr hs hx hlt harrow h⟩⟩

theorem relax_head (h : (head term r).Runs s c t x) : (head term .free).Runs s c t x := by
  cases runs_head.1 h with
  | generic hk h => exact runs_head.2 (.generic hk (relax_generic hr hs hx h))
  | binding hk hb => exact runs_head.2 (.binding hk (relax_binding hr hs hx hb))
  | function hk h => exact runs_head.2 (.function hk (relax_function hr hs hx hk h))
  | spread sort hk h => exact runs_head.2 (.spread sort hk (relax_spread hr hs hx sort hk h))
  | block hk hbump hts => exact runs_head.2 (.block hk hbump hts)
  | loop hk h => exact runs_head.2 (.loop hk h)
  | signature sort hk h => exact runs_head.2 (.signature sort hk h)
  | record sort hk h => exact runs_head.2 (.record sort hk h)
  | trait hk h => exact runs_head.2 (.trait hk h)
  | cases hk h => exact runs_head.2 (.cases hk h)
  | literal hk h => exact runs_head.2 (.literal hk h)

theorem relax_link {target longer : Term} (h : (link term r target).Runs s c (some longer) x) :
    (link term .free target).Runs s c (some longer) x := by
  cases runs_link.1 h with
  | select hk hbump hname => exact runs_link.2 (.select hk hbump hname)
  | apply sort hk hbump has => exact runs_link.2 (.apply sort hk hbump has)
  | applyNamed hk hfields => exact runs_link.2 (.applyNamed hk hfields)
  | @assign y _ value hk hbump hvalue =>
    have hy : y.pos = c.pos + 1 := (bump_mark hbump hk rfl).row.stop_eq
    exact runs_link.2 (.assign hk hbump (hr (by omega) hvalue hx))

omit hs hx in
/-- Where a link follows, no restriction keeps it out. -/
theorem relax_chains {head : Term} (h : Chains s r head c t x) (hs : start ≤ c.pos)
    (hx : r.bars (s.kindAt x.pos) = false) : Chains s .free head c t x ∧ r.bars (s.kindAt c.pos) = false := by
  induction h with
  | done hk => exact ⟨.done ((continuesChain_free hx).trans hk), hx⟩
  | @left head c hk hdepth hlink =>
    have hfree := (continuesChain_free hx).trans hk
    have hne := kindAt_of_link_none hlink
    exact ⟨.left hfree hdepth (hlink.congr (link_congr hne r .free head)), hx⟩
  | @link head longer whole c y x hk hdepth hlink hchain ih =>
    obtain ⟨-, -, -, hlt⟩ := reads_of_link hlink
    simp only at hlt
    obtain ⟨hchain', hy⟩ := ih (by omega) hx
    have hbar := bars_of_continuesChain hk
    have hlink' := relax_link hr (c := { c with depth := c.depth + 1 }) hs hy hlink
    exact ⟨.link ((continuesChain_free hbar).trans hk) hdepth hlink' hchain', hbar⟩

end

/-- A term before a token that its restrictions do not keep out is read without restrictions as well. -/
theorem relax_term (h : (term r).Runs s c t x) (hx : r.bars (s.kindAt x.pos) = false) :
    (term .free).Runs s c t x := by
  induction hn : s.tokens.size - c.pos using Nat.strong_induction_on generalizing c t x with
  | _ n ih =>
    have hlt := start_lt_of_term h
    have hr : Relaxes s r c.pos := fun {c' x' t'} hs h' hx' => by
      have := start_lt_of_term h'
      exact ih (s.tokens.size - c'.pos) (by omega) h' hx' rfl
    obtain ⟨hdepth, first, y, z, hfirst, hchain, rfl⟩ := (runs_term (Nat.le_of_lt hlt)).1 h
    have hle : y.pos = c.pos + first.yield.length := (head_reads term_reads r hfirst).1.row.stop_eq
    obtain ⟨hchain', hy⟩ := relax_chains hr hchain (by omega) hx
    have hfirst' := relax_head (c := { c with depth := c.depth + 1 }) hr (Nat.le_refl _) hy hfirst
    exact (runs_term (Nat.le_of_lt hlt)).2 ⟨hdepth, first, y, z, hfirst', hchain', rfl⟩

end Grammar

end TermLang
