import TermLang.Proofs.TermRuns

/-!
# Open terms

A term is open if it ends with a term that no bracket closes: the operand of a spread, the result of a
function type, a single body, the value of a binding or of an assignment. That last term is read under
the restrictions of the term around it and takes every link that stands behind it. Where it found no
further link, the chain around it finds none either (`stops_of_term`): what kept a link from being read
at some level, be it the restrictions or a curly bracket that begins no named application, keeps it from
being read at any level below. So an open term is the target of no link.
-/

namespace TermLang

/-! ## What a term ends with -/

/-- The term that a body ends with, if it is not in brackets. -/
def Body.last? : Body → Option Term
  | .block _ => none
  | .single t => some t

/-- The term that a binding ends with. -/
def Binding.last? : Binding → Option Term
  | .init _ _ value => some value
  | .bare _ => none

namespace Term

/-- The term that an open term ends with. -/
def last? : Term → Option Term
  | .generic _ body | .function _ _ body => body.last?
  | .binding b => b.last?
  | .funType _ t | .spread _ t | .assign _ t => some t
  | _ => none

/-- The terms on the right spine of a term: the term itself and, if it is open, those on the right spine
of the term that it ends with. -/
inductive Spine : Term → Term → Prop
  | here (t : Term) : t.Spine t
  | down {t u v : Term} : t.last? = some u → u.Spine v → t.Spine v

end Term

namespace Grammar

open Parse

variable {s : Stream} {c x : Cursor} {r : Restrictions} {t : Term}

/-! ## Where chains end -/

theorem start_lt_of_term (h : (term r).Runs s c t x) : c.pos < s.tokens.size := by
  have hrow := (term_reads r h).row
  cases hy : t.yield with
  | nil => exact absurd hy t.yield_ne_nil
  | cons y ys =>
    rw [hy] at hrow
    exact hrow.start_lt

theorem stop_le_of_term (h : (term r).Runs s c t x) : x.pos ≤ s.tokens.size :=
  (term_reads r h).row.stop_le (Nat.le_of_lt (start_lt_of_term h))

/-- No link of a term under the restrictions begins at the cursor. -/
def Stops (s : Stream) (r : Restrictions) (c : Cursor) : Prop :=
  continuesChain r (s.kindAt c.pos) = true → ∀ target,
    (link term r target).Runs s { c with depth := c.depth + 1 } none { c with depth := c.depth + 1 }

/-- Whether there is a link does not depend on what it would be folded onto. -/
theorem runs_link_none {target target' : Term} (h : (link term r target).Runs s c none x) :
    (link term r target').Runs s c none x := by
  cases runs_link.1 h with
  | left hk hfields => exact runs_link.2 (.left hk hfields)
  | none hk => exact runs_link.2 (.none hk)

/-- A parser that succeeds with more levels open succeeds with fewer. -/
theorem runs_of_mimics {α : Type} {p p' : Parse α} {lift lo : Nat} {z : Zone} {c' : Cursor} {a : α}
    (h : p.Runs s c a x)
    (hm : p.Mimics (Window.self s lift) ((Window.self s lift).Sees z lo) c c' p') :
    p'.Runs s c' a { x with depth := x.depth - lift } := by
  cases hm with
  | ok ha hb hc =>
    obtain rfl := Except.ok.inj (h.1.symm.trans ha)
    have hcursor : (p s c).cursor = x := h.2
    refine ⟨hb, ?_⟩
    have hpos : x.pos = (p' s c').cursor.pos := hcursor ▸ hc.pos_eq
    have hdepth : x.depth = (p' s c').cursor.depth + lift := hcursor ▸ hc.depth_eq
    rw [hpos, hdepth, Nat.add_sub_cancel]
  | error ha => cases h.1.symm.trans ha
  | lost _ ha => cases h.1.symm.trans ha

/-- Where no link begins at some level, none begins at the level below. -/
theorem Stops.lower (hle : c.pos ≤ s.tokens.size) (h : Stops s r { c with depth := c.depth + 1 }) :
    Stops s r c := by
  intro hk target
  have hsees := @sees_self s { c with depth := c.depth + 1 + 1 } { c with depth := c.depth + 1 } 1 rfl
    rfl hle
  exact runs_of_mimics (h hk target)
    (mimics_link (mimicTerms_term _ c.pos) r target hsees (Nat.le_refl _))

/-- A chain ends where no further link begins. -/
theorem Chains.stops {head : Term} (h : Chains s r head c t x) (hle : c.pos ≤ s.tokens.size) :
    Stops s r x := by
  induction h with
  | done hk =>
    intro hk'
    rw [hk] at hk'
    cases hk'
  | left _ _ hlink => exact fun _ _ => runs_link_none hlink
  | @link head longer whole c y x _ _ hlink hrest ih =>
    obtain ⟨ys, hread, -, -⟩ := reads_of_link hlink
    obtain ⟨zs, -, hreads⟩ := reads_of_chains hrest
    have hy : y.pos ≤ s.tokens.size := hread.row.stop_le hle
    have hdepth : x.depth = c.depth + 1 := hreads.depth_eq.trans hread.depth_eq
    have hx : { x with depth := x.depth - 1 + 1 } = x := by rw [hdepth]; cases x; cases hdepth; rfl
    apply Stops.lower (c := { x with depth := x.depth - 1 }) (hreads.row.stop_le hy)
    rw [hx]
    exact ih hy

/-- No link of a term begins where the term ends. -/
theorem stops_of_term (h : (term r).Runs s c t x) : Stops s r x := by
  have hle := Nat.le_of_lt (start_lt_of_term h)
  obtain ⟨-, first, y, z, hfirst, hchain, rfl⟩ := (runs_term hle).1 h
  have hread := (head_reads term_reads r hfirst).1
  obtain ⟨zs, -, hreads⟩ := reads_of_chains hchain
  have hy : y.pos ≤ s.tokens.size := hread.row.stop_le hle
  have hdepth : z.depth = c.depth + 1 := hreads.depth_eq.trans hread.depth_eq
  have hz : { z with depth := z.depth - 1 + 1 } = z := by rw [hdepth]; cases z; cases hdepth; rfl
  apply Stops.lower (c := { z with depth := z.depth - 1 }) (hreads.row.stop_le hy)
  rw [hz]
  exact hchain.stops hy

/-! ## What open terms end with -/

section

variable {u : Term}

theorem runs_last_of_body {b : Body} (h : (body term r).Runs s c b x) (hl : b.last? = some u) :
    ∃ c', (term r).Runs s c' u x := by
  obtain ⟨_, y, -, ⟨-, ts, rfl, -⟩ | ⟨-, v, rfl, hv⟩⟩ := runs_body.1 h
  · cases hl
  · obtain rfl : v = u := Option.some.inj hl
    exact ⟨y, hv⟩

theorem runs_last_of_binding {b : Binding} (h : (binding term r).Runs s c b x)
    (hl : b.last? = some u) : ∃ c', (term r).Runs s c' u x := by
  obtain ⟨_, _, name, _, -, -, ⟨-, a, _, _, y, v, rfl, -, -, hv⟩ | ⟨-, rfl, -⟩⟩ := runs_binding.1 h
  · obtain rfl : v = u := Option.some.inj hl
    exact ⟨y, hv⟩
  · cases hl

theorem runs_last_of_function (h : (function term r).Runs s c t x) (hl : t.last? = some u) :
    ∃ c', (term r).Runs s c' u x := by
  obtain ⟨close, -, ⟨-, h⟩ | ⟨harrow, h⟩⟩ := runs_function.1 h
  · simp only [plainFunction, runs_bind, runs_pure] at h
    obtain ⟨_, _, -, ps, _, -, b, _, hb, rfl, rfl⟩ := h
    exact runs_last_of_body hb hl
  · obtain ⟨result, y, hresult, ⟨-, -, _, _, _, ps, b, _, rfl, -, -, -, hb⟩ |
      ⟨-, _, _, ts, _, rfl, -, -, rfl⟩⟩ := (runs_withResult harrow).1 h
    · exact runs_last_of_body hb hl
    · obtain rfl : result = u := Option.some.inj hl
      exact ⟨_, hresult⟩

theorem last?_of_loop (h : (loop term).Runs s c t x) : t.last? = none := by
  obtain ⟨_, _, -, ⟨-, -, _, _, _, _, _, _, rfl, -⟩ | ⟨-, -, _, rfl, -⟩ |
    ⟨-, -, _, _, _, rfl, -⟩⟩ := runs_loop.1 h <;> rfl

theorem last?_of_literal (h : literal.Runs s c t x) : t.last? = none := by
  simp only [literal, runs_bind, runs_current] at h
  obtain ⟨_, _, -, h⟩ := h
  split at h
  · split at h
    all_goals first
      | exact absurd h not_runs_reject
      | simp only [runs_bind, runs_pure] at h
        obtain ⟨_, _, -, rfl, -⟩ := h
        rfl
  · exact absurd h not_runs_reject

/-- A head that begins with a token of the kind does not end with a term. -/
def endsItself : Kind → Bool
  | .bracketOpen | .kwLet | .parenOpen | .star | .starStar => false
  | _ => true

theorem last?_of_head (hk : endsItself (s.kindAt c.pos) = true) (h : (head term r).Runs s c t x) :
    t.last? = none := by
  cases runs_head.1 h with
  | generic hk' | binding hk' | function hk' =>
    rw [hk'] at hk
    cases hk
  | spread sort hk' =>
    rw [hk'] at hk
    cases sort <;> cases hk
  | loop _ h => exact last?_of_loop h
  | literal _ h => exact last?_of_literal h
  | block => rfl
  | signature _ _ h | record _ _ h | trait _ h | cases _ h =>
    simp only [signature, record, trait, caseOf, runs_bind, runs_pure] at h
    obtain ⟨_, _, -, _, _, -, _, _, -, rfl, -⟩ := h
    rfl

/-- What an open head ends with is a term under its restrictions that ends where the head ends. -/
theorem runs_last_of_head (h : (head term r).Runs s c t x) (hl : t.last? = some u) :
    ∃ c', (term r).Runs s c' u x := by
  have hopen : endsItself (s.kindAt c.pos) = false := by
    rw [← Bool.not_eq_true]
    intro hk
    rw [last?_of_head hk h] at hl
    cases hl
  cases runs_head.1 h with
  | generic _ h =>
    simp only [generic, runs_bind, runs_pure] at h
    obtain ⟨_, _, -, ps, _, -, b, _, hb, rfl, rfl⟩ := h
    exact runs_last_of_body hb hl
  | binding _ hb => exact runs_last_of_binding hb hl
  | function _ h => exact runs_last_of_function h hl
  | spread _ _ h =>
    simp only [spread, runs_bind, runs_pure] at h
    obtain ⟨_, _, -, v, _, hv, rfl, rfl⟩ := h
    obtain rfl : v = u := Option.some.inj hl
    exact ⟨_, hv⟩
  | block hk | loop hk | trait hk | cases hk =>
    rw [hk] at hopen
    cases hopen
  | signature sort hk | record sort hk =>
    rw [hk] at hopen
    cases sort <;> cases hopen
  | literal hk =>
    have hitself : ∀ k ∈ literalKinds, endsItself k = true := by decide
    rw [hitself _ hk] at hopen
    cases hopen

/-- What an open link ends with is a term under its restrictions. The link is an assignment, which the
restrictions do not keep out. -/
theorem runs_last_of_link {target : Term} (h : (link term r target).Runs s c (some t) x)
    (hk : continuesChain r (s.kindAt c.pos) = true) (hl : t.last? = some u) :
    r.noAssign = false ∧ ∃ c', (term r).Runs s c' u x := by
  cases runs_link.1 h with
  | assign he _ hvalue =>
    obtain rfl := Option.some.inj hl
    rw [he] at hk
    exact ⟨by simpa [continuesChain] using hk, _, hvalue⟩
  | select | apply | applyNamed => cases hl

/-- A chain is its head, or it ends with a link. -/
theorem Chains.last_link {head : Term} (h : Chains s r head c t x) :
    t = head ∧ x = c ∨ ∃ target c' x', continuesChain r (s.kindAt c'.pos) = true ∧
      (Grammar.link term r target).Runs s c' (some t) x' := by
  induction h with
  | done | left => exact .inl ⟨rfl, rfl⟩
  | @link head longer whole c y x hk _ hlink _ ih =>
    right
    obtain ⟨rfl, rfl⟩ | hlast := ih
    · exact ⟨head, { c with depth := c.depth + 1 }, _, hk, hlink⟩
    · exact hlast

/-- What an open term ends with is a term under the same restrictions; if they keep assignments out, the
open term is none. -/
theorem runs_last (h : (term r).Runs s c t x) (hl : t.last? = some u) :
    (∃ c' x', (term r).Runs s c' u x') ∧ (r.noAssign = true → t.target? = none) := by
  obtain ⟨-, first, y, z, hfirst, hchain, rfl⟩ := (runs_term (Nat.le_of_lt (start_lt_of_term h))).1 h
  obtain ⟨rfl, rfl⟩ | ⟨target, c', x', hk, hlink⟩ := hchain.last_link
  · obtain ⟨c', hu⟩ := runs_last_of_head hfirst hl
    exact ⟨⟨c', _, hu⟩, fun _ => (head_reads term_reads r hfirst).2⟩
  · obtain ⟨hassign, c', hu⟩ := runs_last_of_link hlink hk hl
    refine ⟨⟨c', _, hu⟩, fun h => ?_⟩
    rw [hassign] at h
    cases h

/-- No assignment stands on the right spine of a term that is read before an equals sign. -/
theorem not_assign_of_spine {v : Term} (hr : r.noAssign = true) (h : t.Spine v) :
    ∀ {c x}, (term r).Runs s c t x → ∀ target value, v ≠ .assign target value := by
  induction h with
  | here t =>
    rintro c x h target value rfl
    cases (runs_last h rfl).2 hr
  | down hl _ ih =>
    intro c x h
    obtain ⟨c', x', hu⟩ := (runs_last h hl).1
    exact ih hu

end

end Grammar

end TermLang
