import TermLang.Proofs.Seams

/-!
# Places that lead to a goal

Where a term ends, the terms around it may go on: with a link, with a body, with the block of a loop, or
with the value behind an equals sign. From there to the end of the outermost one there are only such
pieces. That is all that is said here of a place inside a term, looking outside brackets (`Stream.Leads`);
it does not matter by which rules and under which restrictions the pieces are read.
-/

namespace TermLang

open Terminal (within)

/-- From an index on there are pieces of terms up to a goal: selections, pairs of brackets with what stands
between them, arrows before a block, and equals signs and arrows before a term. -/
inductive Stream.Leads (s : Stream) (goal : Nat → Prop) : Nat → Prop
  | here {i : Nat} : goal i → s.Leads goal i
  | select {i : Nat} : s.kindAt i = .dot → s.Leads goal (i + 2) → s.Leads goal i
  | pair {i close : Nat} : (s.kindAt i).bracket = .opening → s.matchingClose? i = some close →
      s.Leads goal (close + 1) → s.Leads goal i
  | block {i close : Nat} : s.kindAt i = .fatArrow → s.kindAt (i + 1) = .braceOpen →
      s.matchingClose? (i + 1) = some close → s.Leads goal (close + 1) → s.Leads goal i
  | term {i d : Nat} {r : Restrictions} {t : Term} {x : Cursor} :
      s.kindAt i = .equals ∨ s.kindAt i = .fatArrow → (Grammar.term r).Runs s ⟨i + 1, d⟩ t x →
        s.Leads goal x.pos → s.Leads goal i

namespace Stream

variable {s : Stream} {goal : Nat → Prop} {i j : Nat}

theorem Leads.le {stop : Nat} (h : s.Leads goal i) (hgoal : ∀ j, goal j → j ≤ stop) : i ≤ stop := by
  induction h with
  | here h => exact hgoal _ h
  | select => omega
  | pair hb hclose _ ih =>
    have := lt_of_matchingClose? hb hclose
    omega
  | block _ hopen hclose _ ih =>
    have := lt_of_matchingClose? (by rw [hopen]; rfl) hclose
    omega
  | term _ hrun _ ih =>
    have := Grammar.lt_of_term hrun
    simp only at this
    omega

end Stream

namespace Grammar

open Parse

variable {s : Stream} {goal : Nat → Prop} {c x : Cursor} {r : Restrictions} {t : Term}

/-- A block ends with the bracket that closes it. -/
theorem close_of_blocked {rule : Rule} {ts : List Term} (h : (blocked term rule).Runs s c ts x) :
    s.kindAt c.pos = .braceOpen ∧ c.pos < x.pos ∧ s.matchingClose? c.pos = some (x.pos - 1) := by
  have hrow := (blocked_reads term_reads rule h).row
  have hlen := hrow.stop_eq
  simp only [within, List.length_cons] at hlen
  exact ⟨hrow.kindAt, by omega, Stream.matchingClose?_of_row rfl hrow (bracketed_termsYield ts)⟩

theorem leads_of_blocked {rule : Rule} {ts : List Term} (h : (blocked term rule).Runs s c ts x)
    (hx : s.Leads goal x.pos) : s.Leads goal c.pos := by
  obtain ⟨hk, hlt, hclose⟩ := close_of_blocked h
  refine .pair (by rw [hk]; rfl) hclose ?_
  rwa [show x.pos - 1 + 1 = x.pos by omega]

/-- An equals sign leads to where the term behind it leads. -/
theorem leads_of_equals {rule : Rule} {mark : Token} {y : Cursor}
    (h : (expect .equals rule).Runs s c mark y) (ht : (term r).Runs s y t x) (hx : s.Leads goal x.pos) :
    s.Leads goal c.pos := by
  obtain ⟨htake, hk⟩ := (runs_expect (by decide)).1 h
  obtain rfl := htake.next
  exact .term (.inl (htake.kindAt.trans hk)) ht hx

theorem leads_of_body {b : Body} (h : (body term r).Runs s c b x) (hx : s.Leads goal x.pos) :
    s.Leads goal c.pos := by
  obtain ⟨mark, y, harrow, hcases⟩ := runs_body.1 h
  have hmark := (runs_expect (by decide)).1 harrow
  have hk : s.kindAt c.pos = .fatArrow := hmark.1.kindAt.trans hmark.2
  obtain rfl := hmark.1.next
  obtain ⟨hopen, ts, -, hts⟩ | ⟨-, t, -, ht⟩ := hcases
  · obtain ⟨-, hlt, hclose⟩ := close_of_blocked hts
    refine .block hk hopen hclose ?_
    rwa [show x.pos - 1 + 1 = x.pos by omega]
  · exact .term (.inr hk) ht hx

/-- A link is a selection, an application, or an assignment of a term. -/
theorem link_cases {target longer : Term} (h : (link term r target).Runs s c (some longer) x) :
    s.kindAt c.pos = .dot ∧ x.pos = c.pos + 2 ∨
    (s.kindAt c.pos).bracket = .opening ∧ s.matchingClose? c.pos = some (x.pos - 1) ∨
    s.kindAt c.pos = .equals ∧ ∃ value, longer = .assign target value ∧
      (term r).Runs s { c with pos := c.pos + 1 } value x := by
  cases runs_link.1 h with
  | select hk hbump hname =>
    have hlen := ((bump_mark hbump hk rfl).trans (expectIdent_reads .selector hname)).row.stop_eq
    exact .inl ⟨hk, hlen⟩
  | apply sort hk hbump has =>
    have hopen : sort.opening.text?.isSome = true ∧ sort.opening.partner? = some sort.closing ∧
        sort.closing.text?.isSome = true := by cases sort <;> exact ⟨rfl, rfl, rfl⟩
    have hread := (bump_mark hbump hk hopen.1).trans (argsUntil_reads term_reads hopen.2.2 _ has)
    refine .inr (.inl ⟨hk ▸ (Kind.bracket_of_partner? hopen.2.1).1, ?_⟩)
    exact Stream.matchingClose?_of_row hopen.2.1 hread.row (bracketed_argsYield _)
  | @applyNamed _ fields hk hfields =>
    obtain ⟨_, ho, hrun⟩ | ⟨ho, -⟩ := runs_speculate hfields
    · obtain rfl := Option.some.inj ho
      simp only [namedApplier, runs_bind] at hrun
      obtain ⟨_, y, hopen, hrun⟩ := hrun
      have hread := (expect_mark hopen rfl).trans (fieldsUntil_reads term_reads rfl _ hrun)
      refine .inr (.inl ⟨by rw [hk]; rfl, ?_⟩)
      exact Stream.matchingClose?_of_row (o := .braceOpen) rfl hread.row (bracketed_fieldsYield fields)
    · cases ho
  | assign hk hbump hvalue =>
    obtain ⟨t, htake, -⟩ := (runs_bump hk (by decide)).1 hbump
    obtain rfl := htake.next
    exact .inr (.inr ⟨hk, _, rfl, hvalue⟩)

theorem leads_of_link {target longer : Term} (h : (link term r target).Runs s c (some longer) x)
    (hx : s.Leads goal x.pos) : s.Leads goal c.pos := by
  obtain ⟨-, -, -, hlt⟩ := reads_of_link h
  obtain ⟨hk, hpos⟩ | ⟨hopen, hclose⟩ | ⟨hk, value, -, hvalue⟩ := link_cases h
  · exact .select hk (hpos ▸ hx)
  · refine .pair hopen hclose ?_
    rwa [show x.pos - 1 + 1 = x.pos by omega]
  · exact .term (.inl hk) hvalue hx

/-- Of a place that leads to a goal, and where a link is read: it is the goal, or the link leads to the goal
as well, or it is an assignment, and there a term leads to the goal. -/
theorem link_of_leads {target longer : Term} (hc : s.Leads goal c.pos)
    (hk : continuesChain r (s.kindAt c.pos) = true) (h : (link term r target).Runs s c (some longer) x) :
    goal c.pos ∨ s.Leads goal x.pos ∨ s.kindAt c.pos = .equals ∧
      ∃ value, longer = .assign target value ∧ (term r).Runs s { c with pos := c.pos + 1 } value x ∧
        ∃ d r' t y, (term r').Runs s ⟨c.pos + 1, d⟩ t y ∧ s.Leads goal y.pos := by
  obtain ⟨-, -, -, hlt⟩ := reads_of_link h
  have hcases := link_cases h
  cases hc with
  | here hgoal => exact .inl hgoal
  | select hdot hx =>
    obtain ⟨-, hpos⟩ | ⟨hopen, -⟩ | ⟨heq, -⟩ := hcases
    · exact .inr (.inl (hpos ▸ hx))
    · rw [hdot] at hopen
      cases hopen
    · exact absurd (hdot.symm.trans heq) (by decide)
  | @pair _ close hopen hclose hx =>
    obtain ⟨hdot, -⟩ | ⟨-, hclose'⟩ | ⟨heq, -⟩ := hcases
    · rw [hdot] at hopen
      cases hopen
    · rw [hclose, Option.some.injEq] at hclose'
      rw [show close + 1 = x.pos by omega] at hx
      exact .inr (.inl hx)
    · rw [heq] at hopen
      cases hopen
  | block harrow =>
    rw [harrow] at hk
    cases hk
  | term hmark hrun hx =>
    obtain heq | harrow := hmark
    · obtain ⟨hdot, -⟩ | ⟨hopen, -⟩ | ⟨-, value, hlonger, hvalue⟩ := hcases
      · exact absurd (hdot.symm.trans heq) (by decide)
      · rw [heq] at hopen
        cases hopen
      · exact .inr (.inr ⟨heq, value, hlonger, hvalue, _, _, _, _, hrun, hx⟩)
    · rw [harrow] at hk
      cases hk

/-- A head leads to where its links lead. -/
theorem leads_of_chains {head : Term} (h : Chains s r head c t x) (hx : s.Leads goal x.pos) :
    s.Leads goal c.pos := by
  induction h with
  | done | left => exact hx
  | @link head longer whole c y x _ _ hlink _ ih =>
    exact leads_of_link (c := { c with depth := c.depth + 1 }) hlink (ih hx)

end Grammar

end TermLang
