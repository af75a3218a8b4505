import TermLang.Proofs.Reading

/-!
# What a run of a whole term has read

The laws of `Reading` go on to declarations, loops, functions and chains, and close with terms and
programs. In two places the cursor jumps. A loop takes the closing named application of its head for
the body: the bracket found backwards is the one that the application began with
(`loopHead_reads`). A function reads its result before its parameters: the bracket found forwards is
the one that the parameters end with, so the jump lands where they lead (`seek_past_list`).
-/

namespace TermLang

open Terminal (within)

namespace Stream

variable {s : Stream} {c c₁ c' : Cursor} {ys : List Terminal}

theorem Row.start_lt {i j : Nat} {y : Terminal} (h : s.Row i (y :: ys) j) :
    i < s.tokens.size := by
  cases h with
  | cons ht _ _ => exact (Array.getElem?_eq_some_iff.1 ht).1

/-- Jumping two past the bracket that closes a list leads behind the mark after the list. -/
theorem seek_past_list {close : Nat} {t : Token}
    (hclose : s.matchingClose? c.pos = some close)
    (hlist : s.Reads c (within .parenOpen .parenClose ys) [] c₁) (hb : Bracketed ys)
    (hmark : s.Takes c₁ t c') : { c with pos := min (close + 2) s.tokens.size } = c' := by
  have hpair := matchingClose?_of_row (o := .parenOpen) rfl hlist.row hb
  rw [hclose, Option.some.injEq] at hpair
  have hlen := hlist.row.stop_eq
  have hlt := (Array.getElem?_eq_some_iff.1 hmark.token).1
  have hpos : min (close + 2) s.tokens.size = c₁.pos + 1 := by
    rw [within, List.length_cons] at hlen
    omega
  rw [hmark.next, hpos, hlist.depth_eq]

end Stream

namespace Grammar

open Parse

/-- Every run of the parser reads a head: a term that is no link, with its parts. -/
def ReadsHead (p : Parse Term) : Prop :=
  ∀ ⦃s : Stream⦄ ⦃c : Cursor⦄ ⦃t : Term⦄ ⦃c' : Cursor⦄,
    p.Runs s c t c' → s.Reads c t.yield t.inner c' ∧ t.target? = none

section

variable {term : TermParser} (hterm : ReadsTerms term)

include hterm

/-! ## Bodies and bindings -/

theorem body_reads (r : Restrictions) : (body term r).ReadsAs Body.yield Body.parts := by
  intro s c b c' h
  obtain ⟨mark, c₁, harrow, ⟨-, ts, rfl, hts⟩ | ⟨-, t, rfl, ht⟩⟩ := runs_body.1 h
  · exact (expect_mark harrow rfl).trans (blocked_reads hterm .fatArrow hts)
  · exact (expect_mark harrow rfl).trans (hterm r ht)

theorem binding_reads (r : Restrictions) :
    (binding term r).ReadsAs Binding.yield Binding.parts := by
  intro s c b c' h
  obtain ⟨mark, c₁, name, c₂, hlet, hname, hcases⟩ := runs_binding.1 h
  have hstart := (expect_mark hlet rfl).trans (expectIdent_reads .letRule hname)
  obtain ⟨-, a, c₃, _, c₄, t, rfl, ha, heq, ht⟩ | ⟨-, rfl, rfl⟩ := hcases
  · have hrest := (anno?_reads hterm .beforeAssign ha).trans ((expect_mark heq rfl).trans (hterm r ht))
    refine (hstart.trans hrest).cast rfl ?_
    cases a <;> simp [Binding.parts]
  · exact hstart

/-! ## Loops -/

omit hterm in
/-- The closing named application of a term, given back, leaves its target read. -/
theorem reads_of_applyNamed {s : Stream} {c c₁ : Cursor} {target : Term} {fields : List Field}
    {opening last : Nat} (h : s.Reads c (Term.applyNamed target fields).yield
      [.applyNamed target fields] c₁) (hlast : c₁.pos = last + 1)
    (hopen : s.matchingOpen? last = some opening) :
    s.Reads c target.yield [target] { c₁ with pos := min opening s.tokens.size } := by
  obtain ⟨j, htarget, hfields⟩ := h.row.split
  have hpair := Stream.matchingOpen?_of_row (o := .braceOpen) (j := last) rfl (hlast ▸ hfields)
    (bracketed_fieldsYield fields)
  rw [hopen, Option.some.injEq] at hpair
  subst hpair
  have hmin : min opening s.tokens.size = opening := Nat.min_eq_left (Nat.le_of_lt hfields.start_lt)
  refine ⟨by rw [hmin]; exact htarget, h.depth_eq, fun u hu => ?_⟩
  rw [List.mem_singleton] at hu
  subst hu
  exact (h.fits _ (List.mem_singleton_self _)).target rfl

theorem loopHead_reads : (loopHead term).ReadsAs Term.yield (fun t => [t]) := by
  intro s c t c' h
  simp only [loopHead, runs_bind, runs_cursor, runs_at?] at h
  obtain ⟨_, _, ⟨rfl, rfl⟩, head, c₁, hhead, _, _, ⟨rfl, rfl⟩, h⟩ := h
  have hread := hterm .free hhead
  split at h
  · rw [runs_pure] at h
    obtain ⟨rfl, rfl⟩ := h
    exact hread
  · rw [runs_bind] at h
    obtain ⟨o, c₂, hopen, h⟩ := h
    split at h
    · rename_i target fields opening
      simp only [runs_bind, runs_note, runs_seek, runs_pure] at h
      obtain ⟨_, _, rfl, _, _, rfl, rfl, rfl⟩ := h
      obtain ⟨last, hlast⟩ : ∃ last, c₁.pos = last + 1 := by
        have hlen := hread.row.stop_eq
        simp only [Term.yield, List.length_append, within, List.length_cons] at hlen
        exact ⟨c₁.pos - 1, by omega⟩
      obtain ⟨hpair, rfl⟩ := (runs_openingBefore? hlast).1 hopen
      exact reads_of_applyNamed hread hlast hpair
    · simp only [runs_bind, runs_restore] at h
      obtain ⟨_, _, rfl, h⟩ := h
      exact hterm .beforeBody h

theorem loop_reads : ReadsHead (loop term) := by
  intro s c t c' h
  simp only [loop, runs_bind, runs_at?, runs_nthKind] at h
  obtain ⟨_, c₁, hfor, _, _, ⟨rfl, rfl⟩, _, _, ⟨rfl, rfl⟩, h⟩ := h
  have hfor := expect_mark hfor rfl
  split at h
  · rename_i hin
    simp only [runs_bind, runs_pure] at h
    obtain ⟨name, c₂, hname, _, c₃, hbump, source, c₄, hsource, ts, c₅, hts, rfl, rfl⟩ := h
    refine ⟨?_, rfl⟩
    have hkind : s.kindAt c₂.pos = .kwIn := by
      rw [(expectIdent_reads .forRule hname).row.stop_eq]
      simp only [Bool.and_eq_true, beq_iff_eq] at hin
      exact hin.2
    have hhead := (expectIdent_reads .forRule hname).trans (bump_mark hbump hkind rfl)
    have hbody := (loopHead_reads hterm hsource).trans (blocked_reads hterm .forRule hts)
    exact hfor.trans (hhead.trans hbody)
  · simp only [runs_bind, runs_at?] at h
    obtain ⟨_, _, ⟨rfl, rfl⟩, h⟩ := h
    split at h
    · simp only [runs_bind, runs_pure] at h
      obtain ⟨ts, c₂, hts, rfl, rfl⟩ := h
      exact ⟨hfor.trans (blocked_reads hterm .forRule hts), rfl⟩
    · simp only [runs_bind, runs_pure] at h
      obtain ⟨condition, c₂, hcond, ts, c₃, hts, rfl, rfl⟩ := h
      have hrest := (loopHead_reads hterm hcond).trans (blocked_reads hterm .forRule hts)
      exact ⟨hfor.trans hrest, rfl⟩

/-! ## Declarations -/

omit hterm in
theorem declName_reads (rule : Rule) :
    (declName rule).ReadsAs (fun name => nameYield name ++ [.mark .braceOpen]) (fun _ => []) := by
  intro s c name c' h
  have hbrace : Kind.braceOpen ≠ .eof := by decide
  simp only [declName, runs_bind, runs_current] at h
  obtain ⟨_, _, ⟨rfl, rfl⟩, h⟩ := h
  split at h
  · rename_i t ht
    split at h
    · rename_i hk
      simp only [runs_bind, runs_skip hbrace] at h
      obtain ⟨_, c₁, hbump, _, c₂, ⟨⟨u, hu, huk⟩, rfl⟩ | ⟨-, rfl, rfl⟩, h⟩ := h
      · simp only [if_true, runs_pure] at h
        obtain ⟨rfl, rfl⟩ := h
        obtain ⟨t', ht', hk'⟩ :=
          (runs_bump ((Stream.kindAt_of_token ht).trans hk) (by decide)).1 hbump
        obtain rfl : t' = t := by
          have := ht'.token
          rw [ht, Option.some.injEq] at this
          exact this.symm
        exact (ht'.name hk').trans (hu.mark huk rfl)
      · exact absurd h not_runs_reject
    · simp only [runs_bind, runs_skip hbrace] at h
      obtain ⟨_, c₁, ⟨⟨u, hu, huk⟩, rfl⟩ | ⟨-, rfl, rfl⟩, h⟩ := h
      · simp only [if_true, runs_pure] at h
        obtain ⟨rfl, rfl⟩ := h
        exact hu.mark huk rfl
      · exact absurd h not_runs_reject
  · exact absurd h not_runs_reject

theorem signature_reads {sort : Signature} {s : Stream} {c c' : Cursor} {t : Term}
    (h : (signature term sort).Runs s c t c') (hk : s.kindAt c.pos = sort.keyword) :
    s.Reads c t.yield t.inner c' ∧ t.target? = none := by
  simp only [signature, runs_bind, runs_pure] at h
  obtain ⟨_, c₁, hbump, name, c₂, hname, ps, c₃, hps, rfl, rfl⟩ := h
  have hdecl := (bump_mark hbump hk sort.isSome_text?).trans (declName_reads _ hname)
  exact ⟨(hdecl.trans (paramsUntil_reads hterm rfl _ hps)).cast
    (by simp [Term.yield, within]) (fun _ hv => hv), rfl⟩

theorem record_reads {sort : Record} {s : Stream} {c c' : Cursor} {t : Term}
    (h : (record term sort).Runs s c t c') (hk : s.kindAt c.pos = sort.keyword) :
    s.Reads c t.yield t.inner c' ∧ t.target? = none := by
  simp only [record, runs_bind, runs_pure] at h
  obtain ⟨_, c₁, hbump, name, c₂, hname, fs, c₃, hfs, rfl, rfl⟩ := h
  have hdecl := (bump_mark hbump hk sort.isSome_text?).trans (declName_reads _ hname)
  exact ⟨(hdecl.trans (fieldsUntil_reads hterm rfl _ hfs)).cast
    (by simp [Term.yield, within]) (fun _ hv => hv), rfl⟩

/-- The terms in a binding of a trait have one level less than they could take. -/
theorem traitBinding_reads : (traitBinding term).ReadsAs Binding.yield Binding.parts := by
  intro s c b c' h
  simp only [traitBinding, runs_bind, runs_descend, runs_ascend, runs_pure] at h
  obtain ⟨_, _, ⟨hlt, rfl⟩, b, c₂, hb, _, _, rfl, rfl, rfl⟩ := h
  have hread := binding_reads hterm .free hb
  refine ⟨hread.row, ?_, fun u hu => (hread.fits u hu).mono ?_⟩
  · show c₂.depth - 1 = c.depth
    rw [hread.depth_eq]
    exact Nat.add_sub_cancel _ _
  · show s.maxDepth - (c.depth + 1) ≤ s.maxDepth - c.depth
    omega

theorem trait_reads : ReadsHead (trait term) := by
  intro s c t c' h
  simp only [trait, runs_bind, runs_pure] at h
  obtain ⟨_, c₁, htrait, name, c₂, hname, bs, c₃, hbs, rfl, rfl⟩ := h
  have hdecl := (expect_mark htrait rfl).trans (declName_reads _ hname)
  have hrest := itemsUntil_reads (traitBinding_reads hterm) rfl hbs
  exact ⟨(hdecl.trans hrest).cast (by simp [Term.yield, within, bindingsYield_eq])
    (fun _ hv => hv), rfl⟩

/-! ## Case distinctions -/

theorem branch_reads : (branch term).ReadsAs Branch.yield Branch.parts := by
  intro s c b c' h
  simp only [branch, runs_bind, runs_cursor, runs_at?] at h
  obtain ⟨_, c₁, hwhen, _, _, ⟨rfl, rfl⟩, first, c₂, hfirst, _, _, ⟨rfl, rfl⟩, h⟩ := h
  have hwhen := expect_mark hwhen rfl
  split at h
  · simp only [runs_bind, runs_pure] at h
    obtain ⟨_, _, ⟨rfl, rfl⟩, b, c₃, hb, rfl, rfl⟩ := h
    exact hwhen.trans ((hterm .free hfirst).trans (body_reads hterm .free hb))
  · simp only [runs_bind, runs_note, runs_restore, runs_pure] at h
    obtain ⟨_, _, -, _, _, rfl, _, _, rfl, guard, c₃, hguard, b, c₄, hb, rfl, rfl⟩ := h
    exact hwhen.trans ((hterm .beforeArrow hguard).trans (body_reads hterm .free hb))

theorem caseOf_reads : ReadsHead (caseOf term) := by
  intro s c t c' h
  simp only [caseOf, runs_bind, runs_pure] at h
  obtain ⟨_, c₁, hcase, _, c₂, hopen, bs, c₃, hbs, rfl, rfl⟩ := h
  have hstart := (expect_mark hcase rfl).trans (expect_mark hopen rfl)
  have hrest := itemsUntil_reads (branch_reads hterm) rfl hbs
  exact ⟨(hstart.trans hrest).cast (by simp [Term.yield, within, branchesYield_eq])
    (fun _ hv => hv), rfl⟩

/-! ## Functions -/

omit hterm in
/-- Bumping past the current token and answering a term reads the token. -/
theorem bump_pure_reads {s : Stream} {c c' : Cursor} {t u : Term} {tok : Token}
    (h : (do bump; pure u : Parse Term).Runs s c t c') (htok : s.tokens[c.pos]? = some tok)
    (he : tok.kind ≠ .eof) : u = t ∧ s.Reads c [tok.terminal] [] c' := by
  simp only [runs_bind, runs_pure] at h
  obtain ⟨_, c₁, hbump, rfl, rfl⟩ := h
  obtain ⟨tok', htok', -⟩ := (runs_bump (Stream.kindAt_of_token htok) he).1 hbump
  have heq := htok'.token
  rw [htok, Option.some.injEq] at heq
  subst heq
  exact ⟨rfl, htok'.reads⟩

omit hterm in
theorem literal_reads : ReadsHead literal := by
  intro s c t c' h
  simp only [literal, runs_bind, runs_current] at h
  obtain ⟨_, _, ⟨rfl, rfl⟩, h⟩ := h
  split at h
  · rename_i tok htok
    have hvalue : ∀ {l : Literal}, (do bump; pure (.literal l) : Parse Term).Runs s c t c' →
        tok.kind = l.kind → tok.literal = some l →
          s.Reads c t.yield t.inner c' ∧ t.target? = none := by
      intro l h hk hl
      have he : tok.kind ≠ .eof := by
        rw [hk]
        cases l <;> simp [Literal.kind]
      obtain ⟨rfl, hread⟩ := bump_pure_reads h htok he
      rw [Word.terminal_eq_value_iff.2 ⟨hk, hl⟩] at hread
      exact ⟨hread, rfl⟩
    split at h
    · rename_i hk
      obtain ⟨rfl, hread⟩ := bump_pure_reads h htok (by rw [hk]; decide)
      rw [Word.terminal_ident hk] at hread
      exact ⟨hread, rfl⟩
    · exact hvalue h ‹_› ‹_›
    · exact hvalue h ‹_› ‹_›
    · exact hvalue h ‹_› ‹_›
    · exact hvalue h ‹_› ‹_›
    · exact hvalue h ‹_› ‹_›
    · exact absurd h not_runs_reject
  · exact absurd h not_runs_reject

theorem spread_reads {r : Restrictions} {sort : Spread} {s : Stream} {c c' : Cursor} {t : Term}
    (h : (spread term r sort).Runs s c t c') (hk : s.kindAt c.pos = sort.mark) :
    s.Reads c t.yield t.inner c' ∧ t.target? = none := by
  simp only [spread, runs_bind, runs_pure] at h
  obtain ⟨_, c₁, hbump, operand, c₂, ht, rfl, rfl⟩ := h
  exact ⟨(bump_mark hbump hk sort.isSome_text?).trans (hterm r ht), rfl⟩

theorem generic_reads (r : Restrictions) : ReadsHead (generic term r) := by
  intro s c t c' h
  simp only [generic, runs_bind, runs_pure] at h
  obtain ⟨_, c₁, hopen, ps, c₂, hps, b, c₃, hb, rfl, rfl⟩ := h
  have hlist := (expect_mark hopen rfl).trans (paramsUntil_reads hterm rfl _ hps)
  exact ⟨(hlist.trans (body_reads hterm r hb)).cast (by simp [Term.yield, within])
    (fun _ hv => hv), rfl⟩

theorem typeList_reads :
    (typeList term).ReadsAs (fun ts => within .parenOpen .parenClose (termsYield ts)) id := by
  intro s c ts c' h
  simp only [typeList, runs_bind] at h
  obtain ⟨_, c₁, hopen, hts⟩ := h
  exact (expect_mark hopen rfl).trans (termsUntil_reads hterm rfl _ hts)

theorem plainFunction_reads {r : Restrictions} {s : Stream} {c c' : Cursor} {t : Term}
    (h : (plainFunction term r).Runs s c t c') (hk : s.kindAt c.pos = .parenOpen) :
    s.Reads c t.yield t.inner c' ∧ t.target? = none := by
  simp only [plainFunction, runs_bind, runs_pure] at h
  obtain ⟨_, c₁, hbump, ps, c₂, hps, b, c₃, hb, rfl, rfl⟩ := h
  have hlist := (bump_mark hbump hk rfl).trans (paramsUntil_reads hterm rfl _ hps)
  exact ⟨(hlist.trans (body_reads hterm r hb)).cast (by simp [Term.yield, resultYield, within])
    (fun _ hv => hv), rfl⟩

/-- The result is read from where the parameters and the arrow after them lead. -/
theorem withResult_reads {r : Restrictions} {close : Nat} {s : Stream} {c c' : Cursor} {t : Term}
    (h : (withResult term r close).Runs s c t c') (hk : s.kindAt c.pos = .parenOpen)
    (hclose : s.matchingClose? c.pos = some close) :
    s.Reads c t.yield t.inner c' ∧ t.target? = none := by
  simp only [withResult, runs_bind, runs_cursor, runs_seek, runs_kind, runs_note,
    runs_restore] at h
  obtain ⟨_, _, ⟨rfl, rfl⟩, _, c₁, hseek, result, c₂, hresult, _, _, ⟨rfl, rfl⟩, _, _, ⟨rfl, rfl⟩,
    _, _, rfl, _, _, rfl, h⟩ := h
  have hresult := hterm r hresult
  split at h
  · simp only [runs_bind, runs_restore, runs_pure] at h
    obtain ⟨_, c₃, hbump, ps, c₄, hps, _, c₅, harrow, _, _, rfl, b, c₆, hb, rfl, rfl⟩ := h
    have hlist := (bump_mark hbump hk rfl).trans (paramsUntil_reads hterm rfl _ hps)
    have hmark := (runs_expect (by decide)).1 harrow
    have hland := Stream.seek_past_list hclose (hlist.cast rfl nofun) (bracketed_paramsYield ps)
      hmark.1
    rw [hland] at hseek
    subst hseek
    have hrest := (expect_mark harrow rfl).trans (hresult.trans (body_reads hterm r hb))
    exact ⟨(hlist.trans hrest).cast (by simp [Term.yield, resultYield, within])
      (by simp [Term.inner]), rfl⟩
  · simp only [runs_bind, runs_restore, runs_pure] at h
    obtain ⟨ts, c₄, hts, _, c₅, harrow, _, _, rfl, rfl, rfl⟩ := h
    have hlist := typeList_reads hterm hts
    have hmark := (runs_expect (by decide)).1 harrow
    have hland := Stream.seek_past_list hclose (hlist.cast rfl nofun) (bracketed_termsYield ts)
      hmark.1
    rw [hland] at hseek
    subst hseek
    have hrest := (expect_mark harrow rfl).trans hresult
    exact ⟨(hlist.trans hrest).cast (by simp [Term.yield, within]) (by simp [Term.inner]), rfl⟩

theorem function_reads {r : Restrictions} {s : Stream} {c c' : Cursor} {t : Term}
    (h : (function term r).Runs s c t c') (hk : s.kindAt c.pos = .parenOpen) :
    s.Reads c t.yield t.inner c' ∧ t.target? = none := by
  simp only [function, runs_bind, runs_matchingClose?] at h
  obtain ⟨close, _, ⟨hclose, rfl⟩, h⟩ := h
  split at h
  · simp only [runs_bind] at h
    obtain ⟨_, _, -, h⟩ := h
    exact absurd h not_runs_reject
  · simp only [runs_bind, runs_kindAt] at h
    obtain ⟨_, _, ⟨rfl, rfl⟩, h⟩ := h
    split at h
    · exact plainFunction_reads hterm h hk
    · exact withResult_reads hterm h hk hclose
    · simp only [runs_bind] at h
      obtain ⟨_, _, -, h⟩ := h
      exact absurd h not_runs_reject

/-! ## Heads and chains -/

theorem head_reads (r : Restrictions) : ReadsHead (head term r) := by
  intro s c t c' h
  cases runs_head.1 h with
  | block hk hbump hts => exact ⟨(bump_mark hbump hk rfl).trans (blocked_reads hterm .block hts), rfl⟩
  | generic _ hrun => exact generic_reads hterm r hrun
  | binding _ hb => exact ⟨binding_reads hterm r hb, rfl⟩
  | loop _ hrun => exact loop_reads hterm hrun
  | signature _ hk hrun => exact signature_reads hterm hrun hk
  | record _ hk hrun => exact record_reads hterm hrun hk
  | trait _ hrun => exact trait_reads hterm hrun
  | function hk hrun => exact function_reads hterm hrun hk
  | cases _ hrun => exact caseOf_reads hterm hrun
  | spread _ hk hrun => exact spread_reads hterm hrun hk
  | literal _ hrun => exact literal_reads hrun

/-- A link reads what it adds to the yield of its target; where there is none, nothing is read. -/
theorem link_reads {r : Restrictions} {target : Term} {o : Option Term} {s : Stream}
    {c c' : Cursor} (h : (link term r target).Runs s c o c') :
    (∃ t ys, o = some t ∧ t.yield = target.yield ++ ys ∧ s.Reads c ys t.inner c' ∧
      t.target? = some target) ∨ o = none ∧ c = c' := by
  cases runs_link.1 h with
  | select hk hbump hname =>
    have hread := (bump_mark hbump hk rfl).trans (expectIdent_reads .selector hname)
    exact .inl ⟨_, _, rfl, rfl, hread, rfl⟩
  | apply sort hk hbump has =>
    have hclose : sort.closing.text?.isSome = true := by cases sort <;> rfl
    have hread := (bump_mark hbump hk (by cases sort <;> rfl)).trans (argsUntil_reads hterm hclose _ has)
    exact .inl ⟨_, _, rfl, rfl, hread, rfl⟩
  | applyNamed _ hfields =>
    obtain ⟨fs, hfs, hrun⟩ | ⟨hfs, -⟩ := runs_speculate hfields
    · obtain rfl := Option.some.inj hfs
      simp only [namedApplier, runs_bind] at hrun
      obtain ⟨_, c₂, hopen, hfields⟩ := hrun
      have hread := (expect_mark hopen rfl).trans (fieldsUntil_reads hterm rfl _ hfields)
      exact .inl ⟨_, _, rfl, rfl, hread, rfl⟩
    · cases hfs
  | left _ hfields =>
    obtain ⟨_, hfs, -⟩ | ⟨-, rfl⟩ := runs_speculate hfields
    · cases hfs
    · exact .inr ⟨rfl, rfl⟩
  | assign hk hbump ht =>
    exact .inl ⟨_, _, rfl, rfl, (bump_mark hbump hk rfl).trans (hterm r ht), rfl⟩
  | none => exact .inr ⟨rfl, rfl⟩

/-- A chain reads what its links add to the yield of the head. Its levels are counted from the
level `d` around the term, on which the head stands with the links folded so far. -/
theorem chainWithin_reads {r : Restrictions} (bound : Nat) {head t : Term} {s : Stream}
    {c c' : Cursor} (h : (chainWithin term r bound head).Runs s c t c') :
    ∃ ys, t.yield = head.yield ++ ys ∧ s.Reads c ys [] c' ∧
      ∀ d, c.depth = d + 1 + head.links → head.Fits (s.maxDepth - d) →
        t.Fits (s.maxDepth - d) := by
  induction bound generalizing head c c' with
  | zero =>
    obtain ⟨rfl, rfl⟩ := runs_pure.1 h
    exact ⟨[], by simp, .refl _, fun _ _ hf => hf⟩
  | succ bound ih =>
    simp only [chainWithin, runs_bind, runs_kind] at h
    obtain ⟨_, _, ⟨rfl, rfl⟩, h⟩ := h
    split at h
    · simp only [runs_bind, runs_descend] at h
      obtain ⟨_, _, ⟨hlt, rfl⟩, o, c₁, hlink, h⟩ := h
      rcases link_reads hterm hlink with ⟨longer, ys, rfl, hyield, hread, htarget⟩ | ⟨rfl, rfl⟩
      · simp only [runs_bind, runs_ascend, runs_pure] at h
        obtain ⟨whole, c₂, hwhole, _, _, rfl, rfl, rfl⟩ := h
        obtain ⟨zs, hyields, hreads, hfits⟩ := ih hwhole
        have hdepth : c₁.depth = c.depth + 1 := hread.depth_eq
        refine ⟨ys ++ zs, by rw [hyields, hyield, List.append_assoc],
          ⟨hread.row.append hreads.row, ?_, fun _ hmem => absurd hmem List.not_mem_nil⟩,
          fun d hd hf => hfits d ?_ ?_⟩
        · show c₂.depth - 1 = c.depth
          rw [hreads.depth_eq, hdepth, Nat.add_sub_cancel]
        · rw [hdepth, hd, Term.links_of_target htarget]
          omega
        · refine .link htarget hf hread.fits ?_
          show head.links + 2 + (s.maxDepth - (c.depth + 1)) ≤ s.maxDepth - d
          omega
      · simp only [runs_bind, runs_ascend, runs_pure] at h
        obtain ⟨_, _, rfl, rfl, rfl⟩ := h
        exact ⟨[], by simp, .refl _, fun _ _ hf => hf⟩
    · obtain ⟨rfl, rfl⟩ := runs_pure.1 h
      exact ⟨[], by simp, .refl _, fun _ _ hf => hf⟩

/-! ## Terms and programs -/

/-- A head and its chain make up a term that fits in the levels left around it. -/
theorem termOf_reads : ReadsTerms (termOf term) := by
  intro r s c t c' h
  simp only [termOf, chain, runs_bind, runs_descend, runs_remaining, runs_ascend, runs_pure] at h
  obtain ⟨_, _, ⟨hlt, rfl⟩, first, c₁, hfirst, whole, c₂, ⟨_, _, ⟨rfl, rfl⟩, hchain⟩, _, _, rfl,
    rfl, rfl⟩ := h
  obtain ⟨hread, htarget⟩ := head_reads hterm r hfirst
  obtain ⟨ys, hyield, hreads, hfits⟩ := chainWithin_reads hterm _ hchain
  have hdepth : c₁.depth = c.depth + 1 := hread.depth_eq
  have hfirst : first.Fits (s.maxDepth - c.depth) := by
    refine .head htarget hread.fits ?_
    show s.maxDepth - (c.depth + 1) < s.maxDepth - c.depth
    omega
  refine ⟨by rw [hyield]; exact hread.row.append hreads.row, ?_, fun u hu => ?_⟩
  · show c₂.depth - 1 = c.depth
    rw [hreads.depth_eq, hdepth, Nat.add_sub_cancel]
  · rw [List.mem_singleton] at hu
    subst hu
    exact hfits c.depth (by rw [hdepth, Term.links_of_head htarget]) hfirst

end

theorem termWithin_reads (levels : Nat) : ReadsTerms (termWithin levels) := by
  induction levels with
  | zero => intro r s c t c' h; exact absurd h not_runs_reject
  | succ levels ih => exact termOf_reads ih

/-- The parser of terms reads terms. -/
theorem term_reads : ReadsTerms term := by
  intro r s c t c' h
  exact termWithin_reads (s.remaining c.pos) r h

theorem topTermsWithin_reads (bound : Nat) :
    (topTermsWithin bound).ReadsAs termsYield id := by
  induction bound with
  | zero =>
    intro s c ts c' h
    obtain ⟨rfl, rfl⟩ := runs_pure.1 h
    exact .refl _
  | succ bound ih =>
    intro s c ts c' h
    simp only [topTermsWithin, atEnd, runs_bind, runs_at?] at h
    obtain ⟨_, _, ⟨rfl, rfl⟩, h⟩ := h
    split at h
    · obtain ⟨rfl, rfl⟩ := runs_pure.1 h
      exact .refl _
    · simp only [runs_bind, runs_pure] at h
      obtain ⟨t, c₁, ht, others, c₂, hothers, rfl, rfl⟩ := h
      exact (term_reads .free ht).trans (ih hothers)

/-- The parser of programs reads the yield of the program and stops at the end of the input. -/
theorem program_reads {s : Stream} {c c' : Cursor} {p : Program}
    (h : program.Runs s c p c') :
    s.Reads c p.yield p.terms c' ∧ ∃ t, s.tokens[c'.pos]? = some t ∧ t.kind = .eof := by
  simp only [program, runs_bind, runs_remaining, runs_expect_eof, runs_pure] at h
  obtain ⟨_, _, ⟨rfl, rfl⟩, ts, c₁, hts, t, _, ⟨ht, hk, rfl⟩, rfl, rfl⟩ := h
  exact ⟨topTermsWithin_reads _ hts, t, ht, hk⟩

end Grammar

end TermLang
