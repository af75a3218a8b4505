import TermLang.Proofs.WindowTerms

/-!
# Laws of the runs of terms

What a run of a loop, of a function, of a chain or of a whole term consists of, with the parser of terms
itself for the terms inside. The limits on how many terms may be open inside one another and on the
number of links are gone here (`runs_term`, `runs_chain`): they are never reached.
-/

namespace TermLang.Grammar

open Parse
open Terminal (within)

variable {s : Stream} {c x : Cursor} {r : Restrictions} {t : Term}

theorem lt_of_term (h : (term r).Runs s c t x) : c.pos < x.pos := by
  have hlen := (term_reads r h).row.stop_eq
  have := List.length_pos_iff.2 t.yield_ne_nil
  omega

theorem lt_of_body {b : Body} (h : (body term r).Runs s c b x) : c.pos + 1 < x.pos := by
  have hlen := (body_reads term_reads r h).row.stop_eq
  cases b with
  | block ts =>
    simp only [Body.yield, within, List.length_cons] at hlen
    omega
  | single t =>
    have := List.length_pos_iff.2 t.yield_ne_nil
    simp only [Body.yield, List.length_cons] at hlen
    omega

/-! ## Loops -/

/-- A loop head is its first reading if the body follows; or what a closing named application of it was
applied to; or it is read again. -/
theorem runs_loopHead {y : Cursor} :
    (loopHead term).Runs s c t y ↔ ∃ first u, (term .free).Runs s c first u ∧
      (s.kindAt u.pos = .braceOpen ∧ t = first ∧ y = u ∨
      s.kindAt u.pos ≠ .braceOpen ∧ (∃ fields i, first = .applyNamed t fields ∧
        s.Row c.pos t.yield i ∧ s.Row i (within .braceOpen .braceClose (fieldsYield fields)) u.pos ∧
        y = { u with pos := i }) ∨
      s.kindAt u.pos ≠ .braceOpen ∧ (∀ target fields, first ≠ .applyNamed target fields) ∧
        (term .beforeBody).Runs s c t y) := by
  simp only [loopHead, runs_bind, runs_cursor, runs_at?]
  constructor
  · rintro ⟨_, _, ⟨rfl, rfl⟩, first, u, hfirst, _, _, ⟨rfl, rfl⟩, hrun⟩
    refine ⟨first, u, hfirst, ?_⟩
    by_cases hk : s.kindAt u.pos = .braceOpen
    · rw [decide_eq_true hk, if_pos rfl, runs_pure] at hrun
      exact .inl ⟨hk, hrun.1.symm, hrun.2.symm⟩
    · simp only [decide_eq_false hk, Bool.false_eq_true, if_false, runs_bind] at hrun
      obtain ⟨o, v, hopen, hrun⟩ := hrun
      refine .inr ?_
      split at hrun
      · obtain ⟨i, htarget, hfields, hopen', hlt⟩ := exists_opening (term_reads .free hfirst)
        obtain ⟨ho, rfl⟩ := hopen'.unique hopen
        rw [Option.some.injEq] at ho
        simp only [runs_bind, runs_note, runs_seek, runs_pure] at hrun
        obtain ⟨_, _, rfl, _, _, rfl, rfl, rfl⟩ := hrun
        refine .inl ⟨hk, _, i, rfl, htarget, hfields, ?_⟩
        rw [← ho, Nat.min_eq_left (Nat.le_of_lt hlt)]
      · rename_i hne
        simp only [runs_bind, runs_restore] at hrun
        obtain ⟨_, _, rfl, hrun⟩ := hrun
        refine .inr ⟨hk, fun target fields he => ?_, hrun⟩
        subst he
        obtain ⟨i, -, -, hopen', -⟩ := exists_opening (term_reads .free hfirst)
        exact hne _ _ i rfl (hopen.unique hopen').1
  · rintro ⟨first, u, hfirst, ⟨hk, rfl, rfl⟩ | ⟨hk, ⟨fields, i, rfl, htarget, -, rfl⟩⟩ | ⟨hk, hne, hrun⟩⟩
    · refine ⟨_, _, ⟨rfl, rfl⟩, _, _, hfirst, _, _, ⟨rfl, rfl⟩, ?_⟩
      rw [decide_eq_true hk, if_pos rfl]
      exact runs_pure.2 ⟨rfl, rfl⟩
    · obtain ⟨j, htarget', -, hopen, hlt⟩ := exists_opening (term_reads .free hfirst)
      have hi := htarget.stop_eq
      have hj := htarget'.stop_eq
      obtain rfl : j = i := by omega
      refine ⟨_, _, ⟨rfl, rfl⟩, _, _, hfirst, _, _, ⟨rfl, rfl⟩, ?_⟩
      rw [decide_eq_false hk, if_neg Bool.false_ne_true]
      refine runs_bind.2 ⟨_, _, hopen, runs_bind.2 ⟨(), _, runs_note.2 rfl, ?_⟩⟩
      refine runs_bind.2 ⟨(), _, runs_seek.2 rfl, runs_pure.2 ⟨rfl, ?_⟩⟩
      rw [Nat.min_eq_left (Nat.le_of_lt hlt)]
    · obtain ⟨o, hopen⟩ := exists_runs_openingBefore? s u
      refine ⟨_, _, ⟨rfl, rfl⟩, _, _, hfirst, _, _, ⟨rfl, rfl⟩, ?_⟩
      rw [decide_eq_false hk, if_neg Bool.false_ne_true]
      refine runs_bind.2 ⟨o, u, hopen, ?_⟩
      split
      · exact absurd rfl (hne _ _)
      · exact runs_bind.2 ⟨(), c, runs_restore.2 rfl, hrun⟩

/-- A loop over a source, a loop for ever or a loop under a condition, by what stands behind `for`. -/
theorem runs_loop :
    (loop term).Runs s c t x ↔ ∃ mark y, (expect .kwFor .forRule).Runs s c mark y ∧
      ((s.kindAt y.pos = .ident ∧ s.kindAt (y.pos + 1) = .kwIn ∧ ∃ name source ts z u v,
        t = .forEach name source ts ∧ (expectIdent .forRule).Runs s y name z ∧ bump.Runs s z () u ∧
        (loopHead term).Runs s u source v ∧ (blocked term .forRule).Runs s v ts x) ∨
      (¬ (s.kindAt y.pos = .ident ∧ s.kindAt (y.pos + 1) = .kwIn) ∧ s.kindAt y.pos = .braceOpen ∧
        ∃ ts, t = .forever ts ∧ (blocked term .forRule).Runs s y ts x) ∨
      (¬ (s.kindAt y.pos = .ident ∧ s.kindAt (y.pos + 1) = .kwIn) ∧ s.kindAt y.pos ≠ .braceOpen ∧
        ∃ condition ts v, t = .forWhile condition ts ∧ (loopHead term).Runs s y condition v ∧
        (blocked term .forRule).Runs s v ts x)) := by
  simp only [loop, runs_bind, runs_at?, runs_nthKind]
  constructor
  · rintro ⟨mark, y, hfor, _, _, ⟨rfl, rfl⟩, _, _, ⟨rfl, rfl⟩, hrun⟩
    refine ⟨mark, y, hfor, ?_⟩
    split at hrun
    · rename_i hin
      simp only [Bool.and_eq_true, decide_eq_true_eq, beq_iff_eq] at hin
      simp only [runs_bind, runs_pure] at hrun
      obtain ⟨name, z, hname, _, u, hbump, source, v, hsource, ts, _, hts, rfl, rfl⟩ := hrun
      exact .inl ⟨hin.1, hin.2, name, source, ts, z, u, v, rfl, hname, hbump, hsource, hts⟩
    · rename_i hin
      simp only [Bool.and_eq_true, decide_eq_true_eq, beq_iff_eq] at hin
      simp only [runs_bind, runs_at?] at hrun
      obtain ⟨_, _, ⟨rfl, rfl⟩, hrun⟩ := hrun
      split at hrun
      · rename_i hk
        simp only [runs_bind, runs_pure] at hrun
        obtain ⟨ts, _, hts, rfl, rfl⟩ := hrun
        exact .inr (.inl ⟨hin, of_decide_eq_true hk, ts, rfl, hts⟩)
      · rename_i hk
        simp only [runs_bind, runs_pure] at hrun
        obtain ⟨condition, v, hcond, ts, _, hts, rfl, rfl⟩ := hrun
        exact .inr (.inr ⟨hin, of_decide_eq_false (Bool.not_eq_true _ ▸ hk), condition, ts, v, rfl, hcond, hts⟩)
  · rintro ⟨mark, y, hfor, hcases⟩
    refine ⟨mark, y, hfor, _, _, ⟨rfl, rfl⟩, _, _, ⟨rfl, rfl⟩, ?_⟩
    rcases hcases with ⟨hi, hin, name, source, ts, z, u, v, rfl, hname, hbump, hsource, hts⟩ |
      ⟨hin, hk, ts, rfl, hts⟩ | ⟨hin, hk, condition, ts, v, rfl, hcond, hts⟩
    · rw [if_pos (by simp [hi, hin])]
      simp only [runs_bind, runs_pure]
      exact ⟨name, z, hname, (), u, hbump, source, v, hsource, ts, x, hts, rfl, rfl⟩
    · rw [if_neg (by simpa using hin)]
      simp only [runs_bind, runs_at?]
      refine ⟨_, _, ⟨rfl, rfl⟩, ?_⟩
      rw [if_pos (decide_eq_true hk)]
      simp only [runs_bind, runs_pure]
      exact ⟨ts, x, hts, rfl, rfl⟩
    · rw [if_neg (by simpa using hin)]
      simp only [runs_bind, runs_at?]
      refine ⟨_, _, ⟨rfl, rfl⟩, ?_⟩
      rw [if_neg (by simpa using hk)]
      simp only [runs_bind, runs_pure]
      exact ⟨condition, v, hcond, ts, x, hts, rfl, rfl⟩

/-! ## Functions -/

/-- A list with a result is a function if `=>` follows the result and function types are not preferred;
else it is a function type. The list closes at the given index and an arrow follows it. -/
theorem runs_withResult {close : Nat} (harrow : s.kindAt (close + 1) = .arrow) :
    (withResult term r close).Runs s c t x ↔
      ∃ result u, (term r).Runs s { c with pos := close + 2 } result u ∧
      ((r.preferFunType = false ∧ s.kindAt u.pos = .fatArrow ∧ ∃ y z v ps b mark,
        t = .function ps (some result) b ∧ bump.Runs s c () y ∧
        (paramsUntil term .parenClose .fun_).Runs s y ps z ∧ (expect .arrow .fun_).Runs s z mark v ∧
        (body term r).Runs s u b x) ∨
      (¬ (r.preferFunType = false ∧ s.kindAt u.pos = .fatArrow) ∧ ∃ z v ts mark,
        t = .funType ts result ∧ (typeList term).Runs s c ts z ∧ (expect .arrow .funOf).Runs s z mark v ∧
        x = u)) := by
  have hsize : min (close + 2) s.tokens.size = close + 2 :=
    Nat.min_eq_left (Stream.lt_size_of_kindAt harrow (by decide))
  simp only [withResult, runs_bind, runs_cursor, runs_seek, runs_kind, runs_note, runs_restore, hsize]
  constructor
  · rintro ⟨_, _, ⟨rfl, rfl⟩, _, _, rfl, result, u, hresult, _, _, ⟨rfl, rfl⟩, _, _, ⟨rfl, rfl⟩,
      _, _, rfl, _, _, rfl, hrun⟩
    refine ⟨result, u, hresult, ?_⟩
    split at hrun
    · rename_i hfun
      simp only [Bool.and_eq_true, Bool.not_eq_true', beq_iff_eq] at hfun
      simp only [runs_bind, runs_restore, runs_pure] at hrun
      obtain ⟨_, y, hbump, ps, z, hps, mark, v, hmark, _, _, rfl, b, _, hb, rfl, rfl⟩ := hrun
      exact .inl ⟨hfun.1, hfun.2, y, z, v, ps, b, mark, rfl, hbump, hps, hmark, hb⟩
    · rename_i hfun
      simp only [Bool.and_eq_true, Bool.not_eq_true', beq_iff_eq] at hfun
      simp only [runs_bind, runs_restore, runs_pure] at hrun
      obtain ⟨ts, z, hts, mark, v, hmark, _, _, rfl, rfl, rfl⟩ := hrun
      exact .inr ⟨hfun, z, v, ts, mark, rfl, hts, hmark, rfl⟩
  · rintro ⟨result, u, hresult, hcases⟩
    refine ⟨c, c, ⟨rfl, rfl⟩, (), _, rfl, result, u, hresult, u, u, ⟨rfl, rfl⟩, _, u, ⟨rfl, rfl⟩,
      (), u, rfl, (), c, rfl, ?_⟩
    rcases hcases with ⟨hr, hk, y, z, v, ps, b, mark, rfl, hbump, hps, hmark, hb⟩ |
      ⟨hfun, z, v, ts, mark, rfl, hts, hmark, rfl⟩
    · rw [if_pos (by rw [hr, hk]; rfl)]
      simp only [runs_bind, runs_restore, runs_pure]
      exact ⟨(), y, hbump, ps, z, hps, mark, v, hmark, (), u, rfl, b, x, hb, rfl, rfl⟩
    · rw [if_neg (by simpa using hfun)]
      simp only [runs_bind, runs_restore, runs_pure]
      exact ⟨ts, z, hts, mark, v, hmark, (), x, rfl, rfl, rfl⟩

theorem runs_function : (function term r).Runs s c t x ↔ ∃ close, s.matchingClose? c.pos = some close ∧
    (s.kindAt (close + 1) = .fatArrow ∧ (plainFunction term r).Runs s c t x ∨
      s.kindAt (close + 1) = .arrow ∧ (withResult term r close).Runs s c t x) := by
  simp only [function, runs_bind, runs_matchingClose?]
  constructor
  · rintro ⟨_, _, ⟨hclose, rfl⟩, hrun⟩
    split at hrun
    · obtain ⟨_, _, -, hrun⟩ := runs_bind.1 hrun
      exact absurd hrun not_runs_reject
    · rename_i close
      simp only [runs_bind, runs_kindAt] at hrun
      obtain ⟨_, _, ⟨rfl, rfl⟩, hrun⟩ := hrun
      refine ⟨close, hclose, ?_⟩
      split at hrun
      · exact .inl ⟨‹_›, hrun⟩
      · exact .inr ⟨‹_›, hrun⟩
      · obtain ⟨_, _, -, hrun⟩ := runs_bind.1 hrun
        exact absurd hrun not_runs_reject
  · rintro ⟨close, hclose, ⟨hk, hrun⟩ | ⟨hk, hrun⟩⟩
    · refine ⟨_, _, ⟨hclose, rfl⟩, runs_bind.2 ⟨_, _, runs_kindAt.2 ⟨hk, rfl⟩, hrun⟩⟩
    · refine ⟨_, _, ⟨hclose, rfl⟩, runs_bind.2 ⟨_, _, runs_kindAt.2 ⟨hk, rfl⟩, hrun⟩⟩

/-! ## Chains and terms -/

/-- The links from a head on: there is none where the next token begins none, or only seems to; else the
first one is read a level deeper, and the others deeper still. -/
inductive Chains (s : Stream) (r : Restrictions) : Term → Cursor → Term → Cursor → Prop
  | done {head : Term} {c : Cursor} : continuesChain r (s.kindAt c.pos) = false → Chains s r head c head c
  | left {head : Term} {c : Cursor} : continuesChain r (s.kindAt c.pos) = true → c.depth < s.maxDepth →
      (link term r head).Runs s { c with depth := c.depth + 1 } none { c with depth := c.depth + 1 } →
        Chains s r head c head c
  | link {head longer whole : Term} {c y x : Cursor} : continuesChain r (s.kindAt c.pos) = true →
      c.depth < s.maxDepth →
      (link term r head).Runs s { c with depth := c.depth + 1 } (some longer) y →
        Chains s r longer y whole x → Chains s r head c whole { x with depth := x.depth - 1 }

theorem reads_of_link {target longer : Term} (h : (link term r target).Runs s c (some longer) x) :
    ∃ ys, s.Reads c ys longer.inner x ∧ longer.yield = target.yield ++ ys ∧ c.pos < x.pos := by
  rcases link_reads term_reads h with ⟨_, ys, ho, hyield, hread, htarget⟩ | ⟨ho, -⟩
  · cases ho
    have hlen := hread.row.stop_eq
    have hys := Term.length_target_lt htarget
    rw [hyield, List.length_append] at hys
    exact ⟨ys, hread, hyield, by omega⟩
  · cases ho

/-- A chain reads what its links add to the yield of the head. -/
theorem reads_of_chains {head : Term} (h : Chains s r head c t x) :
    ∃ ys, t.yield = head.yield ++ ys ∧ s.Reads c ys [] x := by
  induction h with
  | done => exact ⟨[], by simp, .refl _⟩
  | left => exact ⟨[], by simp, .refl _⟩
  | @link head longer whole c y x _ _ hlink _ ih =>
    obtain ⟨ys, hread, hyield, -⟩ := reads_of_link hlink
    obtain ⟨zs, hyield', hread'⟩ := ih
    refine ⟨ys ++ zs, by rw [hyield', hyield, List.append_assoc], hread.row.append hread'.row, ?_, nofun⟩
    show x.depth - 1 = c.depth
    rw [hread'.depth_eq, hread.depth_eq, Nat.add_sub_cancel]

theorem runs_chainWithin {bound : Nat} {head : Term} (hle : c.pos ≤ s.tokens.size)
    (hlt : s.tokens.size < c.pos + bound) :
    (chainWithin term r bound head).Runs s c t x ↔ Chains s r head c t x := by
  induction bound generalizing head c x with
  | zero => omega
  | succ bound ih =>
    -- the links behind the first one
    have rest : ∀ {longer : Term} {y z : Cursor},
        (link term r head).Runs s { c with depth := c.depth + 1 } (some longer) y →
          ((chainWithin term r bound longer).Runs s y t z ↔ Chains s r longer y t z) := by
      intro longer y z hlink
      obtain ⟨ys, hread, -, hpos⟩ := reads_of_link hlink
      exact ih (hread.row.stop_le hle) (by simp only at hpos; omega)
    simp only [chainWithin, runs_bind, runs_kind]
    constructor
    · rintro ⟨_, _, ⟨rfl, rfl⟩, hrun⟩
      by_cases hk : continuesChain r (s.kindAt c.pos) = true
      · rw [if_pos hk] at hrun
        simp only [runs_bind, runs_descend] at hrun
        obtain ⟨_, _, ⟨hdepth, rfl⟩, o, y, hlink, hrun⟩ := hrun
        cases o with
        | some longer =>
          simp only [runs_bind, runs_ascend, runs_pure] at hrun
          obtain ⟨whole, z, hchain, _, _, rfl, rfl, rfl⟩ := hrun
          exact .link hk hdepth hlink ((rest hlink).1 hchain)
        | none =>
          simp only [runs_bind, runs_ascend, runs_pure] at hrun
          obtain ⟨_, _, rfl, rfl, rfl⟩ := hrun
          rcases link_reads term_reads hlink with ⟨_, _, ho, -⟩ | ⟨-, rfl⟩
          · cases ho
          · exact .left hk hdepth hlink
      · rw [if_neg hk] at hrun
        obtain ⟨rfl, rfl⟩ := runs_pure.1 hrun
        exact .done (Bool.not_eq_true _ ▸ hk)
    · intro h
      refine ⟨_, _, ⟨rfl, rfl⟩, ?_⟩
      cases h with
      | done hk =>
        rw [if_neg (by rw [hk]; decide)]
        exact runs_pure.2 ⟨rfl, rfl⟩
      | left hk hdepth hlink =>
        rw [if_pos hk]
        simp only [runs_bind, runs_descend]
        refine ⟨(), _, ⟨hdepth, rfl⟩, none, _, hlink, ?_⟩
        simp only [runs_bind, runs_ascend, runs_pure]
        exact ⟨(), _, rfl, trivial, rfl⟩
      | link hk hdepth hlink hchain =>
        rw [if_pos hk]
        simp only [runs_bind, runs_descend]
        refine ⟨(), _, ⟨hdepth, rfl⟩, _, _, hlink, ?_⟩
        simp only [runs_bind, runs_ascend, runs_pure]
        exact ⟨_, _, (rest hlink).2 hchain, (), _, rfl, rfl, rfl⟩

theorem runs_chain {head : Term} (hle : c.pos ≤ s.tokens.size) :
    (chain term r head).Runs s c t x ↔ Chains s r head c t x := by
  rw [← runs_chainWithin hle (by unfold Stream.remaining; omega : _ < c.pos + s.remaining c.pos)]
  simp only [chain, runs_bind, runs_remaining]
  constructor
  · rintro ⟨_, _, ⟨rfl, rfl⟩, hrun⟩
    exact hrun
  · exact fun hrun => ⟨_, _, ⟨rfl, rfl⟩, hrun⟩

/-- A stream seen as it is, with some more levels open in one view than in the other. -/
def Window.self (s : Stream) (lift : Nat) : Window := ⟨s, s, 0, lift, s.tokens.size⟩

theorem sees_self {c c' : Cursor} {lift : Nat} (hpos : c.pos = c'.pos) (hdepth : c.depth = c'.depth + lift)
    (hle : c'.pos ≤ s.tokens.size) : (Window.self s lift).Sees .whole c'.pos c c' where
  maxDepth_eq := rfl
  pos_eq := hpos
  depth_eq := hdepth
  le_pos := Nat.le_refl _
  limit_le := Nat.le_refl _
  shows := ⟨hle, rfl, rfl, rfl⟩

/-- With as many levels open, two parsers that answer alike have the same result. -/
theorem result_eq_of_mimics {α : Type} {p p' : Parse α} {P : Cursor → Cursor → Prop}
    (h : p.Mimics (Window.self s 0) P c c p') : (p s c).result = (p' s c).result := by
  cases h with
  | ok ha hb => exact Eq.trans ha (Eq.symm hb)
  | error ha hb => exact Eq.trans ha (Eq.symm hb)
  | lost hlift => exact absurd hlift (Nat.lt_irrefl 0)

/-- They have the same runs. -/
theorem runs_iff_of_mimics {α : Type} {p p' : Parse α} {lo : Nat} {a : α}
    (h : p.Mimics (Window.self s 0) ((Window.self s 0).Sees .whole lo) c c p') :
    p.Runs s c a x ↔ p'.Runs s c a x := by
  have hresult := result_eq_of_mimics h
  cases h with
  | ok ha hb hc =>
    have hcursor : (p s c).cursor = (p' s c).cursor :=
      congrArg₂ Cursor.mk hc.pos_eq hc.depth_eq
    show _ = _ ∧ _ = _ ↔ _ = _ ∧ _ = _
    rw [hcursor, hresult]
  | error ha hb =>
    show _ = _ ∧ _ = _ ↔ _ = _ ∧ _ = _
    rw [show (p s c).result = _ from ha, show (p' s c).result = _ from hb]
    simp
  | lost hlift => exact absurd hlift (Nat.lt_irrefl 0)

/-- A term is a head and its links, one level deep. -/
theorem runs_term (hle : c.pos ≤ s.tokens.size) : (term r).Runs s c t x ↔ c.depth < s.maxDepth ∧
    ∃ first y z, (head term r).Runs s { c with depth := c.depth + 1 } first y ∧
      Chains s r first y t z ∧ x = { z with depth := z.depth - 1 } := by
  have hself : (Window.self s 0).Sees .whole c.pos c c := sees_self rfl rfl hle
  rw [runs_iff_of_mimics (mimics_term_termOf hself r)]
  simp only [termOf, runs_bind, runs_descend, runs_ascend, runs_pure]
  constructor
  · rintro ⟨_, _, ⟨hdepth, rfl⟩, first, y, hfirst, whole, z, hchain, _, _, rfl, rfl, rfl⟩
    have hy := (head_reads term_reads r hfirst).1.row.stop_le hle
    exact ⟨hdepth, first, y, z, hfirst, (runs_chain hy).1 hchain, rfl⟩
  · rintro ⟨hdepth, first, y, z, hfirst, hchain, rfl⟩
    have hy := (head_reads term_reads r hfirst).1.row.stop_le hle
    exact ⟨(), _, ⟨hdepth, rfl⟩, first, y, hfirst, t, z, (runs_chain hy).2 hchain, (), _, rfl, rfl, rfl⟩

end TermLang.Grammar
