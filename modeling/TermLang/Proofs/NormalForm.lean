import TermLang.Proofs.OpenTerms

/-!
# Normal form

What is read is in normal form: no link has an open term for a target, no annotation without a mark
holds a spread, no argument that is a term assigns to a bare identifier, and the annotation in front of
an equals sign has no assignment on its right spine. So each of these trees is read from one row of
tokens only, though the grammar leaves the choice.

`Term.Tidy` says so of a term and the parts it holds directly; `Term.Normal` of all terms down the tree.
Each rule keeps normal terms normal (`Gives`), by the law of each step; a term is normal because the
terms inside it are, which are read with more levels open.
-/

namespace TermLang

/-! ## Trees in normal form -/

/-- A spread in an annotation is the mark of the annotation. -/
def Anno.Tidy : Anno → Prop
  | .mk none type => ∀ sort operand, type ≠ .spread sort operand
  | .mk (some _) _ => True

/-- The annotation ends before any equals sign. -/
def Anno.BeforeEquals (a : Anno) : Prop := ∀ target value, ¬ a.type.Spine (.assign target value)

def Param.Tidy (p : Param) : Prop := ∀ a ∈ p.anno, a.Tidy

def Field.Tidy : Field → Prop
  | .given _ anno _ => ∀ a ∈ anno, a.Tidy ∧ a.BeforeEquals
  | .shorthand _ => True

/-- An assignment to a bare identifier is a named argument. -/
def Arg.Tidy : Arg → Prop
  | .named f => f.Tidy
  | .positional t => ∀ name value, t ≠ .assign (.ident name) value

def Binding.Tidy : Binding → Prop
  | .init _ anno _ => ∀ a ∈ anno, a.Tidy ∧ a.BeforeEquals
  | .bare _ => True

namespace Term

/-- The target of a link is not open, and the parts that are no terms are tidy. -/
def Tidy : Term → Prop
  | .generic params _ | .signature _ _ params | .function params _ _ => ∀ p ∈ params, p.Tidy
  | .binding b => b.Tidy
  | .record _ _ fields => ∀ f ∈ fields, f.Tidy
  | .trait _ bindings => ∀ b ∈ bindings, b.Tidy
  | .select target _ | .assign target _ => target.last? = none
  | .apply _ target args => target.last? = none ∧ ∀ a ∈ args, a.Tidy
  | .applyNamed target fields => target.last? = none ∧ ∀ f ∈ fields, f.Tidy
  | _ => True

/-- The term and all terms in it are tidy. -/
inductive Normal : Term → Prop
  | mk {t : Term} : t.Tidy → (∀ u ∈ t.parts, u.Normal) → t.Normal

theorem Normal.tidy {t : Term} (h : t.Normal) : t.Tidy := by
  cases h with
  | mk ht _ => exact ht

theorem Normal.of_mem_parts {t u : Term} (h : t.Normal) (hu : u ∈ t.parts) : u.Normal := by
  cases h with
  | mk _ hparts => exact hparts u hu

end Term

/-- All terms of the program are in normal form. -/
def Program.Normal (p : Program) : Prop := ∀ t ∈ p.terms, t.Normal

/-- Something tidy with terms in normal form for parts. -/
def Kept {α : Type} (tidy : α → Prop) (parts : α → List Term) (a : α) : Prop :=
  tidy a ∧ ∀ u ∈ parts a, u.Normal

/-! ## What parsers give -/

namespace Parse

variable {α β : Type} {s : Stream} {d : Nat} {P : α → Prop} {Q : β → Prop} {p : Parse α}

/-- With so many levels open, whatever the parser gives has a property, and as many are open after it. -/
def Gives (p : Parse α) (s : Stream) (d : Nat) (P : α → Prop) : Prop :=
  ∀ ⦃c : Cursor⦄ ⦃a : α⦄ ⦃x : Cursor⦄, d ≤ c.depth → p.Runs s c a x → P a ∧ d ≤ x.depth

theorem Gives.weaken {P' : α → Prop} (h : p.Gives s d P) (hP : ∀ a, P a → P' a) : p.Gives s d P' := by
  intro c a x hd hrun
  obtain ⟨ha, hx⟩ := h hd hrun
  exact ⟨hP a ha, hx⟩

theorem gives_pure {a : α} (h : P a) : (pure a : Parse α).Gives s d P := by
  intro c b x hd hrun
  obtain ⟨rfl, rfl⟩ := runs_pure.1 hrun
  exact ⟨h, hd⟩

theorem Gives.bind {f : α → Parse β} (hp : p.Gives s d P) (hf : ∀ a, P a → (f a).Gives s d Q) :
    (p >>= f).Gives s d Q := by
  intro c b x hd hrun
  obtain ⟨a, y, ha, hb⟩ := runs_bind.1 hrun
  obtain ⟨hP, hy⟩ := hp hd ha
  exact hf a hP hy hb

theorem gives_reject {rule : Rule} {expected : List Kind} : (reject rule expected : Parse α).Gives s d P :=
  fun _ _ _ _ hrun => absurd hrun not_runs_reject

theorem gives_cursor : cursor.Gives s d (fun c => d ≤ c.depth) := by
  intro c a x hd hrun
  obtain ⟨rfl, rfl⟩ := runs_cursor.1 hrun
  exact ⟨hd, hd⟩

theorem gives_kind : kind.Gives s d (fun _ => True) := by
  intro c a x hd hrun
  obtain ⟨-, rfl⟩ := runs_kind.1 hrun
  exact ⟨trivial, hd⟩

theorem gives_kindAt {i : Nat} : (kindAt i).Gives s d (fun _ => True) := by
  intro c a x hd hrun
  obtain ⟨-, rfl⟩ := runs_kindAt.1 hrun
  exact ⟨trivial, hd⟩

theorem gives_nthKind {n : Nat} : (nthKind n).Gives s d (fun _ => True) := by
  intro c a x hd hrun
  obtain ⟨-, rfl⟩ := runs_nthKind.1 hrun
  exact ⟨trivial, hd⟩

theorem gives_at? {k : Kind} : (at? k).Gives s d (fun _ => True) := by
  intro c a x hd hrun
  obtain ⟨-, rfl⟩ := runs_at?.1 hrun
  exact ⟨trivial, hd⟩

theorem gives_matchingClose? : matchingClose?.Gives s d (fun _ => True) := by
  intro c a x hd hrun
  obtain ⟨-, rfl⟩ := runs_matchingClose?.1 hrun
  exact ⟨trivial, hd⟩

theorem gives_openingBefore? : openingBefore?.Gives s d (fun _ => True) := by
  intro c a x hd hrun
  obtain ⟨-, rfl⟩ := hrun
  refine ⟨trivial, ?_⟩
  unfold openingBefore?
  split <;> exact hd

theorem gives_bump : bump.Gives s d (fun _ => True) := by
  intro c a x hd hrun
  obtain ⟨-, rfl⟩ := hrun
  refine ⟨trivial, ?_⟩
  unfold bump
  dsimp only
  split <;> exact hd

theorem gives_skip {k : Kind} : (skip k).Gives s d (fun _ => True) := by
  refine gives_at?.bind fun b _ => ?_
  cases b
  · exact gives_pure trivial
  · exact gives_bump.bind fun _ _ => gives_pure trivial

theorem gives_current : current.Gives s d (fun _ => True) := by
  intro c a x hd hrun
  obtain ⟨-, rfl⟩ := runs_current.1 hrun
  exact ⟨trivial, hd⟩

theorem gives_expect {k : Kind} {rule : Rule} : (expect k rule).Gives s d (fun _ => True) := by
  refine gives_current.bind fun t _ => ?_
  cases t with
  | none => exact gives_reject
  | some t =>
    by_cases hk : t.kind = k
    · simp only [if_pos hk]
      exact gives_bump.bind fun _ _ => gives_pure trivial
    · simp only [if_neg hk]
      exact gives_reject

theorem gives_expectIdent {rule : Rule} : (expectIdent rule).Gives s d (fun _ => True) :=
  gives_expect.bind fun _ _ => gives_pure trivial

theorem gives_seek {i : Nat} : (seek i).Gives s d (fun _ => True) := by
  intro c a x hd hrun
  obtain rfl := runs_seek.1 hrun
  exact ⟨trivial, hd⟩

theorem gives_restore {saved : Cursor} (h : d ≤ saved.depth) :
    (restore saved).Gives s d (fun _ => True) := by
  intro c a x _ hrun
  obtain rfl := runs_restore.1 hrun
  exact ⟨trivial, h⟩

theorem gives_note {n : Note} : (note n).Gives s d (fun _ => True) := by
  intro c a x hd hrun
  obtain rfl := runs_note.1 hrun
  exact ⟨trivial, hd⟩

theorem gives_remaining : remaining.Gives s d (fun _ => True) := by
  intro c a x hd hrun
  obtain ⟨-, rfl⟩ := runs_remaining.1 hrun
  exact ⟨trivial, hd⟩

theorem Gives.speculate (hp : p.Gives s d P) : (speculate p).Gives s d (fun o => ∀ a ∈ o, P a) := by
  intro c o x hd hrun
  obtain ⟨a, rfl, ha⟩ | ⟨rfl, rfl⟩ := runs_speculate hrun
  · obtain ⟨hP, hx⟩ := hp hd ha
    exact ⟨fun b hb => Option.some.inj hb ▸ hP, hx⟩
  · exact ⟨nofun, hd⟩

theorem Gives.itemsUntil {close : Kind} {begins : Kind → Bool} {rule : Rule} {expected : List Kind}
    (hp : p.Gives s d P) :
    (itemsUntil close begins rule expected p).Gives s d (fun as => ∀ a ∈ as, P a) := by
  have hwithin : ∀ bound,
      (itemsWithin close begins rule expected p bound).Gives s d (fun as => ∀ a ∈ as, P a) := by
    intro bound
    induction bound with
    | zero => exact gives_reject
    | succ bound ih =>
      refine gives_skip.bind fun b _ => ?_
      cases b with
      | true => exact gives_pure nofun
      | false =>
        refine gives_kind.bind fun k _ => ?_
        by_cases hk : begins k = true
        · simp only [if_pos hk]
          exact hp.bind fun a ha => ih.bind fun as has => gives_pure (List.forall_mem_cons.2 ⟨ha, has⟩)
        · simp only [if_neg hk]
          exact gives_reject
  exact gives_remaining.bind fun bound _ => hwithin bound

end Parse

namespace Grammar

open Parse

/-- With so many levels open, terms are read in normal form. -/
def NormalTerms (s : Stream) (d : Nat) : Prop := ∀ r, (term r).Gives s d Term.Normal

variable {s : Stream} {d : Nat}

/-! ## First tokens -/

/-- A spread begins with its mark. -/
theorem kindAt_of_spread {r : Restrictions} {c x : Cursor} {sort : Spread} {operand : Term}
    (h : (term r).Runs s c (.spread sort operand) x) : s.kindAt c.pos = sort.mark := by
  have hrow := (term_reads r h).row
  rw [Term.yield] at hrow
  exact hrow.kindAt

/-- An assignment to a bare identifier begins with the identifier and an equals sign. -/
theorem kindAt_of_assign {r : Restrictions} {c x : Cursor} {name : String} {value : Term}
    (h : (term r).Runs s c (.assign (.ident name) value) x) :
    s.kindAt c.pos = .ident ∧ s.kindAt (c.pos + 1) = .equals := by
  have hrow := (term_reads r h).row
  simp only [Term.yield, List.singleton_append] at hrow
  obtain ⟨t, -, -, hrest⟩ := hrow.takes 0
  exact ⟨hrow.kindAt, hrest.kindAt⟩

section

variable (hn : NormalTerms s d)

include hn

/-! ## Annotations, parameters, fields and arguments -/

theorem gives_termsUntil {close : Kind} {rule : Rule} :
    (termsUntil term close rule).Gives s d (fun ts => ∀ t ∈ ts, t.Normal) :=
  (hn .free).itemsUntil

theorem gives_blocked {rule : Rule} : (blocked term rule).Gives s d (fun ts => ∀ t ∈ ts, t.Normal) :=
  gives_expect.bind fun _ _ => gives_termsUntil hn

/-- Behind the colon stands a mark or no spread. -/
theorem gives_anno (r : Restrictions) : (anno term r).Gives s d (Kept Anno.Tidy Anno.parts) := by
  intro c a x hd hrun
  obtain ⟨mark, y, z, type, hcolon, ht, hcases⟩ := runs_anno.1 hrun
  have hy : d ≤ y.depth := (gives_expect hd hcolon).2
  obtain ⟨sort, rfl, -, hbump⟩ | ⟨rfl, hne, rfl⟩ := hcases
  · obtain ⟨hnormal, hx⟩ := hn r (gives_bump hy hbump).2 ht
    exact ⟨⟨trivial, by simpa [Anno.parts, Anno.type] using hnormal⟩, hx⟩
  · obtain ⟨hnormal, hx⟩ := hn r hy ht
    refine ⟨⟨?_, by simpa [Anno.parts, Anno.type] using hnormal⟩, hx⟩
    rintro sort operand rfl
    exact hne sort (kindAt_of_spread ht)

theorem gives_anno? (r : Restrictions) :
    (anno? term r).Gives s d (fun a => ∀ b ∈ a, Kept Anno.Tidy Anno.parts b) := by
  refine gives_at?.bind fun b _ => ?_
  cases b with
  | true => exact (gives_anno hn r).bind fun a ha => gives_pure fun b hb => Option.some.inj hb ▸ ha
  | false => exact gives_pure nofun

theorem gives_param : (param term).Gives s d (Kept Param.Tidy Param.parts) := by
  refine gives_expectIdent.bind fun name _ => (gives_anno? hn .free).bind fun a ha => gives_pure ?_
  cases a with
  | none => exact ⟨nofun, nofun⟩
  | some a => exact ⟨fun b hb => (ha b hb).1, (ha a rfl).2⟩

theorem gives_paramsUntil {close : Kind} {rule : Rule} :
    (paramsUntil term close rule).Gives s d (fun ps => ∀ p ∈ ps, Kept Param.Tidy Param.parts p) :=
  (gives_param hn).itemsUntil

omit hn in
theorem gives_shorthand : shorthand.Gives s d (Kept Field.Tidy Field.parts) :=
  gives_expectIdent.bind fun _ _ => gives_pure ⟨trivial, nofun⟩

theorem gives_given : (given term).Gives s d (Kept Field.Tidy Field.parts) := by
  refine gives_expectIdent.bind fun _ _ => gives_expect.bind fun _ _ => (hn .free).bind fun v hv => ?_
  exact gives_pure ⟨nofun, List.forall_mem_singleton.2 hv⟩

/-- The annotation before an equals sign. -/
theorem gives_anno_beforeAssign : (anno term .beforeAssign).Gives s d
    (fun a => Kept Anno.Tidy Anno.parts a ∧ a.BeforeEquals) := by
  intro c a x hd hrun
  obtain ⟨hkept, hx⟩ := gives_anno hn .beforeAssign hd hrun
  refine ⟨⟨hkept, fun target value hspine => ?_⟩, hx⟩
  obtain ⟨mark, y, z, type, -, ht, ⟨sort, rfl, -⟩ | ⟨rfl, -⟩⟩ := runs_anno.1 hrun
  · exact not_assign_of_spine rfl hspine ht target value rfl
  · exact not_assign_of_spine rfl hspine ht target value rfl

theorem gives_annotatedField? :
    (annotatedField? term).Gives s d (fun f => ∀ g ∈ f, Kept Field.Tidy Field.parts g) := by
  have hname : (annotatedName term).Gives s d
      (fun a => Kept Anno.Tidy Anno.parts a.2 ∧ a.2.BeforeEquals) :=
    gives_expectIdent.bind fun _ _ => (gives_anno_beforeAssign hn).bind fun _ ha =>
      gives_expect.bind fun _ _ => gives_pure ha
  refine hname.speculate.bind fun o ho => ?_
  cases o with
  | none => exact gives_pure nofun
  | some a =>
    obtain ⟨⟨htidy, hparts⟩, hbefore⟩ := ho a rfl
    refine (hn .free).bind fun v hv => gives_pure fun g hg => ?_
    obtain rfl := Option.some.inj hg
    refine ⟨fun b hb => Option.some.inj hb ▸ ⟨htidy, hbefore⟩, fun u hu => ?_⟩
    obtain hu | hu := List.mem_append.1 hu
    · exact hparts u hu
    · exact List.mem_singleton.1 hu ▸ hv

theorem gives_field : (field term).Gives s d (Kept Field.Tidy Field.parts) := by
  refine gives_nthKind.bind fun k _ => ?_
  split
  · exact gives_given hn
  · refine (gives_annotatedField? hn).bind fun f hf => ?_
    cases f with
    | some f => exact gives_pure (hf f rfl)
    | none => exact gives_shorthand
  · exact gives_shorthand

theorem gives_fieldsUntil {close : Kind} {rule : Rule} :
    (fieldsUntil term close rule).Gives s d (fun fs => ∀ f ∈ fs, Kept Field.Tidy Field.parts f) :=
  (gives_field hn).itemsUntil

/-- An argument that is a term does not begin with an identifier and an equals sign. -/
theorem gives_arg : (arg term).Gives s d (Kept Arg.Tidy Arg.parts) := by
  intro c a x hd hrun
  have named : ∀ {f : Field}, Kept Field.Tidy Field.parts f → Kept Arg.Tidy Arg.parts (.named f) :=
    fun h => h
  have term : ∀ {c'}, c' = c → ¬ (s.kindAt c.pos = .ident ∧ s.kindAt (c.pos + 1) = .equals) →
      (positional Grammar.term).Runs s c' a x → Kept Arg.Tidy Arg.parts a ∧ d ≤ x.depth := by
    rintro _ rfl hk hrun
    simp only [positional, runs_bind, runs_pure] at hrun
    obtain ⟨t, _, ht, rfl, rfl⟩ := hrun
    obtain ⟨hnormal, hx⟩ := hn .free hd ht
    refine ⟨⟨?_, List.forall_mem_singleton.2 hnormal⟩, hx⟩
    rintro name value rfl
    exact hk (kindAt_of_assign ht)
  simp only [arg, runs_bind, runs_at?] at hrun
  obtain ⟨b, _, ⟨hb, rfl⟩, hrun⟩ := hrun
  cases b with
  | false => exact term rfl (fun hk => of_decide_eq_false hb hk.1) hrun
  | true =>
    simp only [if_true, runs_bind, runs_nthKind] at hrun
    obtain ⟨k, _, ⟨hk, rfl⟩, hrun⟩ := hrun
    split at hrun
    · exact (gives_given hn).bind (fun f hf => gives_pure (named hf)) hd hrun
    · obtain ⟨f, y, hf, hrun⟩ := runs_bind.1 hrun
      obtain ⟨hfields, hy⟩ := gives_annotatedField? hn hd hf
      cases f with
      | some f => exact gives_pure (named (hfields f rfl)) hy hrun
      | none =>
        have hread := annotatedField?_reads term_reads hf
        have hy : y = c := congrArg₂ Cursor.mk hread.row.stop_eq hread.depth_eq
        exact term hy (fun h => absurd (hk.symm.trans h.2) (by decide)) hrun
    · rename_i hne _
      exact term rfl (fun h => hne (hk.symm.trans h.2)) hrun

theorem gives_argsUntil {close : Kind} {rule : Rule} :
    (argsUntil term close rule).Gives s d (fun as => ∀ a ∈ as, Kept Arg.Tidy Arg.parts a) :=
  (gives_arg hn).itemsUntil

/-! ## Bodies, bindings and loops -/

theorem gives_body (r : Restrictions) : (body term r).Gives s d (fun b => ∀ u ∈ b.parts, u.Normal) := by
  refine gives_expect.bind fun _ _ => gives_at?.bind fun b _ => ?_
  cases b with
  | true => exact (gives_blocked hn).bind fun ts hts => gives_pure hts
  | false => exact (hn r).bind fun t ht => gives_pure (List.forall_mem_singleton.2 ht)

theorem gives_binding (r : Restrictions) : (binding term r).Gives s d (Kept Binding.Tidy Binding.parts) := by
  refine gives_expect.bind fun _ _ => gives_expectIdent.bind fun name _ => gives_kind.bind fun k _ => ?_
  split
  · have htype : (anno? term .beforeAssign).Gives s d
        (fun a => ∀ b ∈ a, Kept Anno.Tidy Anno.parts b ∧ b.BeforeEquals) := by
      refine gives_at?.bind fun b _ => ?_
      cases b with
      | true =>
        exact (gives_anno_beforeAssign hn).bind fun a ha => gives_pure fun b hb => Option.some.inj hb ▸ ha
      | false => exact gives_pure nofun
    refine htype.bind fun a ha => gives_expect.bind fun _ _ => (hn r).bind fun v hv => gives_pure ?_
    refine ⟨fun b hb => ⟨(ha b hb).1.1, (ha b hb).2⟩, fun u hu => ?_⟩
    cases a with
    | none => exact List.mem_singleton.1 hu ▸ hv
    | some a =>
      obtain hu | hu := List.mem_append.1 hu
      · exact (ha a rfl).1.2 u hu
      · exact List.mem_singleton.1 hu ▸ hv
  · exact gives_pure ⟨trivial, nofun⟩

theorem gives_loopHead : (loopHead term).Gives s d Term.Normal := by
  refine gives_cursor.bind fun start hstart => (hn .free).bind fun first hfirst => gives_at?.bind fun b _ => ?_
  cases b with
  | true => exact gives_pure hfirst
  | false =>
    refine gives_openingBefore?.bind fun opening _ => ?_
    split
    · refine gives_note.bind fun _ _ => gives_seek.bind fun _ _ => gives_pure ?_
      exact hfirst.of_mem_parts (List.mem_cons_self)
    · exact (gives_restore hstart).bind fun _ _ => hn .beforeBody

/-- Tidy heads with parts in normal form. -/
abbrev NormalHead : Term → Prop := Kept Term.Tidy Term.inner

theorem gives_loop : (loop term).Gives s d NormalHead := by
  refine gives_expect.bind fun _ _ => gives_at?.bind fun b _ => gives_nthKind.bind fun k _ => ?_
  split
  · refine gives_expectIdent.bind fun name _ => gives_bump.bind fun _ _ => (gives_loopHead hn).bind
      fun source hsource => (gives_blocked hn).bind fun ts hts => gives_pure ?_
    exact ⟨trivial, List.forall_mem_cons.2 ⟨hsource, hts⟩⟩
  · refine gives_at?.bind fun b _ => ?_
    cases b with
    | true => exact (gives_blocked hn).bind fun ts hts => gives_pure ⟨trivial, hts⟩
    | false =>
      refine (gives_loopHead hn).bind fun condition hcond => (gives_blocked hn).bind fun ts hts => ?_
      exact gives_pure ⟨trivial, List.forall_mem_cons.2 ⟨hcond, hts⟩⟩

/-! ## Declarations and case distinctions -/

omit hn in
theorem gives_declName {rule : Rule} : (declName rule).Gives s d (fun _ => True) := by
  have hbrace : ∀ {α : Type} {p : Parse α} {expected : List Kind}, p.Gives s d (fun _ => True) →
      (skip .braceOpen >>= fun b => if b = true then p else reject rule expected).Gives s d
        (fun _ => True) := by
    intro α p expected hp
    refine gives_skip.bind fun b _ => ?_
    cases b with
    | true => exact hp
    | false => exact gives_reject
  refine gives_current.bind fun t _ => ?_
  cases t with
  | none => exact gives_reject
  | some t =>
    by_cases hk : t.kind = .ident
    · simp only [if_pos hk]
      exact gives_bump.bind fun _ _ => hbrace (gives_pure trivial)
    · simp only [if_neg hk]
      exact hbrace (gives_pure trivial)

omit hn in
/-- The parts of a list are those of its items. -/
theorem forall_flatMap {α : Type} {tidy : α → Prop} {parts : α → List Term} {as : List α}
    (h : ∀ a ∈ as, Kept tidy parts a) : (∀ a ∈ as, tidy a) ∧ ∀ u ∈ as.flatMap parts, u.Normal := by
  refine ⟨fun a ha => (h a ha).1, fun u hu => ?_⟩
  obtain ⟨a, ha, hu⟩ := List.mem_flatMap.1 hu
  exact (h a ha).2 u hu

theorem gives_signature {sort : Signature} : (signature term sort).Gives s d NormalHead :=
  gives_bump.bind fun _ _ => gives_declName.bind fun _ _ => (gives_paramsUntil hn).bind fun _ hps =>
    gives_pure (forall_flatMap hps)

theorem gives_record {sort : Record} : (record term sort).Gives s d NormalHead :=
  gives_bump.bind fun _ _ => gives_declName.bind fun _ _ => (gives_fieldsUntil hn).bind fun _ hfs =>
    gives_pure (forall_flatMap hfs)

/-- A binding of a trait closes the level that it opens. -/
theorem gives_traitBinding : (traitBinding term).Gives s d (Kept Binding.Tidy Binding.parts) := by
  intro c b x hd hrun
  have hdepth := (traitBinding_reads term_reads hrun).depth_eq
  simp only [traitBinding, runs_bind, runs_descend, runs_ascend, runs_pure] at hrun
  obtain ⟨_, _, ⟨-, rfl⟩, b, y, hb, _, _, rfl, rfl, rfl⟩ := hrun
  exact ⟨(gives_binding hn .free (Nat.le_succ_of_le hd) hb).1, hdepth ▸ hd⟩

theorem gives_trait : (trait term).Gives s d NormalHead :=
  gives_expect.bind fun _ _ => gives_declName.bind fun _ _ => (gives_traitBinding hn).itemsUntil.bind
    fun _ hbs => gives_pure (forall_flatMap hbs)

theorem gives_branch : (branch term).Gives s d (fun b => ∀ u ∈ b.parts, u.Normal) := by
  refine gives_expect.bind fun _ _ => gives_cursor.bind fun start hstart => (hn .free).bind
    fun first hfirst => gives_at?.bind fun b _ => ?_
  have rest : ∀ guard : Term, guard.Normal → (body term .free >>= fun b =>
      pure (Branch.mk guard b)).Gives s d (fun b => ∀ u ∈ b.parts, u.Normal) := fun guard hguard =>
    (gives_body hn .free).bind fun b hb => gives_pure (List.forall_mem_cons.2 ⟨hguard, hb⟩)
  cases b with
  | true => exact (gives_pure hfirst).bind rest
  | false =>
    exact gives_cursor.bind fun _ _ => gives_note.bind fun _ _ => (gives_restore hstart).bind
      fun _ _ => (hn .beforeArrow).bind rest

theorem gives_caseOf : (caseOf term).Gives s d NormalHead := by
  refine gives_expect.bind fun _ _ => gives_expect.bind fun _ _ => (gives_branch hn).itemsUntil.bind
    fun bs hbs => gives_pure ⟨trivial, fun u hu => ?_⟩
  obtain ⟨b, hb, hu⟩ := List.mem_flatMap.1 hu
  exact hbs b hb u hu

/-! ## Functions and heads -/

omit hn in
theorem gives_literal : literal.Gives s d NormalHead := by
  refine gives_current.bind fun t _ => ?_
  cases t with
  | none => exact gives_reject
  | some t =>
    dsimp only
    split
    all_goals first
      | exact gives_reject
      | exact gives_bump.bind fun _ _ => gives_pure ⟨trivial, nofun⟩

theorem gives_typeList : (typeList term).Gives s d (fun ts => ∀ t ∈ ts, t.Normal) :=
  gives_expect.bind fun _ _ => gives_termsUntil hn

omit hn in
/-- A function from its parameters, its result if it has one, and its body. -/
theorem normalHead_function {ps : List Param} {result : Option Term} {b : Body}
    (hps : ∀ p ∈ ps, Kept Param.Tidy Param.parts p) (hresult : ∀ t ∈ result, t.Normal)
    (hb : ∀ u ∈ b.parts, u.Normal) : NormalHead (.function ps result b) := by
  obtain ⟨htidy, hparts⟩ := forall_flatMap hps
  refine ⟨htidy, fun u hu => ?_⟩
  rw [Term.inner, List.mem_append, List.mem_append, Option.mem_toList] at hu
  rcases hu with hu | hu | hu
  · exact hparts u hu
  · exact hresult u hu
  · exact hb u hu

theorem gives_withResult {r : Restrictions} {close : Nat} :
    (withResult term r close).Gives s d NormalHead := by
  refine gives_cursor.bind fun start hstart => gives_seek.bind fun _ _ => (hn r).bind
    fun result hresult => gives_cursor.bind fun after hafter => gives_kind.bind fun k _ =>
    gives_note.bind fun _ _ => (gives_restore hstart).bind fun _ _ => ?_
  split
  · refine gives_bump.bind fun _ _ => (gives_paramsUntil hn).bind fun ps hps => gives_expect.bind
      fun _ _ => (gives_restore hafter).bind fun _ _ => (gives_body hn r).bind fun b hb => gives_pure ?_
    exact normalHead_function hps (fun t ht => Option.some.inj ht ▸ hresult) hb
  · refine (gives_typeList hn).bind fun ts hts => gives_expect.bind fun _ _ =>
      (gives_restore hafter).bind fun _ _ => gives_pure ⟨trivial, fun u hu => ?_⟩
    obtain hu | hu := List.mem_append.1 hu
    · exact hts u hu
    · exact List.mem_singleton.1 hu ▸ hresult

theorem gives_function (r : Restrictions) : (function term r).Gives s d NormalHead := by
  refine gives_matchingClose?.bind fun close _ => ?_
  cases close with
  | none => exact (gives_typeList hn).bind fun _ _ => gives_reject
  | some close =>
    refine gives_kindAt.bind fun k _ => ?_
    split
    · refine gives_bump.bind fun _ _ => (gives_paramsUntil hn).bind fun ps hps =>
        (gives_body hn r).bind fun b hb => gives_pure (normalHead_function hps nofun hb)
    · exact gives_withResult hn
    · exact (gives_typeList hn).bind fun _ _ => gives_reject

theorem gives_generic (r : Restrictions) : (generic term r).Gives s d NormalHead := by
  refine gives_expect.bind fun _ _ => (gives_paramsUntil hn).bind fun ps hps =>
    (gives_body hn r).bind fun b hb => gives_pure ?_
  obtain ⟨htidy, hparts⟩ := forall_flatMap hps
  exact ⟨htidy, List.forall_mem_append.2 ⟨hparts, hb⟩⟩

theorem gives_spread (r : Restrictions) (sort : Spread) : (spread term r sort).Gives s d NormalHead :=
  gives_bump.bind fun _ _ => (hn r).bind fun _ ht => gives_pure ⟨trivial, List.forall_mem_singleton.2 ht⟩

theorem gives_head (r : Restrictions) : (head term r).Gives s d NormalHead := by
  refine gives_kind.bind fun k _ => ?_
  split
  · exact gives_bump.bind fun _ _ => (gives_blocked hn).bind fun ts hts => gives_pure ⟨trivial, hts⟩
  · exact gives_generic hn r
  · exact (gives_binding hn r).bind fun b hb => gives_pure hb
  · exact gives_loop hn
  · exact gives_signature hn
  · exact gives_signature hn
  · exact gives_signature hn
  · exact gives_signature hn
  · exact gives_record hn
  · exact gives_record hn
  · exact gives_record hn
  · exact gives_trait hn
  · exact gives_function hn r
  · exact gives_caseOf hn
  · exact gives_spread hn r _
  · exact gives_spread hn r _
  · exact gives_literal
  · exact gives_literal
  · exact gives_literal
  · exact gives_literal
  · exact gives_literal
  · exact gives_literal
  · exact gives_reject

/-! ## Chains and terms -/

/-- A link folded onto a term that is not open. -/
theorem gives_link (r : Restrictions) {target : Term} (ht : target.Normal) (hl : target.last? = none) :
    (link term r target).Gives s d (fun t => ∀ u ∈ t, u.Normal) := by
  have args : ∀ {sort : Applier} {close : Kind} {rule : Rule}, (bump >>= fun _ =>
      argsUntil term close rule >>= fun as => pure (some (Term.apply sort target as))).Gives s d
        (fun t => ∀ u ∈ t, u.Normal) := by
    intro sort close rule
    refine gives_bump.bind fun _ _ => (gives_argsUntil hn).bind fun as has => gives_pure fun u hu => ?_
    obtain rfl := Option.some.inj hu
    obtain ⟨htidy, hparts⟩ := forall_flatMap has
    exact .mk ⟨hl, htidy⟩ (List.forall_mem_cons.2 ⟨ht, hparts⟩)
  refine gives_kind.bind fun k _ => ?_
  split
  · refine gives_bump.bind fun _ _ => gives_expectIdent.bind fun _ _ => gives_pure fun u hu => ?_
    obtain rfl := Option.some.inj hu
    exact .mk hl (List.forall_mem_singleton.2 ht)
  · exact args
  · exact args
  · have hfields : (namedApplier term).Gives s d (fun fs => ∀ f ∈ fs, Kept Field.Tidy Field.parts f) :=
      gives_expect.bind fun _ _ => gives_fieldsUntil hn
    refine hfields.speculate.bind fun o ho => ?_
    cases o with
    | some fields =>
      refine gives_pure fun u hu => ?_
      obtain rfl := Option.some.inj hu
      obtain ⟨htidy, hparts⟩ := forall_flatMap (ho fields rfl)
      exact .mk ⟨hl, htidy⟩ (List.forall_mem_cons.2 ⟨ht, hparts⟩)
    | none => exact gives_cursor.bind fun _ _ => gives_note.bind fun _ _ => gives_pure nofun
  · refine gives_bump.bind fun _ _ => (hn r).bind fun v hv => gives_pure fun u hu => ?_
    obtain rfl := Option.some.inj hu
    refine .mk hl (List.forall_mem_cons.2 ⟨ht, List.forall_mem_singleton.2 hv⟩)
  · exact gives_pure nofun

/-- A chain on a term in normal form; if that is open, no link follows it. -/
theorem normal_of_chains {r : Restrictions} {c x : Cursor} {first t : Term} (h : Chains s r first c t x)
    (hd : d ≤ c.depth) (hfirst : first.Normal) (hstops : first.last? ≠ none → Stops s r c) :
    t.Normal := by
  induction h with
  | done | left => exact hfirst
  | @link first longer whole c y x hk hdepth hlink hrest ih =>
    by_cases hl : first.last? = none
    · have hopen : longer.last? ≠ none → Stops s r y := by
        intro hne
        obtain ⟨u, hu⟩ := Option.ne_none_iff_exists'.1 hne
        obtain ⟨-, c', hvalue⟩ := runs_last_of_link hlink hk hu
        exact stops_of_term hvalue
      obtain ⟨hlonger, hy⟩ := gives_link hn r hfirst hl (Nat.le_succ_of_le hd) hlink
      exact ih hy (hlonger longer rfl) hopen
    · cases ((hstops hl hk first).unique hlink).1

end

/-- Terms are read in normal form, by induction on the number of levels that can be opened. -/
theorem normalTerms (s : Stream) : ∀ n d, s.maxDepth ≤ d + n → NormalTerms s d := by
  intro n
  induction n with
  | zero =>
    intro d hle r c t x hd h
    have := ((runs_term (Nat.le_of_lt (start_lt_of_term h))).1 h).1
    omega
  | succ n ih =>
    intro d hle r c t x hd h
    refine ⟨?_, (term_reads r h).depth_eq ▸ hd⟩
    obtain ⟨-, first, y, z, hfirst, hchain, rfl⟩ :=
      (runs_term (Nat.le_of_lt (start_lt_of_term h))).1 h
    have hn : NormalTerms s (d + 1) := ih (d + 1) (by omega)
    obtain ⟨⟨htidy, hinner⟩, hy⟩ := gives_head hn r (Nat.succ_le_succ hd) hfirst
    have htarget := (head_reads term_reads r hfirst).2
    have hnormal : first.Normal := .mk htidy fun u hu => by
      rw [Term.parts, htarget] at hu
      exact hinner u hu
    refine normal_of_chains hn hchain hy hnormal fun hne => ?_
    obtain ⟨u, hu⟩ := Option.ne_none_iff_exists'.1 hne
    obtain ⟨c', hlast⟩ := runs_last_of_head hfirst hu
    exact stops_of_term hlast

theorem gives_topTermsWithin {s : Stream} (bound : Nat) :
    (topTermsWithin bound).Gives s 0 (fun ts => ∀ t ∈ ts, t.Normal) := by
  induction bound with
  | zero => exact gives_pure nofun
  | succ bound ih =>
    refine gives_at?.bind fun b _ => ?_
    cases b with
    | true => exact gives_pure nofun
    | false =>
      refine (normalTerms s s.maxDepth 0 (by omega) .free).bind fun t ht => ih.bind fun ts hts => ?_
      exact gives_pure (List.forall_mem_cons.2 ⟨ht, hts⟩)

end Grammar

open Grammar Parse

/-- Every program that is read is in normal form. -/
theorem normal_of_parseProgram {tokens : List Token} {maxDepth : Nat} {p : Program}
    (h : parseProgram tokens maxDepth = .ok p) : p.Normal := by
  have hgives : program.Gives ⟨tokens.toArray, maxDepth⟩ 0 Program.Normal :=
    gives_remaining.bind fun bound _ => (gives_topTermsWithin bound).bind fun ts hts =>
      gives_expect.bind fun _ _ => gives_pure hts
  exact (hgives (Nat.zero_le _) ⟨h, rfl⟩).1

/-- The other reading of `*a{a}` is not in normal form. -/
example : ¬ (Term.applyNamed (.spread .tuple (.ident "a")) [.shorthand "a"]).Normal :=
  fun h => nomatch h.tidy.1

/-- `*a(a: *a = a){a}` -/
def spreadTokens : List Token :=
  [.star, .ident, .parenOpen, .ident, .colon, .star, .ident, .equals, .ident, .parenClose, .braceOpen,
    .ident, .braceClose, .eof].map fun k => Token.ofWord (if k = .ident then .ident "a" else .ofKind k)

/-- One spread of two applications to an argument each. -/
def spreadProgram : Program :=
  ⟨[.spread .tuple (.applyNamed (.apply .positional (.ident "a")
    [.named (.given "a" (some (.mk (some .tuple) (.ident "a"))) (.ident "a"))]) [.shorthand "a"])]⟩

theorem normal_of_parseProgram_spread :
    parseProgram spreadTokens 9 = .ok spreadProgram ∧ spreadProgram.Normal := by
  have h : parseProgram spreadTokens 9 = .ok spreadProgram := by rfl
  exact ⟨h, normal_of_parseProgram h⟩

end TermLang
