import TermLang.Proofs.Orderly

/-!
# The grammar is orderly

Every rule of the grammar is orderly. A rule with a first token of its own may be started where a term
began; what follows the token may begin terms. Three places take the cursor back: the head of a loop and
the guard of a branch are read again from where they began, the head of a loop gives its body back, and a
function goes back to its list when its result has been read.
-/

namespace TermLang.Grammar

open Parse

/-- A parser of terms that reads terms and is orderly. -/
structure OrderlyTerms (s : Stream) (term : TermParser) : Prop where
  reads : ReadsTerms term
  keeps : ∀ (low : Cursor) (first : Nat) (r : Restrictions), (term r).Keeps s low first 0

section

variable {s : Stream} {term : TermParser} (ht : OrderlyTerms s term) {low : Cursor} {first : Nat}

include ht

/-! ## Annotations, parameters, fields and arguments -/

theorem keeps_termsUntil {close : Kind} {rule : Rule} (htext : close.text?.isSome = true) :
    (termsUntil term close rule).Keeps s low first 0 :=
  keeps_itemsUntil (ht.keeps low first .free) (ht.reads .free) htext

theorem keeps_blocked (rule : Rule) : (blocked term rule).Keeps s low first 1 := fun _ hc =>
  orderly_expect_bind hc rfl fun _ => keeps_termsUntil ht rfl

theorem keeps_anno (r : Restrictions) : (anno term r).Keeps s low first 1 := by
  intro c hc
  have type : ∀ (sort : Option Spread) {x : Cursor}, s.Ready low first 0 x →
      (pure sort >>= fun sort => term r >>= fun t => pure (Anno.mk sort t)).Orderly s low first x := by
    intro sort x hx
    refine orderly_look rfl hx.toAbove ?_
    exact orderly_bind (ht.keeps low first r x hx) fun _ _ _ hy => orderly_pure _ hy
  refine orderly_expect_bind hc rfl fun _ x hx => orderly_look rfl hx.toAbove ?_
  have hx₁ := hx.mono (Nat.zero_le 1)
  split
  · rename_i hk
    exact orderly_bump_bind hx₁ (by rw [Nat.add_zero] at hk; rw [hk]; decide) (type _)
  · rename_i hk
    exact orderly_bump_bind hx₁ (by rw [Nat.add_zero] at hk; rw [hk]; decide) (type _)
  · exact type none hx

theorem keeps_anno? (r : Restrictions) : (anno? term r).Keeps s low first 1 := by
  intro c hc
  refine orderly_at? hc.toAbove ?_
  split
  · exact orderly_bind (keeps_anno ht r c hc) fun _ _ _ hx => orderly_pure _ hx
  · exact orderly_pure none hc.toAbove

theorem keeps_param : (param term).Keeps s low first 1 := by
  intro c hc
  refine orderly_expectIdent_bind hc fun name x hx => ?_
  exact orderly_bind ((keeps_anno? ht .free).mono (Nat.zero_le 1) x hx) fun _ _ _ hy => orderly_pure _ hy

theorem keeps_paramsUntil {close : Kind} {rule : Rule} (htext : close.text?.isSome = true) :
    (paramsUntil term close rule).Keeps s low first 0 :=
  keeps_itemsUntil ((keeps_param ht).mono (Nat.zero_le 1)) (param_reads ht.reads) htext

omit ht in
theorem orderly_shorthand {c : Cursor} (h : s.Above low c) : shorthand.Orderly s low first c :=
  orderly_bind (orderly_expectIdent .kwArg h) fun _ _ _ hx => orderly_pure _ hx

theorem keeps_given : (given term).Keeps s low first 1 := by
  intro c hc
  refine orderly_expectIdent_bind hc fun name x hx => ?_
  refine orderly_expect_bind (hx.mono (Nat.zero_le 1)) rfl fun _ y hy => ?_
  exact orderly_bind (ht.keeps low first .free y hy) fun _ _ _ hz => orderly_pure _ hz

theorem keeps_annotatedName : (annotatedName term).Keeps s low first 1 := by
  intro c hc
  refine orderly_expectIdent_bind hc fun name x hx => ?_
  have hanno := (keeps_anno ht .beforeAssign).mono (Nat.zero_le 1) x hx
  refine hanno.next (anno_reads ht.reads .beforeAssign) hx fun type y hy => ?_
  exact orderly_bind (orderly_expect .equals .kwArg hy.toAbove) fun _ _ _ hz => orderly_pure _ hz

theorem keeps_annotatedField? : (annotatedField? term).Keeps s low first 0 := by
  intro c hc
  have hname := (keeps_annotatedName ht).mono (Nat.zero_le 1) c hc
  refine orderly_bind (hname.speculate hc.toAbove) fun found x hrun hx => ?_
  rcases runs_speculate hrun with ⟨⟨name, type⟩, rfl, htried⟩ | ⟨rfl, rfl⟩
  · have hx₀ := (hc.reads (annotatedName_reads ht.reads htried)).mono (n := 0) (by omega)
    exact orderly_bind (ht.keeps low first .free x hx₀) fun _ _ _ hy => orderly_pure _ hy
  · exact orderly_pure none hx

theorem keeps_field : (field term).Keeps s low first 0 := by
  intro c hc
  refine orderly_look rfl hc.toAbove ?_
  split
  · exact (keeps_given ht).mono (Nat.zero_le 1) c hc
  · refine orderly_bind (keeps_annotatedField? ht c hc) fun found x _ hx => ?_
    split
    · exact orderly_pure _ hx
    · exact orderly_shorthand hx
  · exact orderly_shorthand hc.toAbove

theorem keeps_fieldsUntil {close : Kind} {rule : Rule} (htext : close.text?.isSome = true) :
    (fieldsUntil term close rule).Keeps s low first 0 :=
  keeps_itemsUntil (keeps_field ht) (field_reads ht.reads) htext

theorem keeps_positional : (positional term).Keeps s low first 0 := fun c hc =>
  orderly_bind (ht.keeps low first .free c hc) fun _ _ _ hx => orderly_pure _ hx

theorem keeps_arg : (arg term).Keeps s low first 0 := by
  intro c hc
  have hterm := keeps_positional ht c hc
  refine orderly_at? hc.toAbove ?_
  split
  · refine orderly_look rfl hc.toAbove ?_
    split
    · exact orderly_bind ((keeps_given ht).mono (Nat.zero_le 1) c hc) fun _ _ _ hx => orderly_pure _ hx
    · refine orderly_bind (keeps_annotatedField? ht c hc) fun found x hfound hx => ?_
      cases found with
      | some f => exact orderly_pure _ hx
      | none =>
        have hx₀ := (hc.reads (annotatedField?_reads ht.reads hfound)).mono (n := 0) (by omega)
        exact keeps_positional ht x hx₀
    · exact hterm
  · exact hterm

theorem keeps_argsUntil {close : Kind} {rule : Rule} (htext : close.text?.isSome = true) :
    (argsUntil term close rule).Keeps s low first 0 :=
  keeps_itemsUntil (keeps_arg ht) (arg_reads ht.reads) htext

/-! ## Chains -/

theorem keeps_namedApplier : (namedApplier term).Keeps s low first 1 := fun _ hc =>
  orderly_expect_bind hc rfl fun _ => keeps_fieldsUntil ht rfl

theorem keeps_link (r : Restrictions) (target : Term) : (link term r target).Keeps s low first 1 := by
  intro c hc
  have args : ∀ {k close : Kind} (sort : Applier) (rule : Rule), s.kindAt c.pos = k → k ≠ .eof →
      close.text?.isSome = true → (bump >>= fun _ => argsUntil term close rule >>= fun as =>
        pure (some (Term.apply sort target as))).Orderly s low first c := by
    intro k close sort rule hk he htext
    refine orderly_bump_bind hc (hk ▸ he) fun hx => ?_
    exact orderly_bind (keeps_argsUntil ht htext _ hx) fun _ _ _ hy => orderly_pure _ hy
  refine orderly_look rfl hc.toAbove ?_
  split
  · refine orderly_bind (orderly_bump hc.toAbove) fun _ x _ hx => ?_
    exact orderly_bind (orderly_expectIdent .selector hx) fun _ _ _ hy => orderly_pure _ hy
  · exact args .implicit .implicitApplier ‹_› (by decide) rfl
  · exact args .positional .positionalApplier ‹_› (by decide) rfl
  · refine orderly_bind ((keeps_namedApplier ht c hc).speculate hc.toAbove) fun found x _ hx => ?_
    cases found with
    | some fields => exact orderly_pure _ hx
    | none => exact orderly_look rfl hx (orderly_look rfl hx (orderly_pure _ hx))
  · rename_i hk
    rw [Nat.add_zero] at hk
    refine orderly_bump_bind hc (by rw [hk]; decide) fun hx => ?_
    exact orderly_bind (ht.keeps low first r _ hx) fun _ _ _ hy => orderly_pure _ hy
  · exact orderly_pure none hc.toAbove

/-- Each link closes the level that it opened. -/
theorem keeps_chainWithin (r : Restrictions) (bound : Nat) (head : Term) :
    (chainWithin term r bound head).Keeps s low first 1 := by
  induction bound generalizing head with
  | zero => exact fun c hc => orderly_pure head hc.toAbove
  | succ bound ih =>
    intro c hc
    refine orderly_look rfl hc.toAbove ?_
    split
    · refine orderly_descend_bind hc fun hlevel => ?_
      refine orderly_bind (keeps_link ht r head _ hlevel) fun found x hlink hx => ?_
      rcases link_reads ht.reads hlink with ⟨longer, ys, rfl, -, hread, -⟩ | ⟨rfl, rfl⟩
      · have hx₁ := (hlevel.reads hread).mono (n := 1) (by omega)
        refine orderly_bind (ih longer x hx₁) fun whole y hchain hy => ?_
        obtain ⟨zs, -, hreads, -⟩ := chainWithin_reads ht.reads _ hchain
        have hend := hc.toAbove.ascend hy (hreads.depth_eq.trans hread.depth_eq)
        exact orderly_move rfl hy hend (orderly_pure whole hend)
      · have hend := hc.toAbove.ascend hx rfl
        exact orderly_move rfl hx hend (orderly_pure head hend)
    · exact orderly_pure head hc.toAbove

/-! ## Bodies and bindings -/

theorem keeps_body (r : Restrictions) : (body term r).Keeps s low first 1 := by
  intro c hc
  refine orderly_expect_bind hc rfl fun _ x hx => orderly_at? hx.toAbove ?_
  split
  · have hblock := (keeps_blocked ht .fatArrow).mono (Nat.zero_le 1) x hx
    exact orderly_bind hblock fun _ _ _ hy => orderly_pure _ hy
  · exact orderly_bind (ht.keeps low first r x hx) fun _ _ _ hy => orderly_pure _ hy

theorem keeps_binding (r : Restrictions) : (binding term r).Keeps s low first 1 := by
  intro c hc
  refine orderly_expect_bind hc rfl fun _ x hx => ?_
  refine orderly_expectIdent_bind (hx.mono (Nat.zero_le 1)) fun name y hy => ?_
  refine orderly_look rfl hy.toAbove ?_
  split
  · have hanno := (keeps_anno? ht .beforeAssign).mono (Nat.zero_le 1) y hy
    refine hanno.next (anno?_reads ht.reads .beforeAssign) hy fun type z hz => ?_
    refine orderly_expect_bind (hz.mono (Nat.zero_le 1)) rfl fun _ u hu => ?_
    exact orderly_bind (ht.keeps low first r u hu) fun _ _ _ hv => orderly_pure _ hv
  · exact orderly_pure _ hy.toAbove

/-! ## Loops -/

omit ht in
theorem orderly_openingBefore? {c : Cursor} (h : s.Above low c) : openingBefore?.Orderly s low first c := by
  cases hpos : c.pos with
  | zero => exact orderly_of_look (by rw [openingBefore?]; simp only [hpos]; rfl) h
  | succ last => exact orderly_of_look (by rw [openingBefore?]; simp only [hpos]; rfl) h

/-- The bracket that a closing named application begins with is not passed before the loop head. -/
theorem keeps_loopHead : (loopHead term).Keeps s low first 0 := by
  intro c hc
  refine orderly_look rfl hc.toAbove ?_
  refine orderly_bind (ht.keeps low first .free c hc) fun head x hhead hx => orderly_at? hx ?_
  split
  · exact orderly_pure head hx
  · refine orderly_bind (orderly_openingBefore? hx) fun o y hopen hy => ?_
    split
    · obtain ⟨i, htarget, -, hopen', hlt⟩ := exists_opening (ht.reads .free hhead)
      obtain ⟨hi, rfl⟩ := hopen.unique hopen'
      have hlen := htarget.stop_eq
      have hlow := hc.pos_ge
      have hback : s.Above low { y with pos := min i s.tokens.size } :=
        { hy with
          pos_ge := by show low.pos ≤ min i s.tokens.size; omega
          pos_le := Nat.min_le_right _ _ }
      refine orderly_look rfl hy (orderly_move rfl hy ?_ (orderly_pure _ ?_)) <;>
        · rw [Option.some.inj hi]
          exact hback
    · exact orderly_move rfl hy hc.toAbove (ht.keeps low first .beforeBody c hc)

theorem keeps_loop : (loop term).Keeps s low first 1 := by
  intro c hc
  have rest : ∀ (f : Term → List Term → Term) {x : Cursor}, s.Ready low first 0 x →
      (loopHead term >>= fun t => blocked term .forRule >>= fun ts => pure (f t ts)).Orderly s low first
        x := by
    intro f x hx
    refine (keeps_loopHead ht x hx).next (loopHead_reads ht.reads) hx fun t y hy => ?_
    have hblock := (keeps_blocked ht .forRule).mono (Nat.zero_le 1) y hy
    exact orderly_bind hblock fun _ _ _ hz => orderly_pure _ hz
  refine orderly_expect_bind hc rfl fun _ x hx => orderly_at? hx.toAbove (orderly_look rfl hx.toAbove ?_)
  split
  · rename_i hin
    refine orderly_bind (orderly_expectIdent .forRule hx.toAbove) fun name y hname _ => ?_
    have hread := expectIdent_reads .forRule hname
    have hkind : s.kindAt y.pos = .kwIn := by
      rw [hread.row.stop_eq]
      simp only [Bool.and_eq_true, beq_iff_eq] at hin
      exact hin.2
    have hy := (hx.reads hread).mono (n := 1) (by omega)
    exact orderly_bump_bind hy (by rw [hkind]; decide) (rest (.forEach name))
  · refine orderly_at? hx.toAbove ?_
    split
    · have hblock := (keeps_blocked ht .forRule).mono (Nat.zero_le 1) x hx
      exact orderly_bind hblock fun _ _ _ hy => orderly_pure _ hy
    · exact rest .forWhile hx

/-! ## Declarations -/

omit ht in
theorem orderly_declName {c : Cursor} (rule : Rule) (h : s.Above low c) :
    (declName rule).Orderly s low first c := by
  have brace : ∀ (name : Option String) (expected : List Kind) {x : Cursor}, s.Above low x →
      (skip .braceOpen >>= fun b => if b = true then pure name else reject rule expected).Orderly s low
        first x := by
    intro name expected x hx
    refine orderly_bind (orderly_skip .braceOpen hx) fun b y _ hy => ?_
    split
    · exact orderly_pure name hy
    · exact orderly_reject rule expected hy
  refine orderly_look rfl h ?_
  split
  · split
    · exact orderly_bind (orderly_bump h) fun _ _ _ hx => brace _ _ hx
    · exact brace _ _ h
  · exact orderly_reject rule _ h

theorem orderly_signature {sort : Signature} {c : Cursor} (hc : s.Ready low first 1 c)
    (hk : s.kindAt c.pos = sort.keyword) : (signature term sort).Orderly s low first c := by
  have he := (Kind.plain_of_text? sort.isSome_text?).1
  refine orderly_bump_bind hc (hk ▸ he) fun hx => ?_
  refine (orderly_declName _ hx.toAbove).next (declName_reads _) hx fun name y hy => ?_
  exact orderly_bind (keeps_paramsUntil ht rfl y hy) fun _ _ _ hz => orderly_pure _ hz

theorem orderly_record {sort : Record} {c : Cursor} (hc : s.Ready low first 1 c)
    (hk : s.kindAt c.pos = sort.keyword) : (record term sort).Orderly s low first c := by
  have he := (Kind.plain_of_text? sort.isSome_text?).1
  refine orderly_bump_bind hc (hk ▸ he) fun hx => ?_
  refine (orderly_declName _ hx.toAbove).next (declName_reads _) hx fun name y hy => ?_
  exact orderly_bind (keeps_fieldsUntil ht rfl y hy) fun _ _ _ hz => orderly_pure _ hz

theorem keeps_traitBinding : (traitBinding term).Keeps s low first 1 := by
  intro c hc
  refine orderly_descend_bind hc fun hlevel => ?_
  refine orderly_bind (keeps_binding ht .free _ hlevel) fun b x hb hx => ?_
  have hend := hc.toAbove.ascend hx (binding_reads ht.reads .free hb).depth_eq
  exact orderly_move rfl hx hend (orderly_pure b hend)

theorem keeps_trait : (trait term).Keeps s low first 1 := by
  intro c hc
  refine orderly_expect_bind hc rfl fun _ x hx => ?_
  refine (orderly_declName _ hx.toAbove).next (declName_reads _) hx fun name y hy => ?_
  have hbindings : (itemsUntil .braceClose (· = .kwLet) .trait [.kwLet, .braceClose]
      (traitBinding term)).Keeps s low first 0 :=
    keeps_itemsUntil ((keeps_traitBinding ht).mono (Nat.zero_le 1)) (traitBinding_reads ht.reads) rfl
  exact orderly_bind (hbindings y hy) fun _ _ _ hz => orderly_pure _ hz

/-! ## Case distinctions -/

theorem keeps_branch : (branch term).Keeps s low first 1 := by
  intro c hc
  have rest : ∀ (guard : Term) (x : Cursor), s.Ready low first 0 x →
      (body term .free >>= fun b => pure (Branch.mk guard b)).Orderly s low first x := by
    intro guard x hx
    have hbody := (keeps_body ht .free).mono (Nat.zero_le 1) x hx
    exact orderly_bind hbody fun _ _ _ hy => orderly_pure _ hy
  refine orderly_expect_bind hc rfl fun _ x hx => orderly_look rfl hx.toAbove ?_
  refine (ht.keeps low first .free x hx).next (ht.reads .free) hx fun guard y hy => ?_
  refine orderly_at? hy.toAbove ?_
  split
  · exact orderly_look rfl hy.toAbove (rest guard y hy)
  · refine orderly_look rfl hy.toAbove (orderly_look rfl hy.toAbove ?_)
    refine orderly_move rfl hy.toAbove hx.toAbove ?_
    exact (ht.keeps low first .beforeArrow x hx).next (ht.reads .beforeArrow) hx rest

theorem keeps_caseOf : (caseOf term).Keeps s low first 1 := by
  intro c hc
  refine orderly_expect_bind hc rfl fun _ x hx => ?_
  refine orderly_expect_bind (hx.mono (Nat.zero_le 1)) rfl fun _ y hy => ?_
  have hbranches : (itemsUntil .braceClose (· = .kwWhen) .caseRule [.kwWhen, .braceClose]
      (branch term)).Keeps s low first 0 :=
    keeps_itemsUntil ((keeps_branch ht).mono (Nat.zero_le 1)) (branch_reads ht.reads) rfl
  exact orderly_bind (hbranches y hy) fun _ _ _ hz => orderly_pure _ hz

/-! ## Functions and heads -/

omit ht in
theorem orderly_literal {c : Cursor} (h : s.Above low c) : literal.Orderly s low first c := by
  rw [literal_eq]
  refine orderly_look rfl h ?_
  unfold readTerminal
  split
  · exact orderly_bind (orderly_bump h) fun _ _ _ hx => orderly_pure _ hx
  · exact orderly_bind (orderly_bump h) fun _ _ _ hx => orderly_pure _ hx
  · exact orderly_reject .term termStart h

theorem orderly_spread {r : Restrictions} {sort : Spread} {c : Cursor} (hc : s.Ready low first 1 c)
    (hk : s.kindAt c.pos = sort.mark) : (spread term r sort).Orderly s low first c := by
  have he := (Kind.plain_of_text? sort.isSome_text?).1
  refine orderly_bump_bind hc (hk ▸ he) fun hx => ?_
  exact orderly_bind (ht.keeps low first r _ hx) fun _ _ _ hy => orderly_pure _ hy

theorem keeps_generic (r : Restrictions) : (generic term r).Keeps s low first 1 := by
  intro c hc
  refine orderly_expect_bind hc rfl fun _ x hx => ?_
  refine (keeps_paramsUntil ht rfl x hx).next (paramsUntil_reads ht.reads rfl _) hx fun ps y hy => ?_
  have hbody := (keeps_body ht r).mono (Nat.zero_le 1) y hy
  exact orderly_bind hbody fun _ _ _ hz => orderly_pure _ hz

theorem keeps_typeList : (typeList term).Keeps s low first 1 := fun _ hc =>
  orderly_expect_bind hc rfl fun _ => keeps_termsUntil ht rfl

theorem orderly_plainFunction {r : Restrictions} {c : Cursor} (hc : s.Ready low first 1 c)
    (hk : s.kindAt c.pos = .parenOpen) : (plainFunction term r).Orderly s low first c := by
  refine orderly_bump_bind hc (by rw [hk]; decide) fun hx => ?_
  refine (keeps_paramsUntil ht rfl _ hx).next (paramsUntil_reads ht.reads rfl _) hx fun ps y hy => ?_
  have hbody := (keeps_body ht r).mono (Nat.zero_le 1) y hy
  exact orderly_bind hbody fun _ _ _ hz => orderly_pure _ hz

/-- The result is read behind the list, and the list from where the function began. -/
theorem orderly_withResult {r : Restrictions} {close : Nat} {c : Cursor} (hc : s.Ready low first 1 c)
    (hk : s.kindAt c.pos = .parenOpen) (hclose : s.matchingClose? c.pos = some close)
    (harrow : s.kindAt (close + 1) = .arrow) : (withResult term r close).Orderly s low first c := by
  have hlt := Stream.lt_of_matchingClose? (by rw [hk]; rfl) hclose
  have hsize := Stream.lt_size_of_kindAt harrow (by decide)
  have hpos := hc.pos_ge
  have hfirst := hc.first_le
  have hthere : s.Ready low first 0 { c with pos := min (close + 2) s.tokens.size } :=
    { hc with
      pos_ge := by show low.pos ≤ min (close + 2) s.tokens.size; omega
      pos_le := Nat.min_le_right _ _
      first_le := by show first ≤ min (close + 2) s.tokens.size + 0; omega }
  refine orderly_look rfl hc.toAbove (orderly_move rfl hc.toAbove hthere.toAbove ?_)
  refine (ht.keeps low first r _ hthere).next (ht.reads r) hthere fun result x hx => ?_
  have hx' := hx.toAbove
  refine orderly_look rfl hx' (orderly_look rfl hx' (orderly_look rfl hx' ?_))
  refine orderly_move rfl hx' hc.toAbove ?_
  split
  · refine orderly_bump_bind hc (by rw [hk]; decide) fun hy => ?_
    refine orderly_bind (keeps_paramsUntil ht rfl _ hy) fun ps z _ hz => ?_
    refine orderly_bind (orderly_expect .arrow .fun_ hz) fun _ u _ hu => orderly_move rfl hu hx' ?_
    have hbody := (keeps_body ht r).mono (Nat.zero_le 1) x hx
    exact orderly_bind hbody fun _ _ _ hv => orderly_pure _ hv
  · refine orderly_bind (keeps_typeList ht c hc) fun ts z _ hz => ?_
    refine orderly_bind (orderly_expect .arrow .funOf hz) fun _ u _ hu => ?_
    exact orderly_move rfl hu hx' (orderly_pure _ hx')

theorem orderly_function {r : Restrictions} {c : Cursor} (hc : s.Ready low first 1 c)
    (hk : s.kindAt c.pos = .parenOpen) : (function term r).Orderly s low first c := by
  have fails : ∀ expected, (typeList term >>= fun _ => (reject .funOf expected : Parse Term)).Orderly s
      low first c := fun expected =>
    orderly_bind (keeps_typeList ht c hc) fun _ _ _ hx => orderly_reject .funOf expected hx
  refine orderly_look rfl hc.toAbove ?_
  cases hclose : s.matchingClose? c.pos with
  | none => exact fails _
  | some close =>
    refine orderly_look rfl hc.toAbove ?_
    split
    · exact orderly_plainFunction ht hc hk
    · exact orderly_withResult ht hc hk hclose ‹_›
    · exact fails _

theorem keeps_head (r : Restrictions) : (head term r).Keeps s low first 1 := by
  intro c hc
  refine orderly_look rfl hc.toAbove ?_
  rw [Nat.add_zero]
  split
  · rename_i hk
    refine orderly_bump_bind hc (by rw [hk]; decide) fun hx => ?_
    have hblock := (keeps_blocked ht .block).mono (Nat.zero_le 1) _ hx
    exact orderly_bind hblock fun _ _ _ hy => orderly_pure _ hy
  · exact keeps_generic ht r c hc
  · exact orderly_bind (keeps_binding ht r c hc) fun _ _ _ hx => orderly_pure _ hx
  · exact keeps_loop ht c hc
  · exact orderly_signature ht hc ‹_›
  · exact orderly_signature ht hc ‹_›
  · exact orderly_signature ht hc ‹_›
  · exact orderly_signature ht hc ‹_›
  · exact orderly_record ht hc ‹_›
  · exact orderly_record ht hc ‹_›
  · exact orderly_record ht hc ‹_›
  · exact keeps_trait ht c hc
  · exact orderly_function ht hc ‹_›
  · exact keeps_caseOf ht c hc
  · exact orderly_spread ht hc ‹_›
  · exact orderly_spread ht hc ‹_›
  · exact orderly_literal hc.toAbove
  · exact orderly_literal hc.toAbove
  · exact orderly_literal hc.toAbove
  · exact orderly_literal hc.toAbove
  · exact orderly_literal hc.toAbove
  · exact orderly_literal hc.toAbove
  · exact orderly_reject .term termStart hc.toAbove

/-! ## Terms and programs -/

theorem keeps_termOf (r : Restrictions) : (termOf term r).Keeps s low first 1 := by
  intro c hc
  refine orderly_descend_bind hc fun hlevel => ?_
  refine orderly_bind (keeps_head ht r _ hlevel) fun head x hhead _ => ?_
  have hread := (head_reads ht.reads r hhead).1
  have hx := (hlevel.reads hread).mono (n := 1) (by omega)
  have hchain : (chain term r head).Orderly s low first x :=
    orderly_look rfl hx.toAbove (keeps_chainWithin ht r _ head x hx)
  refine orderly_bind hchain fun whole y hrun hy => ?_
  simp only [chain, runs_bind, runs_remaining] at hrun
  obtain ⟨_, _, ⟨rfl, rfl⟩, hrun⟩ := hrun
  obtain ⟨zs, -, hreads, -⟩ := chainWithin_reads ht.reads _ hrun
  have hend := hc.toAbove.ascend hy (hreads.depth_eq.trans hread.depth_eq)
  exact orderly_move rfl hy hend (orderly_pure whole hend)

end

variable {s : Stream}

/-- The terms in a term begin behind the place where it begins. -/
theorem keeps_called {p : Parse Term} {low : Cursor} {first : Nat}
    (hp : ∀ first', p.Keeps s low first' 1) : (called p).Keeps s low first 0 := by
  intro c hc
  have hinner : s.Ready low (c.pos + 1) 1 c := { hc with first_le := Nat.le_refl _ }
  have horderly : (p s c).Orderly s low (c.pos + 1) := hp (c.pos + 1) c hinner
  refine ⟨horderly.cursor, horderly.peak_pos, horderly.peak_depth, fun a ha => ?_⟩
  obtain rfl := List.mem_singleton.1 ha
  exact ⟨hc.first_le, .mk hc.pos_le (fun b hb => (horderly.calls b hb).1)
    (fun b hb => (horderly.calls b hb).2)⟩

theorem orderlyTerms_termWithin (s : Stream) (levels : Nat) : OrderlyTerms s (termWithin levels) := by
  induction levels with
  | zero =>
    refine ⟨termWithin_reads 0, fun low first r => keeps_called fun first' c hc => ?_⟩
    exact orderly_reject .term termStart hc.toAbove
  | succ levels ih =>
    exact ⟨termWithin_reads _, fun low first r => keeps_called fun first' => keeps_termOf ih r⟩

theorem orderlyTerms_term (s : Stream) : OrderlyTerms s term :=
  ⟨term_reads, fun low first r c hc => (orderlyTerms_termWithin s _).keeps low first r c hc⟩

theorem keeps_topTermsWithin {low : Cursor} {first : Nat} (bound : Nat) :
    (topTermsWithin bound).Keeps s low first 0 := by
  induction bound with
  | zero => exact fun c hc => orderly_pure [] hc.toAbove
  | succ bound ih =>
    intro c hc
    refine orderly_at? hc.toAbove ?_
    split
    · exact orderly_pure [] hc.toAbove
    · have hterm := (orderlyTerms_term s).keeps low first .free c hc
      refine hterm.next (term_reads .free) hc fun t x hx => ?_
      exact orderly_bind (ih x hx) fun _ _ _ hy => orderly_pure _ hy

theorem keeps_program {low : Cursor} {first : Nat} : program.Keeps s low first 0 := by
  intro c hc
  refine orderly_look rfl hc.toAbove ?_
  refine orderly_bind (keeps_topTermsWithin _ c hc) fun ts x _ hx => ?_
  exact orderly_bind (orderly_expect .eof .program hx) fun _ _ _ hy => orderly_pure _ hy

end TermLang.Grammar
