import TermLang.Proofs.ErrorPlaces
import TermLang.Proofs.OrderlyTerms
import TermLang.Proofs.Scanned
import TermLang.Proofs.Truthful

/-!
# The grammar names what it expects

Every rule of the grammar is truthful about what it would have accepted. Most rejections come right after
the test that failed. Three do not: a literal token without a value is rejected as no literal, but no
source has such tokens; a list that no bracket closes is read in search of the error, and reading it does
fail; and a list that neither arrow follows is read before the token behind it is rejected.
-/

namespace TermLang

/-- Every token of a literal kind carries a name or a value of that kind. -/
def Stream.Valued (s : Stream) : Prop :=
  ∀ t ∈ s.tokens, ∀ k, t.terminal = .mark k → k.isLiteral = false

namespace Grammar

open Parse

/-- A parser of terms that reads terms, and whose errors are truthful from an index on. -/
structure TruthfulTerms (s : Stream) (first : Nat) (term : TermParser) : Prop where
  reads : ReadsTerms term
  truthful : ∀ r, (term r).TruthfulFrom s first 0

theorem admits_termStart {close : Kind} : Admits close startsTerm (close :: termStart) where
  close_mem := List.mem_cons_self
  eq_or_begins _ hk := (List.mem_cons.1 hk).imp_right fun hmem => List.contains_iff_mem.2 hmem

theorem admits_ident {close : Kind} : Admits close isIdent [.ident, close] where
  close_mem := List.mem_cons_of_mem _ List.mem_cons_self
  eq_or_begins k hk := by
    rcases List.mem_pair.1 hk with rfl | rfl
    · exact .inr rfl
    · exact .inl rfl

theorem admits_keyword {close keyword : Kind} : Admits close (· = keyword) [keyword, close] where
  close_mem := List.mem_cons_of_mem _ List.mem_cons_self
  eq_or_begins k hk := by
    rcases List.mem_pair.1 hk with rfl | rfl
    · exact .inr (decide_eq_true rfl)
    · exact .inl rfl

section

variable {s : Stream} {term : TermParser} {first : Nat} (ht : TruthfulTerms s first term)

include ht

/-! ## Annotations, parameters, fields and arguments -/

theorem truthful_termsUntil {close : Kind} {rule : Rule} (htext : close.text?.isSome = true) :
    (termsUntil term close rule).TruthfulFrom s first 0 :=
  truthful_itemsUntil (ht.truthful .free) (ht.reads .free) Term.yield_ne_nil htext admits_termStart

theorem truthful_blocked (rule : Rule) : (blocked term rule).TruthfulFrom s first 1 := fun _ hc =>
  truthful_expect_bind hc rfl fun _ => truthful_termsUntil ht rfl

theorem truthful_anno (r : Restrictions) : (anno term r).TruthfulFrom s first 1 := by
  intro c hc
  have type : ∀ (sort : Option Spread) (x : Cursor), s.Ready .start first 0 x →
      (pure sort >>= fun sort => term r >>= fun t => pure (Anno.mk sort t)).Truthful s x :=
    fun _ x hx => (runs_pure.2 ⟨rfl, rfl⟩).then_truthful (ht.truthful r x hx).map
  refine truthful_expect_bind hc rfl fun _ x hx => truthful_kind ?_
  have hx₁ := hx.mono (Nat.zero_le 1)
  split
  · exact truthful_bump_bind hx₁ (by rw [‹s.kindAt x.pos = _›]; decide) (type _)
  · exact truthful_bump_bind hx₁ (by rw [‹s.kindAt x.pos = _›]; decide) (type _)
  · exact type none x hx

theorem truthful_anno? (r : Restrictions) : (anno? term r).TruthfulFrom s first 1 := by
  intro c hc
  refine truthful_at? ?_
  split
  · exact (truthful_anno ht r c hc).map
  · exact truthful_pure none

theorem truthful_param : (param term).TruthfulFrom s first 1 := by
  intro c hc
  refine truthful_expectIdent_bind hc fun name x hx => ?_
  exact ((truthful_anno? ht .free).mono (Nat.zero_le 1) x hx).map

theorem truthful_paramsUntil {close : Kind} {rule : Rule} (htext : close.text?.isSome = true) :
    (paramsUntil term close rule).TruthfulFrom s first 0 :=
  truthful_itemsUntil ((truthful_param ht).mono (Nat.zero_le 1)) (param_reads ht.reads)
    Param.yield_ne_nil htext admits_ident

omit ht in
theorem truthful_shorthand {c : Cursor} : shorthand.Truthful s c := (truthful_expectIdent .kwArg).map

theorem truthful_given : (given term).TruthfulFrom s first 1 := by
  intro c hc
  refine truthful_expectIdent_bind hc fun name x hx => ?_
  exact truthful_expect_bind (hx.mono (Nat.zero_le 1)) rfl fun _ y hy => (ht.truthful .free y hy).map

theorem truthful_annotatedName : (annotatedName term).TruthfulFrom s first 1 := by
  intro c hc
  refine truthful_expectIdent_bind hc fun name x hx => ?_
  refine truthful_bind ((truthful_anno ht .beforeAssign).mono (Nat.zero_le 1) x hx) fun _ _ _ => ?_
  exact (truthful_expect .kwArg (by decide)).map

theorem truthful_annotatedField? : (annotatedField? term).TruthfulFrom s first 0 := by
  intro c hc
  have hname := (truthful_annotatedName ht).mono (Nat.zero_le 1) c hc
  refine truthful_bind hname.speculate fun found x hrun => ?_
  rcases runs_speculate hrun with ⟨⟨name, type⟩, rfl, htried⟩ | ⟨rfl, rfl⟩
  · have hx := (hc.reads (annotatedName_reads ht.reads htried)).mono (n := 0) (by omega)
    exact (ht.truthful .free x hx).map
  · exact truthful_pure none

theorem truthful_field : (field term).TruthfulFrom s first 0 := by
  intro c hc
  refine truthful_nthKind ?_
  split
  · exact (truthful_given ht).mono (Nat.zero_le 1) c hc
  · refine truthful_bind (truthful_annotatedField? ht c hc) fun found x _ => ?_
    split
    · exact truthful_pure _
    · exact truthful_shorthand
  · exact truthful_shorthand

theorem truthful_fieldsUntil {close : Kind} {rule : Rule} (htext : close.text?.isSome = true) :
    (fieldsUntil term close rule).TruthfulFrom s first 0 :=
  truthful_itemsUntil (truthful_field ht) (field_reads ht.reads) Field.yield_ne_nil htext admits_ident

theorem truthful_positional : (positional term).TruthfulFrom s first 0 := fun c hc =>
  (ht.truthful .free c hc).map

theorem truthful_arg : (arg term).TruthfulFrom s first 0 := by
  intro c hc
  have hterm := truthful_positional ht c hc
  refine truthful_at? ?_
  split
  · refine truthful_nthKind ?_
    split
    · exact ((truthful_given ht).mono (Nat.zero_le 1) c hc).map
    · refine truthful_bind (truthful_annotatedField? ht c hc) fun found x hfound => ?_
      cases found with
      | some f => exact truthful_pure _
      | none =>
        have hx := (hc.reads (annotatedField?_reads ht.reads hfound)).mono (n := 0) (by omega)
        exact truthful_positional ht x hx
    · exact hterm
  · exact hterm

theorem truthful_argsUntil {close : Kind} {rule : Rule} (htext : close.text?.isSome = true) :
    (argsUntil term close rule).TruthfulFrom s first 0 :=
  truthful_itemsUntil (truthful_arg ht) (arg_reads ht.reads) Arg.yield_ne_nil htext admits_termStart

/-! ## Chains -/

theorem truthful_namedApplier : (namedApplier term).TruthfulFrom s first 1 := fun _ hc =>
  truthful_expect_bind hc rfl fun _ => truthful_fieldsUntil ht rfl

theorem truthful_link (r : Restrictions) (target : Term) :
    (link term r target).TruthfulFrom s first 1 := by
  intro c hc
  have args : ∀ {k close : Kind} (sort : Applier) (rule : Rule), s.kindAt c.pos = k → k ≠ .eof →
      close.text?.isSome = true → (bump >>= fun _ => argsUntil term close rule >>= fun as =>
        pure (some (Term.apply sort target as))).Truthful s c := by
    intro k close sort rule hk he htext
    exact truthful_bump_bind hc (hk ▸ he) fun x hx => (truthful_argsUntil ht htext x hx).map
  refine truthful_kind ?_
  split
  · exact truthful_bind truthful_bump fun _ _ _ => (truthful_expectIdent .selector).map
  · exact args .implicit .implicitApplier ‹_› (by decide) rfl
  · exact args .positional .positionalApplier ‹_› (by decide) rfl
  · refine truthful_bind (truthful_namedApplier ht c hc).speculate fun found x _ => ?_
    cases found with
    | some fields => exact truthful_pure _
    | none => exact Runs.truthful ⟨rfl, rfl⟩
  · exact truthful_bump_bind hc (by rw [‹s.kindAt c.pos = _›]; decide) fun x hx =>
      (ht.truthful r x hx).map
  · exact truthful_pure none

theorem truthful_chainWithin (r : Restrictions) (bound : Nat) (head : Term) :
    (chainWithin term r bound head).TruthfulFrom s first 1 := by
  induction bound generalizing head with
  | zero => exact fun c _ => truthful_pure head
  | succ bound ih =>
    intro c hc
    refine truthful_kind ?_
    split
    · refine truthful_descend_bind hc fun y hy => ?_
      refine truthful_bind (truthful_link ht r head y hy) fun found x hlink => ?_
      rcases link_reads ht.reads hlink with ⟨longer, ys, rfl, -, hread, -⟩ | ⟨rfl, rfl⟩
      · have hx := (hy.reads hread).mono (n := 1) (by omega)
        exact truthful_bind (ih longer x hx) fun _ _ _ => Runs.truthful ⟨rfl, rfl⟩
      · exact Runs.truthful ⟨rfl, rfl⟩
    · exact truthful_pure head

/-! ## Bodies and bindings -/

theorem truthful_body (r : Restrictions) : (body term r).TruthfulFrom s first 1 := by
  intro c hc
  refine truthful_expect_bind hc rfl fun _ x hx => truthful_at? ?_
  split
  · exact ((truthful_blocked ht .fatArrow).mono (Nat.zero_le 1) x hx).map
  · exact (ht.truthful r x hx).map

theorem truthful_binding (r : Restrictions) : (binding term r).TruthfulFrom s first 1 := by
  intro c hc
  refine truthful_expect_bind hc rfl fun _ x hx => ?_
  refine truthful_expectIdent_bind (hx.mono (Nat.zero_le 1)) fun name y hy => truthful_kind ?_
  split
  · refine ((truthful_anno? ht .beforeAssign).mono (Nat.zero_le 1) y hy).then
      (anno?_reads ht.reads .beforeAssign) hy fun type z hz => ?_
    refine truthful_expect_bind (hz.mono (by omega)) rfl fun _ u hu => ?_
    exact (ht.truthful r u hu).map
  · exact truthful_pure _

/-! ## Loops -/

theorem truthful_loopHead : (loopHead term).TruthfulFrom s first 0 := by
  intro c hc
  refine truthful_cursor ?_
  refine truthful_bind (ht.truthful .free c hc) fun head x _ => truthful_at? ?_
  split
  · exact truthful_pure head
  · refine truthful_bind (fun e he => ?_) fun o y _ => ?_
    · unfold openingBefore? at he
      split at he <;> exact nomatch he
    · split
      · exact Runs.truthful ⟨rfl, rfl⟩
      · exact truthful_restore (ht.truthful .beforeBody c hc)

theorem truthful_loop : (loop term).TruthfulFrom s first 1 := by
  intro c hc
  have rest : ∀ (f : Term → List Term → Term) (x : Cursor), s.Ready .start first 0 x →
      (loopHead term >>= fun t => blocked term .forRule >>= fun ts => pure (f t ts)).Truthful s x := by
    intro f x hx
    refine (truthful_loopHead ht x hx).then (loopHead_reads ht.reads) hx fun t y hy => ?_
    exact ((truthful_blocked ht .forRule).mono (by omega) y hy).map
  refine truthful_expect_bind hc rfl fun _ x hx => truthful_at? ?_
  refine truthful_nthKind ?_
  split
  · rename_i hin
    refine truthful_bind (truthful_expectIdent .forRule) fun name y hname => ?_
    have hread := expectIdent_reads .forRule hname
    have hkind : s.kindAt y.pos = .kwIn := by
      rw [hread.row.stop_eq]
      simp only [Bool.and_eq_true, beq_iff_eq] at hin
      exact hin.2
    have hy := (hx.reads hread).mono (n := 1) (by omega)
    exact truthful_bump_bind hy (by rw [hkind]; decide) (rest (.forEach name))
  · refine truthful_at? ?_
    split
    · exact ((truthful_blocked ht .forRule).mono (Nat.zero_le 1) x hx).map
    · exact rest .forWhile x hx

/-! ## Declarations -/

omit ht in
/-- What is named is what was looked for: a curly bracket, and a name if there was none. -/
theorem truthful_declName {c : Cursor} (rule : Rule) : (declName rule).Truthful s c := by
  have brace : ∀ (name : Option String) (expected : List Kind) (x : Cursor),
      expected ≠ [] → (∀ k ∈ expected, k = .braceOpen ∨ s.kindAt x.pos ≠ k) →
      (skip .braceOpen >>= fun b =>
        if b = true then pure name else reject rule expected).Truthful s x := by
    intro name expected x hne hexpected
    refine truthful_bind (truthful_skip .braceOpen) fun b y hskip => ?_
    rcases (runs_skip (by decide)).1 hskip with ⟨-, rfl⟩ | ⟨hk, rfl, rfl⟩
    · exact truthful_pure name
    · exact truthful_reject hne fun hmem => (hexpected _ hmem).elim hk fun h => h rfl
  refine truthful_current ?_
  split
  · rename_i t ht
    split
    · refine truthful_bind truthful_bump fun _ x _ => brace _ _ x (List.cons_ne_nil _ _) fun k hk => ?_
      exact .inl (List.mem_singleton.1 hk)
    · rename_i hident
      refine brace _ _ c (List.cons_ne_nil _ _) fun k hk => ?_
      rcases List.mem_pair.1 hk with rfl | rfl
      · rw [Stream.kindAt_of_token ht]
        exact .inr hident
      · exact .inl rfl
  · rename_i ht
    refine truthful_reject (List.cons_ne_nil _ _) ?_
    rw [Stream.kindAt, ht]
    decide

theorem truthful_signature {sort : Signature} {c : Cursor} (hc : s.Ready .start first 1 c)
    (hk : s.kindAt c.pos = sort.keyword) : (signature term sort).Truthful s c := by
  have he := (Kind.plain_of_text? sort.isSome_text?).1
  refine truthful_bump_bind hc (hk ▸ he) fun x hx => ?_
  refine (truthful_declName _).then (declName_reads _) hx fun name y hy => ?_
  exact (truthful_paramsUntil ht rfl y (hy.mono (by omega))).map

theorem truthful_record {sort : Record} {c : Cursor} (hc : s.Ready .start first 1 c)
    (hk : s.kindAt c.pos = sort.keyword) : (record term sort).Truthful s c := by
  have he := (Kind.plain_of_text? sort.isSome_text?).1
  refine truthful_bump_bind hc (hk ▸ he) fun x hx => ?_
  refine (truthful_declName _).then (declName_reads _) hx fun name y hy => ?_
  exact (truthful_fieldsUntil ht rfl y (hy.mono (by omega))).map

theorem truthful_traitBinding : (traitBinding term).TruthfulFrom s first 1 := by
  intro c hc
  refine truthful_descend_bind hc fun x hx => ?_
  exact truthful_bind (truthful_binding ht .free x hx) fun _ _ _ => Runs.truthful ⟨rfl, rfl⟩

theorem truthful_trait : (trait term).TruthfulFrom s first 1 := by
  intro c hc
  refine truthful_expect_bind hc rfl fun _ x hx => ?_
  refine (truthful_declName _).then (declName_reads _) hx fun name y hy => ?_
  have hbindings : (itemsUntil .braceClose (· = .kwLet) .trait [.kwLet, .braceClose]
      (traitBinding term)).TruthfulFrom s first 0 :=
    truthful_itemsUntil ((truthful_traitBinding ht).mono (Nat.zero_le 1))
      (traitBinding_reads ht.reads) Binding.yield_ne_nil rfl admits_keyword
  exact (hbindings y (hy.mono (by omega))).map

/-! ## Case distinctions -/

theorem truthful_branch : (branch term).TruthfulFrom s first 1 := by
  intro c hc
  have rest : ∀ (guard : Term) (x : Cursor) {n : Nat}, s.Ready .start first (0 - n) x →
      (body term .free >>= fun b => pure (Branch.mk guard b)).Truthful s x := fun guard x _ hx =>
    ((truthful_body ht .free).mono (by omega) x hx).map
  refine truthful_expect_bind hc rfl fun _ x hx => ?_
  refine truthful_cursor ?_
  refine (ht.truthful .free x hx).then (ht.reads .free) hx fun guard y hy => truthful_at? ?_
  split
  · exact (runs_pure.2 ⟨rfl, rfl⟩).then_truthful (rest guard y hy)
  · refine truthful_cursor (truthful_note (truthful_restore ?_))
    exact (ht.truthful .beforeArrow x hx).then (ht.reads .beforeArrow) hx fun g z hz => rest g z hz

theorem truthful_caseOf : (caseOf term).TruthfulFrom s first 1 := by
  intro c hc
  refine truthful_expect_bind hc rfl fun _ x hx => ?_
  refine truthful_expect_bind (hx.mono (Nat.zero_le 1)) rfl fun _ y hy => ?_
  have hbranches : (itemsUntil .braceClose (· = .kwWhen) .caseRule [.kwWhen, .braceClose]
      (branch term)).TruthfulFrom s first 0 :=
    truthful_itemsUntil ((truthful_branch ht).mono (Nat.zero_le 1)) (branch_reads ht.reads)
      Branch.yield_ne_nil rfl admits_keyword
  exact (hbranches y hy).map

/-! ## Functions and heads -/

theorem truthful_spread {r : Restrictions} {sort : Spread} {c : Cursor} (hc : s.Ready .start first 1 c)
    (hk : s.kindAt c.pos = sort.mark) : (spread term r sort).Truthful s c := by
  have he := (Kind.plain_of_text? sort.isSome_text?).1
  exact truthful_bump_bind hc (hk ▸ he) fun x hx => (ht.truthful r x hx).map

theorem truthful_generic (r : Restrictions) : (generic term r).TruthfulFrom s first 1 := by
  intro c hc
  refine truthful_expect_bind hc rfl fun _ x hx => ?_
  refine (truthful_paramsUntil ht rfl x hx).then (paramsUntil_reads ht.reads rfl _) hx
    fun ps y hy => ?_
  exact ((truthful_body ht r).mono (by omega) y hy).map

theorem truthful_typeList : (typeList term).TruthfulFrom s first 1 := fun _ hc =>
  truthful_expect_bind hc rfl fun _ => truthful_termsUntil ht rfl

theorem truthful_plainFunction {r : Restrictions} {c : Cursor} (hc : s.Ready .start first 1 c)
    (hk : s.kindAt c.pos = .parenOpen) : (plainFunction term r).Truthful s c := by
  refine truthful_bump_bind hc (by rw [hk]; decide) fun x hx => ?_
  refine (truthful_paramsUntil ht rfl x hx).then (paramsUntil_reads ht.reads rfl _) hx
    fun ps y hy => ?_
  exact ((truthful_body ht r).mono (by omega) y hy).map

/-- The result is read behind the list, the list from where the function began. -/
theorem truthful_withResult {r : Restrictions} {close : Nat} {c : Cursor}
    (hc : s.Ready .start first 1 c) (hk : s.kindAt c.pos = .parenOpen)
    (hclose : s.matchingClose? c.pos = some close) : (withResult term r close).Truthful s c := by
  have hlt := Stream.lt_of_matchingClose? (by rw [hk]; rfl) hclose
  have hsize := Stream.lt_size_of_kindAt hk (by decide)
  have hfirst := hc.first_le
  have hthere : s.Ready .start first 0 { c with pos := min (close + 2) s.tokens.size } :=
    { hc with
      pos_ge := Nat.zero_le _
      pos_le := Nat.min_le_right _ _
      first_le := by show first ≤ min (close + 2) s.tokens.size + 0; omega }
  refine truthful_cursor (truthful_seek ?_)
  refine (ht.truthful r _ hthere).then (ht.reads r) hthere fun result x hx => ?_
  refine truthful_cursor (truthful_kind ?_)
  refine truthful_note (truthful_restore ?_)
  split
  · refine truthful_bump_bind hc (by rw [hk]; decide) fun y hy => ?_
    refine truthful_bind (truthful_paramsUntil ht rfl y hy) fun ps z _ => ?_
    refine truthful_bind (truthful_expect .fun_ (by decide)) fun _ _ _ => ?_
    refine truthful_restore ?_
    exact ((truthful_body ht r).mono (by omega) x hx).map
  · refine truthful_bind (truthful_typeList ht c hc) fun ts z _ => ?_
    refine truthful_bind (truthful_expect .funOf (by decide)) fun _ _ _ => ?_
    exact truthful_restore (truthful_pure _)

/-- A list that is read to its end is closed by the bracket that the lookup finds. -/
theorem matchingClose?_of_typeList {c x : Cursor} {ts : List Term} (h : (typeList term).Runs s c ts x) :
    ∃ close, s.matchingClose? c.pos = some close ∧ x.pos = close + 1 := by
  have hrow := (typeList_reads ht.reads h).row
  have hlen := hrow.stop_eq
  simp only [Terminal.within, List.length_cons] at hlen
  exact ⟨x.pos - 1, Stream.matchingClose?_of_row (o := .parenOpen) rfl hrow (bracketed_termsYield ts),
    by omega⟩

theorem truthful_function {r : Restrictions} {c : Cursor} (hc : s.Ready .start first 1 c)
    (hk : s.kindAt c.pos = .parenOpen) : (function term r).Truthful s c := by
  refine Runs.then_truthful (runs_matchingClose?.2 ⟨rfl, rfl⟩) ?_
  cases hclose : s.matchingClose? c.pos with
  | none =>
    refine truthful_bind (truthful_typeList ht c hc) fun ts x hts => ?_
    obtain ⟨close, hsome, -⟩ := matchingClose?_of_typeList ht hts
    exact nomatch hclose.symm.trans hsome
  | some close =>
    refine Runs.then_truthful (runs_kindAt.2 ⟨rfl, rfl⟩) ?_
    split
    · exact truthful_plainFunction ht hc hk
    · exact truthful_withResult ht hc hk hclose
    · rename_i hfat harrow
      refine truthful_bind (truthful_typeList ht c hc) fun ts x hts => ?_
      obtain ⟨close', hsome, hpos⟩ := matchingClose?_of_typeList ht hts
      obtain rfl : close = close' := Option.some.inj (hclose.symm.trans hsome)
      rw [← hpos] at hfat harrow
      exact truthful_reject (List.cons_ne_nil _ _) fun hmem =>
        (List.mem_pair.1 hmem).elim harrow hfat

omit ht in
/-- No literal is rejected for want of a value. -/
theorem truthful_literal {c : Cursor} (hs : s.Valued) (hk : s.kindAt c.pos ∈ literalKinds) :
    literal.Truthful s c := by
  have hliteral : (s.kindAt c.pos).isLiteral = true := by
    revert hk
    generalize s.kindAt c.pos = k
    cases k <;> decide
  obtain ⟨t, htok, hkind⟩ := Stream.exists_token_of_kindAt rfl (s := s) (i := c.pos) fun he => by
    rw [he] at hliteral
    exact nomatch hliteral
  rw [literal_eq]
  refine truthful_current ?_
  rw [htok, Option.map_some]
  cases hterminal : t.terminal with
  | name text => exact truthful_bump.map
  | value l => exact truthful_bump.map
  | mark k =>
    have hplain := hs t (Array.mem_of_getElem? htok) k hterminal
    have hsame : t.kind = k := by rw [← Word.kind_terminal, hterminal, Terminal.kind_mark]
    rw [← hkind, hsame, hplain] at hliteral
    exact nomatch hliteral

theorem truthful_head (hs : s.Valued) (r : Restrictions) :
    (head term r).TruthfulFrom s first 1 := by
  intro c hc
  refine truthful_kind ?_
  cases hk : s.kindAt c.pos
  case kwBlock =>
    refine truthful_bump_bind hc (by rw [hk]; decide) fun x hx => ?_
    exact ((truthful_blocked ht .block).mono (Nat.zero_le 1) x hx).map
  case bracketOpen => exact truthful_generic ht r c hc
  case kwLet => exact (truthful_binding ht r c hc).map
  case kwFor => exact truthful_loop ht c hc
  case kwStructOf | kwEnumOf | kwTraitOf | kwKindOf => exact truthful_signature ht hc hk
  case kwStruct | kwEnum | kwKind => exact truthful_record ht hc hk
  case kwTrait => exact truthful_trait ht c hc
  case parenOpen => exact truthful_function ht hc hk
  case kwCase => exact truthful_caseOf ht c hc
  case star | starStar => exact truthful_spread ht hc hk
  case bool | ident | integer | decimal | string | char =>
    exact truthful_literal hs (by rw [hk]; decide)
  all_goals exact truthful_reject (List.cons_ne_nil _ _) (by rw [hk]; decide)

/-! ## Terms and programs -/

theorem truthful_termOf (hs : s.Valued) (r : Restrictions) : (termOf term r).TruthfulFrom s first 1 := by
  intro c hc
  refine truthful_descend_bind hc fun x hx => ?_
  refine truthful_bind (truthful_head ht hs r x hx) fun head y hhead => ?_
  have hy := (hx.reads (head_reads ht.reads r hhead).1).mono (n := 1) (by omega)
  have hchain : (chain term r head).Truthful s y :=
    (runs_remaining.2 ⟨rfl, rfl⟩).then_truthful (truthful_chainWithin ht r _ head y hy)
  exact truthful_bind hchain fun _ _ _ => Runs.truthful ⟨rfl, rfl⟩

end

variable {s : Stream}

/-- Levels that suffice for the tokens behind an index never run out. -/
theorem truthfulTerms_termWithin (hs : s.Valued) (levels first : Nat)
    (hlevels : s.tokens.size < first + levels) : TruthfulTerms s first (termWithin levels) := by
  induction levels generalizing first with
  | zero =>
    refine ⟨termWithin_reads 0, fun r c hc => ?_⟩
    have := hc.pos_le
    have := hc.first_le
    omega
  | succ levels ih =>
    refine ⟨termWithin_reads _, fun r c hc => ?_⟩
    have hfirst := hc.first_le
    have hbehind : s.Ready .start (c.pos + 1) 1 c := { hc with first_le := Nat.le_refl _ }
    exact truthful_termOf (ih (c.pos + 1) (by omega)) hs r c hbehind

theorem truthful_term (hs : s.Valued) (r : Restrictions) : (term r).TruthfulFrom s 0 0 := by
  intro c hc
  have hterms := truthfulTerms_termWithin hs (s.remaining c.pos) c.pos (by unfold Stream.remaining; omega)
  exact hterms.truthful r c { hc with first_le := Nat.le_refl _ }

theorem truthful_topTermsWithin (hs : s.Valued) (bound : Nat) :
    (topTermsWithin bound).TruthfulFrom s 0 0 := by
  induction bound with
  | zero => exact fun c _ => truthful_pure []
  | succ bound ih =>
    intro c hc
    refine truthful_at? ?_
    split
    · exact truthful_pure []
    · refine (truthful_term hs .free c hc).then (term_reads .free) hc fun t x hx => ?_
      exact (ih x (hx.mono (by omega))).map

/-- The end of the input is never missing where it is expected. -/
theorem truthful_program (hs : s.Valued) (hlast : s.kindAt (s.tokens.size - 1) = .eof)
    (hsize : 0 < s.tokens.size) : program.Truthful s .start := by
  have hstart : s.Ready .start 0 0 .start :=
    { pos_ge := Nat.le_refl _
      pos_le := Nat.zero_le _
      depth_ge := Nat.le_refl _
      depth_le := Nat.zero_le _
      first_le := Nat.le_refl _ }
  refine (runs_remaining.2 ⟨rfl, rfl⟩).then_truthful ?_
  refine truthful_bind (truthful_topTermsWithin hs _ _ hstart) fun ts x hts => ?_
  have heof := kindAt_of_topTermsWithin hts (Nat.zero_le _) (Nat.le_refl _)
  have hlt := (topTermsWithin_reads _ hts).row.stop_lt hsize hlast
  obtain ⟨t, ht⟩ : ∃ t, s.tokens[x.pos]? = some t := ⟨_, Array.getElem?_eq_getElem hlt⟩
  have hkind : t.kind = .eof := (Stream.kindAt_of_token ht).symm.trans heof
  exact (runs_expect_eof.2 ⟨ht, hkind, rfl⟩).then_truthful (truthful_pure _)

end Grammar

/-- Where a source that is read into tokens fails to be parsed because of a token, the error names some
kinds that would have been accepted; the kind that it found is none of them; and its kind, its text and
its position are those of one token. -/
theorem unexpected_not_expected {source : String} {ts : List Token} {maxDepth : Nat} {e : SyntaxError}
    {kinds : KindSet} (hts : tokenize source = .ok ts) (h : parseProgram ts maxDepth = .error e)
    (hkinds : e.fault = .unexpected kinds) :
    kinds.toList ≠ [] ∧ e.found ∉ kinds ∧
      ∃ t ∈ ts, e.found = t.kind ∧ e.lexeme = t.lexeme ∧ e.position = t.span.start := by
  have hprogram : Grammar.program.Truthful ⟨ts.toArray, maxDepth⟩ .start := by
    obtain ⟨row, q, rfl, hrow⟩ := tokensFrom_forall (P := Word.Whole) scan_whole hts
    refine Grammar.truthful_program (fun t ht k hk => ?_) (by simp [Stream.kindAt]) (by simp)
    rcases List.mem_append.1 (List.mem_toArray.1 ht) with hmem | hmem
    · exact (hrow t hmem).isLiteral_eq_false hk
    · obtain rfl := List.mem_singleton.1 hmem
      obtain rfl : Kind.eof = k := Terminal.mark.inj hk
      rfl
  obtain ⟨hne, hfound⟩ := hprogram e h kinds hkinds
  exact ⟨hne, hfound, exists_token_of_syntaxError hts h⟩

/-! A list that is read before the token behind it is rejected, and one that no bracket closes. -/

theorem unexpected_not_expected_lists :
    (∃ ts e, tokenize "(a) b" = .ok ts ∧ parseProgram ts 9 = .error e ∧
      e.fault = .unexpected (.ofList [.arrow, .fatArrow]) ∧ e.found = .ident ∧
      e.found ∉ KindSet.ofList [.arrow, .fatArrow]) ∧
    ∃ ts e, tokenize "(a" = .ok ts ∧ parseProgram ts 9 = .error e ∧
      e.fault = .unexpected (.ofList (.parenClose :: Grammar.termStart)) ∧ e.found = .eof ∧
      ∃ t ∈ ts, e.found = t.kind ∧ e.lexeme = t.lexeme ∧ e.position = t.span.start := by
  constructor
  · have hparse : parseSource "(a) b" 9 = .error (.syntactic
        ⟨.unexpected (.ofList [.arrow, .fatArrow]), .funOf, ⟨1, 5, 4⟩, .ident, "b"⟩) := by
      decide +kernel
    obtain ⟨ts, hts, h⟩ := exists_tokens_of_syntactic hparse
    exact ⟨ts, _, hts, h, rfl, rfl, (unexpected_not_expected hts h rfl).2.1⟩
  · have hparse : parseSource "(a" 9 = .error (.syntactic
        ⟨.unexpected (.ofList (.parenClose :: Grammar.termStart)), .funOf, ⟨1, 3, 2⟩, .eof, ""⟩) := by
      decide +kernel
    obtain ⟨ts, hts, h⟩ := exists_tokens_of_syntactic hparse
    exact ⟨ts, _, hts, h, rfl, rfl, (unexpected_not_expected hts h rfl).2.2⟩

end TermLang
