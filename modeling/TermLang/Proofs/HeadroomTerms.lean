import TermLang.Proofs.Headroom
import TermLang.Proofs.Steady

/-!
# The grammar on short inputs

No rule of the grammar runs into the nesting limit where there is room. A rule that begins with a
token of its own may be started right after a level was opened; the others are started between two
tokens. The result of a function is read from a place further on, where there is more room still.
-/

namespace TermLang

namespace Stream

theorem le_closeIn : ∀ {ts : List Token} {i opened j : Nat}, closeIn ts i opened = some j → i ≤ j
  | t :: ts, i, opened, j, h => by
    unfold closeIn at h
    split at h
    · have := le_closeIn h
      omega
    · split at h
      · cases h
      · exact Nat.le_of_eq (Option.some.inj h)
      · have := le_closeIn h
        omega
    · split at h
      · cases h
      · have := le_closeIn h
        omega

/-- Where a result is read there is room. -/
theorem Room.seek {s : Stream} {c : Cursor} {close : Nat} (hs : s.Roomy) (hc : s.Room 1 c)
    (hclose : s.matchingClose? c.pos = some close) (hk : s.kindAt c.pos = .parenOpen)
    (harrow : s.kindAt (close + 1) ≠ .eof) :
    s.Room 0 { c with pos := min (close + 2) s.tokens.size } := by
  have hlt := lt_of_matchingClose? (by rw [hk]; rfl) hclose
  have hsize : close + 1 < s.tokens.size := by
    by_contra hle
    exact harrow (kindAt_of_size_le (by omega))
  have hlast : close + 1 ≠ s.tokens.size - 1 := by
    intro he
    exact harrow (he ▸ hs.kindAt_last)
  have hd := hc.depth_le
  constructor
  · show c.depth ≤ min (close + 2) s.tokens.size + 0
    omega
  · show min (close + 2) s.tokens.size < s.tokens.size
    omega

end Stream

theorem Term.yield_ne_nil (t : Term) : t.yield ≠ [] := by
  cases t with
  | binding b => cases b <;> simp [Term.yield, Binding.yield]
  | _ => simp [Term.yield, Terminal.within]

theorem Param.yield_ne_nil (p : Param) : p.yield ≠ [] := by
  cases p
  exact List.cons_ne_nil _ _

theorem Field.yield_ne_nil (f : Field) : f.yield ≠ [] := by
  cases f <;> exact List.cons_ne_nil _ _

theorem Arg.yield_ne_nil (a : Arg) : a.yield ≠ [] := by
  cases a with
  | named f => exact f.yield_ne_nil
  | positional t => exact t.yield_ne_nil

theorem Binding.yield_ne_nil (b : Binding) : b.yield ≠ [] := by
  cases b <;> exact List.cons_ne_nil _ _

theorem Branch.yield_ne_nil (b : Branch) : b.yield ≠ [] := by
  cases b
  exact List.cons_ne_nil _ _

theorem Term.length_target_lt {t u : Term} (h : t.target? = some u) :
    u.yield.length < t.yield.length := by
  cases t <;> simp [target?] at h <;> subst h <;> simp [yield, Terminal.within]

namespace Grammar

open Parse

/-- A parser of terms on a stream with room: it reads terms, and between two tokens it does not meet
the limit. -/
structure ClearTerms (s : Stream) (term : TermParser) : Prop where
  roomy : s.Roomy
  reads : ReadsTerms term
  clear : ∀ r, (term r).Clear s 0

section

variable {s : Stream} {term : TermParser} (ht : ClearTerms s term)

include ht

/-! ## Annotations, parameters, fields and arguments -/

theorem clear_termsUntil {close : Kind} {rule : Rule} (htext : close.text?.isSome = true) :
    (termsUntil term close rule).Clear s 0 :=
  clear_itemsUntil ht.roomy (ht.clear .free) (ht.reads .free) htext

theorem clear_blocked (rule : Rule) : (blocked term rule).Clear s 1 := fun _ hc =>
  shallow_expect_bind ht.roomy hc rfl fun _ => clear_termsUntil ht rfl

theorem clear_anno (r : Restrictions) : (anno term r).Clear s 1 := by
  intro c hc
  refine shallow_expect_bind ht.roomy hc rfl fun _ c₁ hc₁ => ?_
  refine shallow_bind_ok (runs_kind.2 ⟨rfl, rfl⟩) ?_
  split
  · rename_i hk
    refine shallow_bump_bind ht.roomy (hc₁.mono (by omega)) hk rfl fun c₂ _ hc₂ => ?_
    refine shallow_bind_ok (runs_pure.2 ⟨rfl, rfl⟩) ?_
    exact shallow_bind (ht.clear r _ hc₂) fun _ _ _ => shallow_pure _
  · rename_i hk
    refine shallow_bump_bind ht.roomy (hc₁.mono (by omega)) hk rfl fun c₂ _ hc₂ => ?_
    refine shallow_bind_ok (runs_pure.2 ⟨rfl, rfl⟩) ?_
    exact shallow_bind (ht.clear r _ hc₂) fun _ _ _ => shallow_pure _
  · refine shallow_bind_ok (runs_pure.2 ⟨rfl, rfl⟩) ?_
    exact shallow_bind (ht.clear r _ hc₁) fun _ _ _ => shallow_pure _

theorem clear_anno? (r : Restrictions) : (anno? term r).Clear s 1 := by
  intro c hc
  refine shallow_bind_ok (runs_at?.2 ⟨rfl, rfl⟩) ?_
  split
  · exact shallow_bind (clear_anno ht r c hc) fun _ _ _ => shallow_pure _
  · exact shallow_pure none

theorem clear_param : (param term).Clear s 1 := by
  intro c hc
  refine shallow_expectIdent_bind ht.roomy hc fun name c₁ hc₁ => ?_
  exact shallow_bind ((clear_anno? ht .free).mono (by omega) c₁ hc₁) fun _ _ _ =>
    shallow_pure _

theorem clear_paramsUntil {close : Kind} {rule : Rule} (htext : close.text?.isSome = true) :
    (paramsUntil term close rule).Clear s 0 :=
  clear_itemsUntil ht.roomy ((clear_param ht).mono (by omega)) (param_reads ht.reads) htext

omit ht in
theorem shallow_shorthand {c : Cursor} : shorthand.Shallow s c :=
  shallow_bind (shallow_expectIdent .kwArg) fun _ _ _ => shallow_pure _

theorem clear_given : (given term).Clear s 1 := by
  intro c hc
  refine shallow_expectIdent_bind ht.roomy hc fun name c₁ hc₁ => ?_
  refine shallow_expect_bind ht.roomy (hc₁.mono (by omega)) rfl fun _ c₂ hc₂ => ?_
  exact shallow_bind (ht.clear .free c₂ hc₂) fun _ _ _ => shallow_pure _

theorem clear_annotatedName : (annotatedName term).Clear s 1 := by
  intro c hc
  refine shallow_expectIdent_bind ht.roomy hc fun name c₁ hc₁ => ?_
  refine ((clear_anno ht .beforeAssign).mono (by omega) c₁ hc₁).then
    (anno_reads ht.reads .beforeAssign) ht.roomy hc₁ fun type c₂ hc₂ => ?_
  exact shallow_bind (shallow_expect .equals .kwArg) fun _ _ _ => shallow_pure _

theorem clear_annotatedField? : (annotatedField? term).Clear s 0 := by
  intro c hc
  have hname := (clear_annotatedName ht).mono (Nat.zero_le 1) c hc
  refine shallow_bind hname.speculate fun found c₁ hrun => ?_
  rcases runs_speculate hrun with ⟨⟨name, type⟩, rfl, htried⟩ | ⟨rfl, rfl⟩
  · have hc₁ := (hc.reads ht.roomy (annotatedName_reads ht.reads htried)).mono (n := 0) (by omega)
    exact shallow_bind (ht.clear .free c₁ hc₁) fun _ _ _ => shallow_pure _
  · exact shallow_pure none

theorem clear_field : (field term).Clear s 0 := by
  intro c hc
  refine shallow_bind_ok (runs_nthKind.2 ⟨rfl, rfl⟩) ?_
  split
  · exact clear_given ht c (hc.mono (by omega))
  · refine shallow_bind (clear_annotatedField? ht c hc) fun found _ _ => ?_
    split
    · exact shallow_pure _
    · exact shallow_shorthand
  · exact shallow_shorthand

theorem clear_fieldsUntil {close : Kind} {rule : Rule} (htext : close.text?.isSome = true) :
    (fieldsUntil term close rule).Clear s 0 :=
  clear_itemsUntil ht.roomy (clear_field ht) (field_reads ht.reads) htext

theorem clear_positional : (positional term).Clear s 0 := fun c hc =>
  shallow_bind (ht.clear .free c hc) fun _ _ _ => shallow_pure _

theorem clear_arg : (arg term).Clear s 0 := by
  intro c hc
  have hterms := clear_positional ht c hc
  refine shallow_bind_ok (runs_at?.2 ⟨rfl, rfl⟩) ?_
  split
  · refine shallow_bind_ok (runs_nthKind.2 ⟨rfl, rfl⟩) ?_
    split
    · exact shallow_bind (clear_given ht c (hc.mono (by omega))) fun _ _ _ =>
        shallow_pure _
    · refine shallow_bind (clear_annotatedField? ht c hc) fun found c₁ hfound => ?_
      cases found with
      | some f => exact shallow_pure _
      | none =>
        have hc₁ := (hc.reads ht.roomy (annotatedField?_reads ht.reads hfound)).mono (n := 0) (by omega)
        exact clear_positional ht c₁ hc₁
    · exact hterms
  · exact hterms

theorem clear_argsUntil {close : Kind} {rule : Rule} (htext : close.text?.isSome = true) :
    (argsUntil term close rule).Clear s 0 :=
  clear_itemsUntil ht.roomy (clear_arg ht) (arg_reads ht.reads) htext

/-! ## Chains -/

/-- A link begins with a token, and is tried right after its level was opened. -/
theorem clear_link (r : Restrictions) (target : Term) : (link term r target).Clear s 1 := by
  intro c hc
  refine shallow_bind_ok (runs_kind.2 ⟨rfl, rfl⟩) ?_
  split
  · exact shallow_bind (shallow_of_ok rfl) fun _ _ _ =>
      shallow_bind (shallow_expectIdent .selector) fun _ _ _ => shallow_pure _
  · rename_i hk
    refine shallow_bump_bind ht.roomy hc hk rfl fun c₁ _ hc₁ => ?_
    exact shallow_bind (clear_argsUntil ht rfl _ hc₁) fun _ _ _ => shallow_pure _
  · rename_i hk
    refine shallow_bump_bind ht.roomy hc hk rfl fun c₁ _ hc₁ => ?_
    exact shallow_bind (clear_argsUntil ht rfl _ hc₁) fun _ _ _ => shallow_pure _
  · have happlier : (namedApplier term).Shallow s c :=
      shallow_expect_bind ht.roomy hc rfl fun _ => clear_fieldsUntil ht rfl
    refine shallow_bind happlier.speculate fun found _ _ => ?_
    split
    · exact shallow_pure _
    · exact shallow_of_ok rfl
  · rename_i hk
    refine shallow_bump_bind ht.roomy hc hk rfl fun c₁ _ hc₁ => ?_
    exact shallow_bind (ht.clear r _ hc₁) fun _ _ _ => shallow_pure _
  · exact shallow_pure none

theorem clear_chainWithin (r : Restrictions) (bound : Nat) (head : Term) :
    (chainWithin term r bound head).Clear s 0 := by
  induction bound generalizing head with
  | zero => exact fun _ _ => shallow_pure head
  | succ bound ih =>
    intro c hc
    refine shallow_bind_ok (runs_kind.2 ⟨rfl, rfl⟩) ?_
    split
    · refine shallow_bind_ok (a := ()) (runs_descend.2 ⟨hc.depth_lt ht.roomy, rfl⟩) ?_
      refine shallow_bind (clear_link ht r head _ hc.descend) fun found c₁ hlink => ?_
      rcases link_reads ht.reads hlink with ⟨longer, ys, rfl, hyield, hread, htarget⟩ | ⟨rfl, rfl⟩
      · have hlt := Term.length_target_lt htarget
        rw [hyield, List.length_append] at hlt
        have hc₁ := (hc.descend.reads ht.roomy hread).mono (n := 0) (by omega)
        exact shallow_bind (ih longer c₁ hc₁) fun _ _ _ => shallow_of_ok rfl
      · exact shallow_of_ok rfl
    · exact shallow_pure head

/-! ## Forms led by a keyword -/

theorem clear_body (r : Restrictions) : (body term r).Clear s 1 := by
  intro c hc
  refine shallow_expect_bind ht.roomy hc rfl fun _ c₁ hc₁ => ?_
  refine shallow_bind_ok (runs_at?.2 ⟨rfl, rfl⟩) ?_
  split
  · exact shallow_bind (clear_blocked ht .fatArrow c₁ (hc₁.mono (by omega))) fun _ _ _ =>
      shallow_pure _
  · exact shallow_bind (ht.clear r c₁ hc₁) fun _ _ _ => shallow_pure _

theorem clear_binding (r : Restrictions) : (binding term r).Clear s 1 := by
  intro c hc
  refine shallow_expect_bind ht.roomy hc rfl fun _ c₁ hc₁ => ?_
  refine shallow_expectIdent_bind ht.roomy (hc₁.mono (by omega)) fun name c₂ hc₂ => ?_
  refine shallow_bind_ok (runs_kind.2 ⟨rfl, rfl⟩) ?_
  split
  · refine (clear_anno? ht .beforeAssign c₂ (hc₂.mono (by omega))).then
      (anno?_reads ht.reads .beforeAssign) ht.roomy hc₂ fun type c₃ hc₃ => ?_
    refine shallow_expect_bind ht.roomy (hc₃.mono (by omega)) rfl fun _ c₄ hc₄ => ?_
    exact shallow_bind (ht.clear r c₄ hc₄) fun _ _ _ => shallow_pure _
  · exact shallow_pure _

theorem clear_loopHead : (loopHead term).Clear s 0 := by
  intro c hc
  refine shallow_bind_ok (runs_cursor.2 ⟨rfl, rfl⟩) ?_
  refine shallow_bind (ht.clear .free c hc) fun head c₁ _ => ?_
  refine shallow_bind_ok (runs_at?.2 ⟨rfl, rfl⟩) ?_
  split
  · exact shallow_pure head
  · have hopening : openingBefore?.Shallow s c₁ := by
      unfold openingBefore?
      intro e he
      dsimp only at he
      split at he <;> exact nomatch he
    refine shallow_bind hopening fun opening c₂ _ => ?_
    split
    · exact shallow_of_ok rfl
    · exact shallow_bind_ok (a := ()) (runs_restore.2 rfl) (ht.clear .beforeBody c hc)

theorem clear_loop : (loop term).Clear s 1 := by
  intro c hc
  refine shallow_expect_bind ht.roomy hc rfl fun _ c₁ hc₁ => ?_
  refine shallow_bind_ok (runs_at?.2 ⟨rfl, rfl⟩) (shallow_bind_ok (runs_nthKind.2 ⟨rfl, rfl⟩) ?_)
  have hrest : ∀ (f : Term → List Term → Term) (c' : Cursor), s.Room 0 c' →
      (do let t ← loopHead term; return f t (← blocked term .forRule) : Parse Term).Shallow s c' := by
    intro f c' hc'
    refine (clear_loopHead ht c' hc').then (loopHead_reads ht.reads) ht.roomy hc' fun t c₂ hc₂ => ?_
    exact shallow_bind (clear_blocked ht .forRule c₂ (hc₂.mono (by omega))) fun _ _ _ =>
      shallow_pure _
  split
  · rename_i hin
    refine shallow_bind (shallow_expectIdent .forRule) fun name c₂ hname => ?_
    have hread := expectIdent_reads .forRule hname
    have hkind : s.kindAt c₂.pos = .kwIn := by
      rw [hread.row.stop_eq]
      simp only [Bool.and_eq_true, beq_iff_eq] at hin
      exact hin.2
    have hc₂ := (hc₁.reads ht.roomy hread).mono (n := 1) (by omega)
    refine shallow_bump_bind ht.roomy hc₂ hkind rfl fun c₃ _ hc₃ => ?_
    exact hrest (.forEach name) c₃ hc₃
  · refine shallow_bind_ok (runs_at?.2 ⟨rfl, rfl⟩) ?_
    split
    · exact shallow_bind (clear_blocked ht .forRule c₁ (hc₁.mono (by omega))) fun _ _ _ =>
        shallow_pure _
    · exact hrest .forWhile c₁ hc₁

omit ht in
theorem shallow_declName {c : Cursor} (rule : Rule) : (declName rule).Shallow s c := by
  have hbrace : ∀ (f : Bool → Parse (Option String)) (c' : Cursor),
      (∀ b c'', (f b).Shallow s c'') → (skip .braceOpen >>= f).Shallow s c' :=
    fun f c' hf => shallow_bind (shallow_skip .braceOpen) fun b c'' _ => hf b c''
  refine shallow_bind_ok (runs_current.2 ⟨rfl, rfl⟩) ?_
  split
  · split
    · refine shallow_bind (shallow_of_ok rfl) fun _ c' _ => hbrace _ c' fun b c'' => ?_
      split
      · exact shallow_pure _
      · exact shallow_reject rule _
    · refine hbrace _ c fun b c'' => ?_
      split
      · exact shallow_pure _
      · exact shallow_reject rule _
  · exact shallow_reject rule _

theorem clear_signature {sort : Signature} {c : Cursor} (hc : s.Room 1 c)
    (hk : s.kindAt c.pos = sort.keyword) : (signature term sort).Shallow s c := by
  refine shallow_bump_bind ht.roomy hc hk sort.isSome_text? fun c₁ _ hc₁ => ?_
  refine (shallow_declName _).then (declName_reads _) ht.roomy hc₁ fun name c₂ hc₂ => ?_
  exact shallow_bind (clear_paramsUntil ht rfl c₂ hc₂) fun _ _ _ => shallow_pure _

theorem clear_record {sort : Record} {c : Cursor} (hc : s.Room 1 c)
    (hk : s.kindAt c.pos = sort.keyword) : (record term sort).Shallow s c := by
  refine shallow_bump_bind ht.roomy hc hk sort.isSome_text? fun c₁ _ hc₁ => ?_
  refine (shallow_declName _).then (declName_reads _) ht.roomy hc₁ fun name c₂ hc₂ => ?_
  exact shallow_bind (clear_fieldsUntil ht rfl c₂ hc₂) fun _ _ _ => shallow_pure _

/-- The keyword of a binding pays for the level that the trait opens for it. -/
theorem clear_traitBinding : (traitBinding term).Clear s 0 := by
  intro c hc
  refine shallow_bind_ok (a := ()) (runs_descend.2 ⟨hc.depth_lt ht.roomy, rfl⟩) ?_
  exact shallow_bind (clear_binding ht .free _ hc.descend) fun _ _ _ => shallow_of_ok rfl

theorem clear_trait : (trait term).Clear s 1 := by
  intro c hc
  refine shallow_expect_bind ht.roomy hc rfl fun _ c₁ hc₁ => ?_
  refine (shallow_declName _).then (declName_reads _) ht.roomy hc₁ fun name c₂ hc₂ => ?_
  have hbindings : (itemsUntil .braceClose (· = .kwLet) .trait [.kwLet, .braceClose]
      (traitBinding term)).Clear s 0 :=
    clear_itemsUntil ht.roomy (clear_traitBinding ht) (traitBinding_reads ht.reads) rfl
  exact shallow_bind (hbindings c₂ hc₂) fun _ _ _ => shallow_pure _

theorem clear_branch : (branch term).Clear s 1 := by
  intro c hc
  refine shallow_expect_bind ht.roomy hc rfl fun _ c₁ hc₁ => ?_
  refine shallow_bind_ok (runs_cursor.2 ⟨rfl, rfl⟩) ?_
  have hbody : ∀ (guard : Term) (c' : Cursor), s.Room 0 c' →
      (do return .mk guard (← body term .free) : Parse Branch).Shallow s c' := fun guard c' hc' =>
    shallow_bind (clear_body ht .free c' (hc'.mono (by omega))) fun _ _ _ => shallow_pure _
  refine (ht.clear .free c₁ hc₁).then (ht.reads .free) ht.roomy hc₁ fun first c₂ hc₂ => ?_
  refine shallow_bind_ok (runs_at?.2 ⟨rfl, rfl⟩) ?_
  split
  · exact shallow_bind_ok (runs_pure.2 ⟨rfl, rfl⟩) (hbody first c₂ hc₂)
  · refine shallow_bind_ok (runs_cursor.2 ⟨rfl, rfl⟩) ?_
    refine shallow_bind_ok (a := ()) (runs_note.2 rfl) ?_
    refine shallow_bind_ok (a := ()) (runs_restore.2 rfl) ?_
    exact (ht.clear .beforeArrow c₁ hc₁).then (ht.reads .beforeArrow) ht.roomy hc₁ hbody

theorem clear_caseOf : (caseOf term).Clear s 1 := by
  intro c hc
  refine shallow_expect_bind ht.roomy hc rfl fun _ c₁ hc₁ => ?_
  refine shallow_expect_bind ht.roomy (hc₁.mono (by omega)) rfl fun _ c₂ hc₂ => ?_
  have hbranches : (itemsUntil .braceClose (· = .kwWhen) .caseRule [.kwWhen, .braceClose]
      (branch term)).Clear s 0 :=
    clear_itemsUntil ht.roomy ((clear_branch ht).mono (by omega)) (branch_reads ht.reads) rfl
  exact shallow_bind (hbranches c₂ hc₂) fun _ _ _ => shallow_pure _

/-! ## Heads and terms -/

omit ht in
theorem shallow_literal {c : Cursor} : literal.Shallow s c := by
  rw [literal_eq]
  refine shallow_bind_ok (runs_current.2 ⟨rfl, rfl⟩) ?_
  unfold readTerminal
  split
  · exact shallow_of_ok rfl
  · exact shallow_of_ok rfl
  · exact shallow_reject .term termStart

theorem clear_spread {r : Restrictions} {sort : Spread} {c : Cursor} (hc : s.Room 1 c)
    (hk : s.kindAt c.pos = sort.mark) : (spread term r sort).Shallow s c := by
  refine shallow_bump_bind ht.roomy hc hk sort.isSome_text? fun c₁ _ hc₁ => ?_
  exact shallow_bind (ht.clear r c₁ hc₁) fun _ _ _ => shallow_pure _

theorem clear_generic (r : Restrictions) : (generic term r).Clear s 1 := by
  intro c hc
  refine shallow_expect_bind ht.roomy hc rfl fun _ c₁ hc₁ => ?_
  refine (clear_paramsUntil ht rfl c₁ hc₁).then
    (paramsUntil_reads ht.reads rfl _) ht.roomy hc₁ fun params c₂ hc₂ => ?_
  exact shallow_bind (clear_body ht r c₂ (hc₂.mono (by omega))) fun _ _ _ => shallow_pure _

theorem clear_typeList : (typeList term).Clear s 1 := fun _ hc =>
  shallow_expect_bind ht.roomy hc rfl fun _ => clear_termsUntil ht rfl

theorem clear_plainFunction {r : Restrictions} {c : Cursor} (hc : s.Room 1 c)
    (hk : s.kindAt c.pos = .parenOpen) : (plainFunction term r).Shallow s c := by
  refine shallow_bump_bind ht.roomy hc hk rfl fun c₁ _ hc₁ => ?_
  refine (clear_paramsUntil ht rfl c₁ hc₁).then
    (paramsUntil_reads ht.reads rfl _) ht.roomy hc₁ fun params c₂ hc₂ => ?_
  exact shallow_bind (clear_body ht r c₂ (hc₂.mono (by omega))) fun _ _ _ => shallow_pure _

/-- There is room behind the arrow, and, once the result has been read, behind the result. -/
theorem clear_withResult {r : Restrictions} {close : Nat} {c : Cursor} (hc : s.Room 1 c)
    (hk : s.kindAt c.pos = .parenOpen) (hclose : s.matchingClose? c.pos = some close)
    (harrow : s.kindAt (close + 1) ≠ .eof) : (withResult term r close).Shallow s c := by
  have hc₁ := hc.seek ht.roomy hclose hk harrow
  refine shallow_bind_ok (runs_cursor.2 ⟨rfl, rfl⟩) ?_
  refine shallow_bind_ok (a := ()) (runs_seek.2 rfl) ?_
  refine (ht.clear r _ hc₁).then (ht.reads r) ht.roomy hc₁ fun result c₂ hc₂ => ?_
  refine shallow_bind_ok (runs_cursor.2 ⟨rfl, rfl⟩) (shallow_bind_ok (runs_kind.2 ⟨rfl, rfl⟩) ?_)
  refine shallow_bind_ok (a := ()) (runs_note.2 rfl) ?_
  refine shallow_bind_ok (a := ()) (runs_restore.2 rfl) ?_
  split
  · refine shallow_bump_bind ht.roomy hc hk rfl fun c₃ _ hc₃ => ?_
    refine shallow_bind (clear_paramsUntil ht rfl c₃ hc₃) fun params c₄ _ => ?_
    refine shallow_bind (shallow_expect .arrow .fun_) fun _ c₅ _ => ?_
    refine shallow_bind_ok (a := ()) (runs_restore.2 rfl) ?_
    exact shallow_bind (clear_body ht r c₂ (hc₂.mono (by omega))) fun _ _ _ => shallow_pure _
  · refine shallow_bind (clear_typeList ht c hc) fun params c₄ _ => ?_
    exact shallow_bind (shallow_expect .arrow .funOf) fun _ _ _ => shallow_of_ok rfl

theorem clear_function {r : Restrictions} {c : Cursor} (hc : s.Room 1 c)
    (hk : s.kindAt c.pos = .parenOpen) : (function term r).Shallow s c := by
  have hlist : ∀ kinds, (do let _ ← typeList term; reject .funOf kinds : Parse Term).Shallow s c :=
    fun kinds => shallow_bind (clear_typeList ht c hc) fun _ _ _ => shallow_reject .funOf kinds
  refine shallow_bind_ok (runs_matchingClose?.2 ⟨rfl, rfl⟩) ?_
  split
  · exact hlist _
  · rename_i close hclose
    refine shallow_bind_ok (runs_kindAt.2 ⟨rfl, rfl⟩) ?_
    split
    · exact clear_plainFunction ht hc hk
    · rename_i harrow
      exact clear_withResult ht hc hk hclose (by rw [harrow]; decide)
    · exact hlist _

/-- A head begins with a token, and is read right after its level was opened. -/
theorem clear_head (r : Restrictions) : (head term r).Clear s 1 := by
  intro c hc
  refine shallow_bind_ok (runs_kind.2 ⟨rfl, rfl⟩) ?_
  split
  · rename_i hk
    refine shallow_bump_bind ht.roomy hc hk rfl fun c₁ _ hc₁ => ?_
    exact shallow_bind (clear_blocked ht .block c₁ (hc₁.mono (by omega))) fun _ _ _ =>
      shallow_pure _
  · exact clear_generic ht r c hc
  · exact shallow_bind (clear_binding ht r c hc) fun _ _ _ => shallow_pure _
  · exact clear_loop ht c hc
  · exact clear_signature ht hc ‹_›
  · exact clear_signature ht hc ‹_›
  · exact clear_signature ht hc ‹_›
  · exact clear_signature ht hc ‹_›
  · exact clear_record ht hc ‹_›
  · exact clear_record ht hc ‹_›
  · exact clear_record ht hc ‹_›
  · exact clear_trait ht c hc
  · exact clear_function ht hc ‹_›
  · exact clear_caseOf ht c hc
  · exact clear_spread ht hc ‹_›
  · exact clear_spread ht hc ‹_›
  · exact shallow_literal
  · exact shallow_literal
  · exact shallow_literal
  · exact shallow_literal
  · exact shallow_literal
  · exact shallow_literal
  · exact shallow_reject .term termStart

theorem clear_termOf (r : Restrictions) : (termOf term r).Clear s 0 := by
  intro c hc
  refine shallow_bind_ok (a := ()) (runs_descend.2 ⟨hc.depth_lt ht.roomy, rfl⟩) ?_
  refine shallow_bind (clear_head ht r _ hc.descend) fun first c₁ hfirst => ?_
  have hlen := List.length_pos_iff.2 first.yield_ne_nil
  have hc₁ := (hc.descend.reads ht.roomy (head_reads ht.reads r hfirst).1).mono (n := 0) (by omega)
  have hchain : (chain term r first).Shallow s c₁ :=
    shallow_bind_ok (runs_remaining.2 ⟨rfl, rfl⟩) (clear_chainWithin ht r _ first c₁ hc₁)
  exact shallow_bind hchain fun _ _ _ => shallow_of_ok rfl

end

theorem clear_termWithin {s : Stream} (hs : s.Roomy) (levels : Nat) (r : Restrictions) :
    (termWithin levels r).Clear s 0 := by
  induction levels generalizing r with
  | zero => exact fun _ _ => shallow_reject .term termStart
  | succ levels ih => exact clear_termOf ⟨hs, termWithin_reads levels, ih⟩ r

theorem clear_term {s : Stream} (hs : s.Roomy) (r : Restrictions) : (term r).Clear s 0 :=
  fun c hc => clear_termWithin hs (s.remaining c.pos) r c hc

theorem clear_topTermsWithin {s : Stream} (hs : s.Roomy) (bound : Nat) :
    (topTermsWithin bound).Clear s 0 := by
  induction bound with
  | zero => exact fun _ _ => shallow_pure []
  | succ bound ih =>
    intro c hc
    refine shallow_bind_ok (runs_at?.2 ⟨rfl, rfl⟩) ?_
    split
    · exact shallow_pure []
    · refine (clear_term hs .free c hc).then (term_reads .free) hs hc fun t c₁ hc₁ => ?_
      exact shallow_bind (ih c₁ hc₁) fun _ _ _ => shallow_pure _

/-- The parser of programs does not meet the limit where there is room. -/
theorem clear_program {s : Stream} (hs : s.Roomy) : program.Clear s 0 := by
  intro c hc
  refine shallow_bind_ok (runs_remaining.2 ⟨rfl, rfl⟩) ?_
  refine shallow_bind (clear_topTermsWithin hs _ c hc) fun ts c₁ _ => ?_
  exact shallow_bind (shallow_expect .eof .program) fun _ _ _ => shallow_pure _

/-! ## The end of a program -/

/-- Rounds that suffice for the tokens that are left lead to the end of the input. -/
theorem kindAt_of_topTermsWithin {s : Stream} {bound : Nat} {c x : Cursor} {ts : List Term}
    (h : (topTermsWithin bound).Runs s c ts x) (hle : c.pos ≤ s.tokens.size)
    (hbound : s.remaining c.pos ≤ bound) : s.kindAt x.pos = .eof := by
  induction bound generalizing c ts with
  | zero =>
    unfold Stream.remaining at hbound
    omega
  | succ bound ih =>
    simp only [topTermsWithin, atEnd, runs_bind, runs_at?] at h
    obtain ⟨_, _, ⟨rfl, rfl⟩, h⟩ := h
    split at h
    · obtain ⟨-, rfl⟩ := runs_pure.1 h
      exact of_decide_eq_true ‹_›
    · simp only [runs_bind, runs_pure] at h
      obtain ⟨t, y, ht, others, _, hothers, -, rfl⟩ := h
      have hrow := (term_reads .free ht).row
      have hstop := hrow.stop_eq
      have hlen := List.length_pos_iff.2 t.yield_ne_nil
      refine ih hothers (hrow.stop_le hle) ?_
      unfold Stream.remaining at hbound ⊢
      omega

end Grammar

end TermLang
