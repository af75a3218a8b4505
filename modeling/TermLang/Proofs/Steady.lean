import TermLang.Proofs.Alike

/-!
# The grammar is steady

Every rule of the grammar reads tokens by their terminals alone, and meets the nesting limit only in
opening a level. So each rule is steady if the parser of terms given to it is, the parser of terms is
steady by induction on the number of terms open inside one another, and so is the parser of programs.
-/

namespace TermLang.Grammar

open Parse

/-- A literal or an identifier, from the terminal of the current token. -/
def readTerminal : Option Terminal → Parse Term
  | some (.name text) => bump >>= fun _ => pure (.ident text)
  | some (.value l) => bump >>= fun _ => pure (.literal l)
  | _ => reject .term termStart

theorem literal_eq : literal = current >>= fun t => readTerminal (t.map (·.terminal)) := by
  unfold literal
  congr 1
  funext t
  rcases t with _ | t
  · rfl
  · dsimp only [Option.map_some, Word.terminal]
    split <;> simp_all [readTerminal]

section

variable {term : TermParser} (hterm : ∀ r, (term r).Steady)

include hterm

/-! ## Annotations, parameters, fields and arguments -/

theorem steady_termsUntil (close : Kind) (rule : Rule) : (termsUntil term close rule).Steady :=
  Steady.itemsUntil (hterm .free)

theorem steady_blocked (rule : Rule) : (blocked term rule).Steady :=
  Steady.after_expect (steady_termsUntil hterm .braceClose .blocked) .braceOpen rule

theorem steady_anno (r : Restrictions) : (anno term r).Steady := by
  refine Steady.after_expect (steady_kind.bind fun k => ?_) .colon .anno
  split
  · exact steady_bump.bind fun _ => (steady_pure _).bind fun _ => (hterm r).bind fun _ => steady_pure _
  · exact steady_bump.bind fun _ => (steady_pure _).bind fun _ => (hterm r).bind fun _ => steady_pure _
  · exact (steady_pure _).bind fun _ => (hterm r).bind fun _ => steady_pure _

theorem steady_anno? (r : Restrictions) : (anno? term r).Steady := by
  refine (steady_at? .colon).bind fun b => ?_
  split
  · exact (steady_anno hterm r).bind fun _ => steady_pure _
  · exact steady_pure none

theorem steady_param : (param term).Steady :=
  (steady_expectIdent .param).bind fun _ => (steady_anno? hterm .free).bind fun _ => steady_pure _

theorem steady_paramsUntil (close : Kind) (rule : Rule) : (paramsUntil term close rule).Steady :=
  Steady.itemsUntil (steady_param hterm)

omit hterm in
theorem steady_shorthand : shorthand.Steady :=
  (steady_expectIdent .kwArg).bind fun _ => steady_pure _

theorem steady_given : (given term).Steady := by
  refine (steady_expectIdent .kwArg).bind fun name => ?_
  exact Steady.after_expect ((hterm .free).bind fun _ => steady_pure _) .equals .kwArg

theorem steady_annotatedName : (annotatedName term).Steady := by
  refine (steady_expectIdent .kwArg).bind fun name => (steady_anno hterm .beforeAssign).bind ?_
  exact fun type => Steady.after_expect (steady_pure _) .equals .kwArg

theorem steady_annotatedField? : (annotatedField? term).Steady := by
  refine (steady_annotatedName hterm).speculate.bind fun found => ?_
  split
  · exact (hterm .free).bind fun _ => steady_pure _
  · exact steady_pure none

theorem steady_field : (field term).Steady := by
  refine (steady_nthKind 1).bind fun k => ?_
  split
  · exact steady_given hterm
  · refine (steady_annotatedField? hterm).bind fun found => ?_
    split
    · exact steady_pure _
    · exact steady_shorthand
  · exact steady_shorthand

theorem steady_fieldsUntil (close : Kind) (rule : Rule) : (fieldsUntil term close rule).Steady :=
  Steady.itemsUntil (steady_field hterm)

theorem steady_positional : (positional term).Steady := (hterm .free).bind fun _ => steady_pure _

theorem steady_arg : (arg term).Steady := by
  refine (steady_at? .ident).bind fun b => ?_
  split
  · refine (steady_nthKind 1).bind fun k => ?_
    split
    · exact (steady_given hterm).bind fun _ => steady_pure _
    · refine (steady_annotatedField? hterm).bind fun found => ?_
      split
      · exact steady_pure _
      · exact steady_positional hterm
    · exact steady_positional hterm
  · exact steady_positional hterm

theorem steady_argsUntil (close : Kind) (rule : Rule) : (argsUntil term close rule).Steady :=
  Steady.itemsUntil (steady_arg hterm)

/-! ## Chains -/

theorem steady_namedApplier : (namedApplier term).Steady :=
  Steady.after_expect (steady_fieldsUntil hterm .braceClose .namedApplier) .braceOpen .namedApplier

theorem steady_link (r : Restrictions) (target : Term) : (link term r target).Steady := by
  refine steady_kind.bind fun k => ?_
  split
  · exact steady_bump.bind fun _ => (steady_expectIdent .selector).bind fun _ => steady_pure _
  · exact steady_bump.bind fun _ => (steady_argsUntil hterm _ _).bind fun _ => steady_pure _
  · exact steady_bump.bind fun _ => (steady_argsUntil hterm _ _).bind fun _ => steady_pure _
  · refine (steady_namedApplier hterm).speculate.bind fun found => ?_
    split
    · exact steady_pure _
    · exact steady_cursor.bind fun _ => (steady_note _).bind fun _ => steady_pure none
  · exact steady_bump.bind fun _ => (hterm r).bind fun _ => steady_pure _
  · exact steady_pure none

theorem steady_chainWithin (r : Restrictions) (bound : Nat) (head : Term) :
    (chainWithin term r bound head).Steady := by
  induction bound generalizing head with
  | zero => exact steady_pure head
  | succ bound ih =>
    refine steady_kind.bind fun k => ?_
    split
    · refine steady_descend.bind fun _ => (steady_link hterm r head).bind fun found => ?_
      split
      · exact (ih _).bind fun _ => steady_ascend.bind fun _ => steady_pure _
      · exact steady_ascend.bind fun _ => steady_pure head
    · exact steady_pure head

theorem steady_chain (r : Restrictions) (head : Term) : (chain term r head).Steady :=
  steady_remaining.bind fun bound => steady_chainWithin hterm r bound head

/-! ## Forms led by a keyword -/

theorem steady_body (r : Restrictions) : (body term r).Steady := by
  refine Steady.after_expect ((steady_at? .braceOpen).bind fun b => ?_) .fatArrow .fatArrow
  split
  · exact (steady_blocked hterm .fatArrow).bind fun _ => steady_pure _
  · exact (hterm r).bind fun _ => steady_pure _

theorem steady_binding (r : Restrictions) : (binding term r).Steady := by
  refine Steady.after_expect ((steady_expectIdent .letRule).bind fun name => ?_) .kwLet .letRule
  refine steady_kind.bind fun next => ?_
  split
  · refine (steady_anno? hterm .beforeAssign).bind fun type => ?_
    exact Steady.after_expect ((hterm r).bind fun _ => steady_pure _) .equals .letRule
  · exact steady_pure _

/-- A loop head is read again, or cut down, by what both streams show after it. -/
theorem steady_loopHead : (loopHead term).Steady := by
  refine steady_cursor.bind fun start => (hterm .free).bind fun head => ?_
  refine (steady_at? .braceOpen).bind fun b => ?_
  split
  · exact steady_pure head
  · refine steady_openingBefore?.bind fun opening => ?_
    split
    · exact (steady_note _).bind fun _ => (steady_seek _).bind fun _ => steady_pure _
    · exact (steady_restore start).bind fun _ => hterm .beforeBody

theorem steady_loop : (loop term).Steady := by
  refine Steady.after_expect ((steady_at? .ident).bind fun b => ?_) .kwFor .forRule
  refine (steady_nthKind 1).bind fun k => ?_
  split
  · refine (steady_expectIdent .forRule).bind fun name => steady_bump.bind fun _ => ?_
    refine (steady_loopHead hterm).bind fun source => ?_
    exact (steady_blocked hterm .forRule).bind fun _ => steady_pure _
  · refine (steady_at? .braceOpen).bind fun b => ?_
    split
    · exact (steady_blocked hterm .forRule).bind fun _ => steady_pure _
    · refine (steady_loopHead hterm).bind fun condition => ?_
      exact (steady_blocked hterm .forRule).bind fun _ => steady_pure _

omit hterm in
theorem steady_declName (rule : Rule) : (declName rule).Steady := by
  refine agrees_current.bind fun t t' ht => ?_
  rcases t with _ | t <;> rcases t' with _ | t' <;> simp only [Option.map_none, Option.map_some,
    reduceCtorEq, Option.some.injEq] at ht
  · exact steady_reject rule _
  · have hk : t'.kind = t.kind := (Word.kind_eq_of_terminal_eq ht).symm
    dsimp only
    rw [hk]
    by_cases hi : t.kind = .ident
    · rw [Word.terminal_ident hi, Word.terminal_ident (hk.trans hi), Terminal.name.injEq] at ht
      rw [if_pos hi, if_pos hi, ht]
      refine steady_bump.bind fun _ => (steady_skip .braceOpen).bind fun b => ?_
      split
      · exact steady_pure _
      · exact steady_reject rule _
    · rw [if_neg hi, if_neg hi]
      refine (steady_skip .braceOpen).bind fun b => ?_
      split
      · exact steady_pure none
      · exact steady_reject rule _

theorem steady_signature (sort : Signature) : (signature term sort).Steady := by
  refine steady_bump.bind fun _ => (steady_declName _).bind fun name => ?_
  exact (steady_paramsUntil hterm _ _).bind fun _ => steady_pure _

theorem steady_record (sort : Record) : (record term sort).Steady := by
  refine steady_bump.bind fun _ => (steady_declName _).bind fun name => ?_
  exact (steady_fieldsUntil hterm _ _).bind fun _ => steady_pure _

theorem steady_traitBinding : (traitBinding term).Steady :=
  steady_descend.bind fun _ => (steady_binding hterm .free).bind fun _ =>
    steady_ascend.bind fun _ => steady_pure _

theorem steady_trait : (trait term).Steady := by
  refine Steady.after_expect ((steady_declName .trait).bind fun name => ?_) .kwTrait .trait
  exact (Steady.itemsUntil (steady_traitBinding hterm)).bind fun _ => steady_pure _

theorem steady_branch : (branch term).Steady := by
  refine Steady.after_expect (steady_cursor.bind fun start => ?_) .kwWhen .whenRule
  refine (hterm .free).bind fun first => (steady_at? .fatArrow).bind fun b => ?_
  split
  · exact (steady_pure first).bind fun _ => (steady_body hterm .free).bind fun _ => steady_pure _
  · refine steady_cursor.bind fun _ => (steady_note _).bind fun _ => (steady_restore start).bind ?_
    exact fun _ => (hterm .beforeArrow).bind fun _ => (steady_body hterm .free).bind fun _ =>
      steady_pure _

theorem steady_caseOf : (caseOf term).Steady := by
  refine Steady.after_expect (Steady.after_expect ?_ .braceOpen .caseRule) .kwCase .caseRule
  exact (Steady.itemsUntil (steady_branch hterm)).bind fun _ => steady_pure _

/-! ## Heads and terms -/

omit hterm in
theorem steady_literal : literal.Steady := by
  rw [literal_eq]
  refine agrees_current.bind fun t t' ht => ?_
  rw [ht]
  unfold readTerminal
  split
  · exact steady_bump.bind fun _ => steady_pure _
  · exact steady_bump.bind fun _ => steady_pure _
  · exact steady_reject .term termStart

theorem steady_spread (r : Restrictions) (sort : Spread) : (spread term r sort).Steady :=
  steady_bump.bind fun _ => (hterm r).bind fun _ => steady_pure _

theorem steady_generic (r : Restrictions) : (generic term r).Steady := by
  refine Steady.after_expect ((steady_paramsUntil hterm _ _).bind fun params => ?_) _ _
  exact (steady_body hterm r).bind fun _ => steady_pure _

theorem steady_typeList : (typeList term).Steady :=
  Steady.after_expect (steady_termsUntil hterm _ _) _ _

theorem steady_plainFunction (r : Restrictions) : (plainFunction term r).Steady := by
  refine steady_bump.bind fun _ => (steady_paramsUntil hterm _ _).bind fun params => ?_
  exact (steady_body hterm r).bind fun _ => steady_pure _

theorem steady_withResult (r : Restrictions) (close : Nat) : (withResult term r close).Steady := by
  refine steady_cursor.bind fun start => (steady_seek _).bind fun _ => (hterm r).bind fun result => ?_
  refine steady_cursor.bind fun after => steady_kind.bind fun k => (steady_note _).bind fun _ => ?_
  refine (steady_restore start).bind fun _ => ?_
  split
  · refine steady_bump.bind fun _ => (steady_paramsUntil hterm _ _).bind fun params => ?_
    refine Steady.after_expect ((steady_restore after).bind fun _ => ?_) _ _
    exact (steady_body hterm r).bind fun _ => steady_pure _
  · refine (steady_typeList hterm).bind fun params => ?_
    exact Steady.after_expect ((steady_restore after).bind fun _ => steady_pure _) _ _

theorem steady_function (r : Restrictions) : (function term r).Steady := by
  refine steady_matchingClose?.bind fun found => ?_
  split
  · exact (steady_typeList hterm).bind fun _ => steady_reject _ _
  · refine (steady_kindAt _).bind fun k => ?_
    split
    · exact steady_plainFunction hterm r
    · exact steady_withResult hterm r _
    · exact (steady_typeList hterm).bind fun _ => steady_reject _ _

theorem steady_head (r : Restrictions) : (head term r).Steady := by
  refine steady_kind.bind fun k => ?_
  split
  · exact steady_bump.bind fun _ => (steady_blocked hterm _).bind fun _ => steady_pure _
  · exact steady_generic hterm r
  · exact (steady_binding hterm r).bind fun _ => steady_pure _
  · exact steady_loop hterm
  · exact steady_signature hterm _
  · exact steady_signature hterm _
  · exact steady_signature hterm _
  · exact steady_signature hterm _
  · exact steady_record hterm _
  · exact steady_record hterm _
  · exact steady_record hterm _
  · exact steady_trait hterm
  · exact steady_function hterm r
  · exact steady_caseOf hterm
  · exact steady_spread hterm r _
  · exact steady_spread hterm r _
  · exact steady_literal
  · exact steady_literal
  · exact steady_literal
  · exact steady_literal
  · exact steady_literal
  · exact steady_literal
  · exact steady_reject _ _

theorem steady_termOf (r : Restrictions) : (termOf term r).Steady := by
  refine steady_descend.bind fun _ => (steady_head hterm r).bind fun first => ?_
  exact (steady_chain hterm r first).bind fun _ => steady_ascend.bind fun _ => steady_pure _

end

theorem steady_termWithin (levels : Nat) (r : Restrictions) : (termWithin levels r).Steady := by
  induction levels generalizing r with
  | zero => exact (steady_reject .term termStart).called
  | succ levels ih => exact (steady_termOf ih r).called

/-- The parser of terms is steady. -/
theorem steady_term (r : Restrictions) : (term r).Steady := by
  intro s s' h c
  unfold term
  rw [h.remaining_eq]
  exact steady_termWithin _ r h c

theorem steady_topTermsWithin (bound : Nat) : (topTermsWithin bound).Steady := by
  induction bound with
  | zero => exact steady_pure []
  | succ bound ih =>
    refine (steady_at? .eof).bind fun b => ?_
    split
    · exact steady_pure []
    · exact (steady_term .free).bind fun _ => ih.bind fun _ => steady_pure _

/-- The parser of programs is steady. -/
theorem steady_program : program.Steady := by
  refine steady_remaining.bind fun bound => (steady_topTermsWithin bound).bind fun terms => ?_
  exact Steady.after_expect (steady_pure _) .eof .program

end TermLang.Grammar
