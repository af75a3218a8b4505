import TermLang.Proofs.PrintedText

/-!
# Printed terms read back

If the names and values in the yield of a term are spelled, its pieces are read into its yield, in
both layouts. The induction is on the term; each case looks at the places where two words meet.
-/

namespace TermLang

open Terminal (within)

/-! ## Spelled yields -/

/-- All terminals in a row are spelled. -/
def AllSpelled (ys : List Terminal) : Prop := ∀ y ∈ ys, y.Spelled

@[simp] theorem allSpelled_nil : AllSpelled [] ↔ True := by simp [AllSpelled]

@[simp] theorem allSpelled_append {ys zs : List Terminal} :
    AllSpelled (ys ++ zs) ↔ AllSpelled ys ∧ AllSpelled zs := List.forall_mem_append

@[simp] theorem allSpelled_mark {k : Kind} {ys : List Terminal} :
    AllSpelled (.mark k :: ys) ↔ AllSpelled ys := by
  simp [AllSpelled, Terminal.Spelled]

@[simp] theorem allSpelled_name {text : String} {ys : List Terminal} :
    AllSpelled (.name text :: ys) ↔ Word.IsName text ∧ AllSpelled ys := List.forall_mem_cons

@[simp] theorem allSpelled_value {l : Literal} {ys : List Terminal} :
    AllSpelled (.value l :: ys) ↔ (Terminal.value l).Spelled ∧ AllSpelled ys := List.forall_mem_cons

@[simp] theorem allSpelled_within {o c : Kind} {ys : List Terminal} :
    AllSpelled (within o c ys) ↔ AllSpelled ys := by
  simp [within]

/-! ## Parts that are no terms -/

open Piece

/-- A name that may be left out ends with a space. -/
theorem Piece.Clean.name {text : Option String} {ps : List Piece} (h : AllSpelled (nameYield text))
    (hps : Clean ps) : Clean (namePieces text ++ ps) := by
  cases text with
  | none => exact hps
  | some text => exact .ident (allSpelled_name.1 h).1 .space hps.space

/-- The argument lists of applications open with a bracket, and close with one. -/
theorem Piece.Clean.args {rows : List (List Piece)} (sort : Applier)
    (h : ∀ row ∈ rows, Clean row) : Clean (Piece.enclosed sort.opening sort.closing rows) := by
  cases sort <;> exact .enclosed (by decide) (by decide) h

theorem opens_args (sort : Applier) (rows : List (List Piece)) :
    Opens (enclosed sort.opening sort.closing rows) := by
  cases sort <;> exact .delimiter (by decide)

theorem opens_annoPieces (anno : Option Anno) : Opens (annoPieces anno) := by
  cases anno with
  | none => exact .nil
  | some a =>
    cases a with
    | mk sort type => cases sort <;> exact .delimiter (by decide)

theorem opens_resultPieces (result : Option Term) : Opens (resultPieces result) := by
  cases result with
  | none => exact .nil
  | some t => exact .space

theorem Body.opens (b : Body) : Opens b.pieces := by
  cases b with
  | block terms => exact .space
  | single term => exact .space

/-- A name with an annotation or without is given a value after an equals sign. -/
theorem Piece.Clean.given {text : String} {anno : Option Anno} {ps : List Piece}
    (ht : Word.IsName text) (ha : Clean (annoPieces anno)) (hps : Clean ps) :
    Clean (Piece.ident text :: (annoPieces anno ++ equalsPieces ++ ps)) := by
  rw [List.append_assoc]
  refine .ident ht ((opens_annoPieces anno).append .space) ?_
  exact ha.append .space hps.equals

/-! ## Terms -/

mutual

/-- The pieces of a term with a spelled yield are read into the words among them. -/
theorem Term.clean (t : Term) (h : AllSpelled t.yield) : Clean t.pieces := by
  cases t with
  | ident text =>
    simp only [Term.yield, allSpelled_name] at h
    exact .ident h.1 .nil .nil
  | literal value =>
    simp only [Term.yield, allSpelled_value] at h
    exact .word (Literal.legible_word h.1) .nil .nil
  | block body =>
    simp only [Term.yield, allSpelled_mark, allSpelled_within] at h
    exact .mark_space rfl (.braced (clean_termsPieces body h))
  | generic params body =>
    simp only [Term.yield, allSpelled_append, allSpelled_within] at h
    refine Clean.append ?_ body.opens (body.clean h.2)
    exact .enclosed (by decide) (by decide) (clean_paramsPieces params h.1)
  | binding b =>
    simp only [Term.yield] at h
    exact b.clean h
  | forEach text source body =>
    simp only [Term.yield, allSpelled_mark, allSpelled_name, allSpelled_append,
      allSpelled_within] at h
    obtain ⟨htext, hsource, hbody⟩ := h
    have hblock := Clean.braced (clean_termsPieces body hbody)
    refine .mark_space rfl (.ident htext .space (Clean.space (.mark_space rfl ?_)))
    exact (source.clean hsource).append .space hblock.space
  | forever body =>
    simp only [Term.yield, allSpelled_mark, allSpelled_within] at h
    exact .mark_space rfl (.braced (clean_termsPieces body h))
  | forWhile condition body =>
    simp only [Term.yield, allSpelled_mark, allSpelled_append, allSpelled_within] at h
    have hblock := Clean.braced (clean_termsPieces body h.2)
    exact .mark_space rfl ((condition.clean h.1).append .space hblock.space)
  | signature sort text params =>
    simp only [Term.yield, allSpelled_mark, allSpelled_append, allSpelled_within] at h
    exact .mark_space sort.isSome_text? (.name h.1 (.braced (clean_paramsPieces params h.2)))
  | record sort text fields =>
    simp only [Term.yield, allSpelled_mark, allSpelled_append, allSpelled_within] at h
    exact .mark_space sort.isSome_text? (.name h.1 (.braced (clean_fieldsPieces fields h.2)))
  | trait text bindings =>
    simp only [Term.yield, allSpelled_mark, allSpelled_append, allSpelled_within] at h
    exact .mark_space rfl (.name h.1 (.braced (clean_bindingsPieces bindings h.2)))
  | funType params result =>
    simp only [Term.yield, allSpelled_mark, allSpelled_append, allSpelled_within] at h
    have hparams := Clean.enclosed (o := .parenOpen) (c := .parenClose) (by decide) (by decide)
      (clean_termsPieces params h.1)
    exact hparams.append .space (Clean.mark_space rfl (result.clean h.2)).space
  | function params result body =>
    simp only [Term.yield, allSpelled_append, allSpelled_within] at h
    obtain ⟨hparams, hresult, hbody⟩ := h
    have hlist := Clean.enclosed (o := .parenOpen) (c := .parenClose) (by decide) (by decide)
      (clean_paramsPieces params hparams)
    have htype := hlist.append (opens_resultPieces result) (clean_resultPieces result hresult)
    exact htype.append body.opens (body.clean hbody)
  | cases branches =>
    simp only [Term.yield, allSpelled_mark, allSpelled_within] at h
    exact .mark_space rfl (.braced (clean_branchesPieces branches h))
  | spread sort operand =>
    simp only [Term.yield, allSpelled_mark] at h
    exact .mark_space sort.isSome_text? (operand.clean h)
  | select target text =>
    simp only [Term.yield, allSpelled_append, allSpelled_mark, allSpelled_name] at h
    obtain ⟨htarget, htext, -⟩ := h
    have hdot : (Word.ofKind .dot).Solid := Word.solid_ofKind (by decide)
    exact (target.clean htarget).append (.select htext) (.solid hdot (.ident htext .nil .nil))
  | apply sort target args =>
    simp only [Term.yield, allSpelled_append, allSpelled_within] at h
    exact (target.clean h.1).append (opens_args sort _) (.args sort (clean_argsPieces args h.2))
  | applyNamed target fields =>
    simp only [Term.yield, allSpelled_append, allSpelled_within] at h
    refine (target.clean h.1).append (.delimiter (by decide)) ?_
    exact .enclosed (by decide) (by decide) (clean_fieldsPieces fields h.2)
  | assign target value =>
    simp only [Term.yield, allSpelled_append, allSpelled_mark] at h
    rw [Term.pieces, List.append_assoc]
    exact (target.clean h.1).append .space (value.clean h.2).equals

theorem clean_termsPieces (ts : List Term) (h : AllSpelled (termsYield ts)) :
    ∀ row ∈ termsPieces ts, Clean row := by
  cases ts with
  | nil => exact nofun
  | cons t ts =>
    simp only [termsYield, allSpelled_append] at h
    exact List.forall_mem_cons.2 ⟨t.clean h.1, clean_termsPieces ts h.2⟩

theorem clean_resultPieces (result : Option Term) (h : AllSpelled (resultYield result)) :
    Clean (resultPieces result) := by
  cases result with
  | none => exact .nil
  | some t =>
    simp only [resultYield, allSpelled_mark] at h
    exact (Clean.mark_space rfl (t.clean h)).space

theorem Anno.clean (a : Anno) (h : AllSpelled a.yield) : Clean a.pieces := by
  cases a with
  | mk sort type =>
    simp only [Anno.yield, allSpelled_append] at h
    have htype := type.clean h.2
    cases sort with
    | none => exact .mark_space rfl htype
    | some sort => exact .mark_space rfl (.mark_space sort.isSome_text? htype)

theorem clean_annoPieces (anno : Option Anno) (h : AllSpelled (annoYield anno)) :
    Clean (annoPieces anno) := by
  cases anno with
  | none => exact .nil
  | some a => exact a.clean h

theorem Param.clean (p : Param) (h : AllSpelled p.yield) : Clean p.pieces := by
  cases p with
  | mk text anno =>
    simp only [Param.yield, allSpelled_name] at h
    exact .ident h.1 (opens_annoPieces anno) (clean_annoPieces anno h.2)

theorem clean_paramsPieces (ps : List Param) (h : AllSpelled (paramsYield ps)) :
    ∀ row ∈ paramsPieces ps, Clean row := by
  cases ps with
  | nil => exact nofun
  | cons p ps =>
    simp only [paramsYield, allSpelled_append] at h
    exact List.forall_mem_cons.2 ⟨p.clean h.1, clean_paramsPieces ps h.2⟩

theorem Field.clean (f : Field) (h : AllSpelled f.yield) : Clean f.pieces := by
  cases f with
  | given text anno value =>
    simp only [Field.yield, allSpelled_name, allSpelled_append, allSpelled_mark] at h
    exact .given h.1 (clean_annoPieces anno h.2.1) (value.clean h.2.2)
  | shorthand text =>
    simp only [Field.yield, allSpelled_name] at h
    exact .ident h.1 .nil .nil

theorem clean_fieldsPieces (fs : List Field) (h : AllSpelled (fieldsYield fs)) :
    ∀ row ∈ fieldsPieces fs, Clean row := by
  cases fs with
  | nil => exact nofun
  | cons f fs =>
    simp only [fieldsYield, allSpelled_append] at h
    exact List.forall_mem_cons.2 ⟨f.clean h.1, clean_fieldsPieces fs h.2⟩

theorem Arg.clean (a : Arg) (h : AllSpelled a.yield) : Clean a.pieces := by
  cases a with
  | named field => exact field.clean h
  | positional term => exact term.clean h

theorem clean_argsPieces (as : List Arg) (h : AllSpelled (argsYield as)) :
    ∀ row ∈ argsPieces as, Clean row := by
  cases as with
  | nil => exact nofun
  | cons a as =>
    simp only [argsYield, allSpelled_append] at h
    exact List.forall_mem_cons.2 ⟨a.clean h.1, clean_argsPieces as h.2⟩

theorem Body.clean (b : Body) (h : AllSpelled b.yield) : Clean b.pieces := by
  cases b with
  | block terms =>
    simp only [Body.yield, allSpelled_mark, allSpelled_within] at h
    exact (Clean.mark_space rfl (.braced (clean_termsPieces terms h))).space
  | single term =>
    simp only [Body.yield, allSpelled_mark] at h
    exact (Clean.mark_space rfl (term.clean h)).space

theorem Branch.clean (b : Branch) (h : AllSpelled b.yield) : Clean b.pieces := by
  cases b with
  | mk guard body =>
    simp only [Branch.yield, allSpelled_mark, allSpelled_append] at h
    exact .mark_space rfl ((guard.clean h.1).append body.opens (body.clean h.2))

theorem clean_branchesPieces (bs : List Branch) (h : AllSpelled (branchesYield bs)) :
    ∀ row ∈ branchesPieces bs, Clean row := by
  cases bs with
  | nil => exact nofun
  | cons b bs =>
    simp only [branchesYield, allSpelled_append] at h
    exact List.forall_mem_cons.2 ⟨b.clean h.1, clean_branchesPieces bs h.2⟩

theorem Binding.clean (b : Binding) (h : AllSpelled b.yield) : Clean b.pieces := by
  cases b with
  | init text anno value =>
    simp only [Binding.yield, allSpelled_mark, allSpelled_name, allSpelled_append] at h
    exact .mark_space rfl (.given h.1 (clean_annoPieces anno h.2.1) (value.clean h.2.2))
  | bare text =>
    simp only [Binding.yield, allSpelled_mark, allSpelled_name] at h
    exact .mark_space rfl (.ident h.1 .nil .nil)

theorem clean_bindingsPieces (bs : List Binding) (h : AllSpelled (bindingsYield bs)) :
    ∀ row ∈ bindingsPieces bs, Clean row := by
  cases bs with
  | nil => exact nofun
  | cons b bs =>
    simp only [bindingsYield, allSpelled_append] at h
    exact List.forall_mem_cons.2 ⟨b.clean h.1, clean_bindingsPieces bs h.2⟩

end

/-! ## Programs -/

/-- In front of text that ends a word, the text of a term is read into its yield. -/
theorem Term.lexes_layout {t : Term} (h : AllSpelled t.yield) (layout : Layout) {rest : List Char}
    {ws : List Word} (hrest : Apart rest) (hws : Lexes rest ws) :
    Lexes (t.layout layout ++ rest) (t.yield.map Terminal.word ++ ws) := by
  rw [← t.words_pieces]
  exact t.clean h layout 0 rest ws hrest hws

theorem Term.toList_text (t : Term) : t.text.toList = t.layout .compact := String.toList_ofList

theorem lexes_compactTerms {ts : List Term} (h : AllSpelled (termsYield ts)) :
    Lexes ("\n".intercalate (ts.map Term.text)).toList ((termsYield ts).map Terminal.word) := by
  induction ts with
  | nil => exact .nil
  | cons t ts ih =>
    simp only [termsYield, allSpelled_append] at h
    rw [termsYield, List.map_append]
    cases ts with
    | nil =>
      have := t.lexes_layout h.1 .compact .nil .nil
      rw [List.append_nil] at this
      rw [List.map_singleton, String.intercalate_singleton, Term.toList_text]
      exact this
    | cons u us =>
      have hbreak : isBlank '\n' = true := rfl
      rw [List.map_cons, List.map_cons, String.intercalate_cons_cons, String.toList_append,
        String.toList_append, List.append_assoc, Term.toList_text]
      exact t.lexes_layout h.1 .compact (.blank hbreak) ((ih h.2).blank hbreak)

theorem lexes_prettyTerms {ts : List Term} (h : AllSpelled (termsYield ts)) (width : Nat) :
    Lexes (ts.flatMap fun t => t.layout (.pretty width) ++ ['\n'])
      ((termsYield ts).map Terminal.word) := by
  induction ts with
  | nil => exact .nil
  | cons t ts ih =>
    simp only [termsYield, allSpelled_append] at h
    have hbreak : isBlank '\n' = true := rfl
    rw [termsYield, List.map_append, List.flatMap_cons, List.append_assoc]
    exact t.lexes_layout h.1 (.pretty width) (.blank hbreak) ((ih h.2).blank hbreak)

namespace Program

variable {p : Program} (h : AllSpelled p.yield)

include h in
theorem lexes_compact : Lexes p.compact.toList (p.yield.map Terminal.word) := lexes_compactTerms h

include h in
theorem lexes_pretty (width : Nat) :
    Lexes (p.pretty width).toList (p.yield.map Terminal.word) := by
  rw [pretty, String.toList_ofList]
  exact lexes_prettyTerms h width

end Program

end TermLang
