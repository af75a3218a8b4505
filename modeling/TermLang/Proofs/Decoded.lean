import TermLang.Dump.Decode

/-!
# Programs read back from JSON values

The JSON value of a program describes that program and no other. The parts of terms are read by
readers that are given the reader of terms, so each of them is inverted under the assumption that
the terms nested in the part are; the terms follow by one induction on the levels of nesting.
-/

namespace TermLang

namespace Json

/-! ## Objects and arrays -/

@[simp] theorem alternative?_single (label : String) (payload : Json) :
    (object [(label, payload)]).alternative? = some (label, payload) := rfl

@[simp] theorem items?_array (items : List Json) : (array items).items? = some items := rfl

@[simp] theorem string?_string (s : String) : (string s).string? = some s := rfl

@[simp] theorem entry?_cons (name label : String) (j : Json) (es : List (String × Json)) :
    entry? name (object ((label, j) :: es)) =
      if name = label then some j else entry? name (object es) := by
  simp only [List.lookup_cons, entry?]
  split <;> simp_all

@[simp] theorem entry_cons {α : Type} (read : Json → Option α) (name label : String) (j : Json)
    (es : List (String × Json)) :
    (object ((label, j) :: es)).entry name read =
      if name = label then read j else (object es).entry name read := by
  rw [entry, entry?_cons]
  split <;> rfl

theorem depth_pos (j : Json) : 0 < j.depth := by
  cases j <;> simp only [depth] <;> omega

end Json

/-! ## Lists and options as trees -/

/-- The tree of a value that may be left out. -/
def Tree.ofOption {α : Type} (tree : α → Tree) : Option α → Tree
  | none => .absent
  | some x => .present (tree x)

@[simp] theorem termsTree_eq (ts : List Term) : termsTree ts = ts.map Term.tree := by
  induction ts with
  | nil => rfl
  | cons t ts ih => rw [termsTree, ih, List.map_cons]

@[simp] theorem paramsTree_eq (ps : List Param) : paramsTree ps = ps.map Param.tree := by
  induction ps with
  | nil => rfl
  | cons p ps ih => rw [paramsTree, ih, List.map_cons]

@[simp] theorem fieldsTree_eq (fs : List Field) : fieldsTree fs = fs.map Field.tree := by
  induction fs with
  | nil => rfl
  | cons f fs ih => rw [fieldsTree, ih, List.map_cons]

@[simp] theorem argsTree_eq (as : List Arg) : argsTree as = as.map Arg.tree := by
  induction as with
  | nil => rfl
  | cons a as ih => rw [argsTree, ih, List.map_cons]

@[simp] theorem branchesTree_eq (bs : List Branch) : branchesTree bs = bs.map Branch.tree := by
  induction bs with
  | nil => rfl
  | cons b bs ih => rw [branchesTree, ih, List.map_cons]

@[simp] theorem bindingsTree_eq (bs : List Binding) : bindingsTree bs = bs.map Binding.tree := by
  induction bs with
  | nil => rfl
  | cons b bs ih => rw [bindingsTree, ih, List.map_cons]

@[simp] theorem Tree.nameOption_eq (o : Option String) : nameOption o = ofOption .name o := by
  cases o <;> rfl

@[simp] theorem termOptionTree_eq (o : Option Term) :
    termOptionTree o = Tree.ofOption Term.tree o := by
  cases o <;> rw [termOptionTree, Tree.ofOption]

@[simp] theorem annoOptionTree_eq (o : Option Anno) :
    annoOptionTree o = Tree.ofOption Anno.tree o := by
  cases o <;> rw [annoOptionTree, Tree.ofOption]

namespace Decode

open Json (ofTree ofItems ofEntries depth itemsDepth entriesDepth)

/-! ## Readers that invert a writer -/

/-- A reader reads back what is written with no more than so many values nested in one another. -/
def Inverts {α : Type} (read : Decoder α) (tree : α → Tree) (levels : Nat) : Prop :=
  ∀ x, (ofTree (tree x)).depth ≤ levels → read (ofTree (tree x)) = some x

namespace Inverts

variable {α : Type} {read : Decoder α} {tree : α → Tree} {levels : Nat}

theorem zero : Inverts read tree 0 :=
  fun x hx => absurd hx (Nat.not_le_of_gt (ofTree (tree x)).depth_pos)

theorem mapM (h : Inverts read tree levels) (xs : List α)
    (hx : itemsDepth (ofItems (xs.map tree)) ≤ levels) :
    (ofItems (xs.map tree)).mapM read = some xs := by
  induction xs with
  | nil => rfl
  | cons x xs ih =>
    obtain ⟨hhead, htail⟩ := Nat.max_le.1 hx
    simp [ofItems, h x hhead, ih htail]

/-- A value that is left out is written as null, and so no other value may be. -/
theorem optionalEntry (h : Inverts read tree levels) (hnull : ∀ x, ofTree (tree x) ≠ .null)
    (o : Option α) (ho : (ofTree (.ofOption tree o)).depth ≤ levels) ⦃name : String⦄ ⦃j : Json⦄
    (hj : j.entry? name = some (ofTree (.ofOption tree o))) :
    j.optionalEntry name read = some o := by
  rw [Json.optionalEntry, hj]
  cases o with
  | none => rfl
  | some x =>
    rw [Tree.ofOption, ofTree] at ho ⊢
    split
    · rename_i heq
      exact absurd heq (Option.some_ne_none _)
    · rename_i heq
      exact absurd (Option.some.inj heq) (hnull x)
    · rename_i heq
      rw [← Option.some.inj heq, h x ho]
      rfl

end Inverts

/-- A name that may be left out is read back, however deep it stands. -/
theorem optionalEntry_name {o : Option String} {name : String} {j : Json}
    (hj : j.entry? name = some (ofTree (.ofOption .name o))) :
    j.optionalEntry name Json.string? = some o := by
  have h : Inverts Json.string? .name 1 := fun _ _ => rfl
  refine h.optionalEntry (by simp [ofTree]) o ?_ hj
  cases o <;> simp [Tree.ofOption, ofTree, depth]

/-! ## Parts of terms -/

theorem ofTree_term_ne_null (t : Term) : ofTree t.tree ≠ .null := by
  cases t with
  | literal value => cases value <;> simp [Term.tree, Tree.ofLiteral, ofTree]
  | _ => simp [Term.tree, ofTree]

/-- The label of a literal tells its sort, so an integer is not read as a decimal. -/
theorem termOf_literal {term : Decoder Term} (value : Literal) :
    termOf term (ofTree (.ofLiteral value)) = some (.literal value) := by
  cases value <;>
    simp [termOf, literalOf, Tree.ofLiteral, ofTree, Json.bool?, Json.int64?, Json.double?,
      Json.char?]

theorem ofTree_anno_ne_null (a : Anno) : ofTree a.tree ≠ .null := by
  cases a
  simp [Anno.tree, ofTree]

section

variable {term : Decoder Term} {levels : Nat} (h : Inverts term Term.tree levels)

include h

theorem inverts_anno : Inverts (anno term) Anno.tree levels := by
  rintro ⟨sort, type⟩ hd
  simp only [Anno.tree, ofTree, depth, entriesDepth] at hd
  have htype := h type (by omega)
  rcases sort with _ | _ | _ <;> simp [anno, Anno.tree, Tree.annoLabel, ofTree, htype]

theorem optionalEntry_anno (a : Option Anno) (ha : (ofTree (.ofOption Anno.tree a)).depth ≤ levels)
    ⦃name : String⦄ ⦃j : Json⦄ (hj : j.entry? name = some (ofTree (.ofOption Anno.tree a))) :
    j.optionalEntry name (anno term) = some a :=
  (inverts_anno h).optionalEntry ofTree_anno_ne_null a ha hj

theorem inverts_param : Inverts (param term) Param.tree levels := by
  rintro ⟨name, a⟩ hd
  simp only [Param.tree, annoOptionTree_eq, ofTree, ofEntries, depth, entriesDepth] at hd
  have hanno := optionalEntry_anno h a (by omega)
  simp [param, Param.tree, ofTree, ofEntries, hanno]

theorem inverts_field : Inverts (field term) Field.tree levels
  | .given name a value, hd => by
    simp only [Field.tree, annoOptionTree_eq, ofTree, ofEntries, depth, entriesDepth] at hd
    have hanno := optionalEntry_anno h a (by omega)
    have hvalue := h value (by omega)
    simp [field, Field.tree, ofTree, ofEntries, hanno, hvalue]
  | .shorthand name, _ => by simp [field, Field.tree, ofTree, ofEntries]

theorem inverts_arg : Inverts (arg term) Arg.tree levels
  | .named f, hd => by
    simp only [Arg.tree, ofTree, depth, entriesDepth] at hd
    have hfield := inverts_field h f (by omega)
    simp [arg, Arg.tree, ofTree, hfield]
  | .positional t, hd => by
    simp only [Arg.tree, ofTree, depth, entriesDepth] at hd
    have hterm := h t (by omega)
    simp [arg, Arg.tree, ofTree, hterm]

theorem inverts_body : Inverts (body term) Body.tree levels
  | .block ts, hd => by
    simp only [Body.tree, termsTree_eq, ofTree, depth, entriesDepth] at hd
    have hterms := h.mapM ts (by omega)
    simp [body, Body.tree, ofTree, hterms]
  | .single t, hd => by
    simp only [Body.tree, ofTree, depth, entriesDepth] at hd
    have hterm := h t (by omega)
    simp [body, Body.tree, ofTree, hterm]

theorem inverts_branch : Inverts (branch term) Branch.tree levels := by
  rintro ⟨guard, b⟩ hd
  simp only [Branch.tree, ofTree, ofEntries, depth, entriesDepth] at hd
  have hguard := h guard (by omega)
  have hbody := inverts_body h b (by omega)
  simp [branch, Branch.tree, ofTree, ofEntries, hguard, hbody]

theorem inverts_binding : Inverts (binding term) Binding.tree levels
  | .init name a value, hd => by
    simp only [Binding.tree, annoOptionTree_eq, ofTree, ofEntries, depth, entriesDepth] at hd
    have hanno := optionalEntry_anno h a (by omega)
    have hvalue := h value (by omega)
    simp [binding, Binding.tree, ofTree, ofEntries, hanno, hvalue]
  | .bare name, _ => by simp [binding, Binding.tree, ofTree, ofEntries]

/-! ## Terms -/

theorem optionalEntry_term (o : Option Term)
    (ho : (ofTree (.ofOption Term.tree o)).depth ≤ levels) ⦃name : String⦄ ⦃j : Json⦄
    (hj : j.entry? name = some (ofTree (.ofOption Term.tree o))) :
    j.optionalEntry name term = some o :=
  h.optionalEntry ofTree_term_ne_null o ho hj

/-- What inverts terms inside a term inverts the term, whatever its form. -/
theorem inverts_termOf : Inverts (termOf term) Term.tree (levels + 1) := by
  intro t hd
  cases t with
  | ident name => simp [termOf, Term.tree, ofTree]
  | literal value => exact termOf_literal value
  | block ts =>
    simp only [Term.tree, termsTree_eq, ofTree, depth, entriesDepth] at hd
    have hterms := h.mapM ts (by omega)
    simp [termOf, Term.tree, ofTree, hterms]
  | generic params b =>
    simp only [Term.tree, paramsTree_eq, ofTree, ofEntries, depth, entriesDepth] at hd
    have hparams := (inverts_param h).mapM params (by omega)
    have hbody := inverts_body h b (by omega)
    simp [termOf, Term.tree, ofTree, ofEntries, Json.listEntry, hparams, hbody]
  | binding b =>
    simp only [Term.tree, ofTree, depth, entriesDepth] at hd
    have hbinding := inverts_binding h b (by omega)
    simp [termOf, Term.tree, ofTree, hbinding]
  | forEach name source ts =>
    simp only [Term.tree, termsTree_eq, ofTree, ofEntries, depth, entriesDepth] at hd
    have hsource := h source (by omega)
    have hterms := h.mapM ts (by omega)
    simp [termOf, loop, Term.tree, ofTree, ofEntries, Json.listEntry, hsource, hterms]
  | forever ts =>
    simp only [Term.tree, termsTree_eq, ofTree, ofEntries, depth, entriesDepth] at hd
    have hterms := h.mapM ts (by omega)
    simp [termOf, loop, Term.tree, ofTree, ofEntries, Json.listEntry, hterms]
  | forWhile condition ts =>
    simp only [Term.tree, termsTree_eq, ofTree, ofEntries, depth, entriesDepth] at hd
    have hcondition := h condition (by omega)
    have hterms := h.mapM ts (by omega)
    simp [termOf, loop, Term.tree, ofTree, ofEntries, Json.listEntry, hcondition, hterms]
  | signature sort name params =>
    simp only [Term.tree, paramsTree_eq, ofTree, ofEntries, depth, entriesDepth] at hd
    have hname := @optionalEntry_name name
    have hparams := (inverts_param h).mapM params (by omega)
    cases sort <;>
      simp [termOf, signature, Term.tree, Tree.signatureLabel, ofTree, ofEntries, Json.listEntry,
        hname, hparams]
  | record sort name fields =>
    simp only [Term.tree, fieldsTree_eq, ofTree, ofEntries, depth, entriesDepth] at hd
    have hname := @optionalEntry_name name
    have hfields := (inverts_field h).mapM fields (by omega)
    cases sort <;>
      simp [termOf, record, Term.tree, Tree.recordLabel, ofTree, ofEntries, Json.listEntry,
        hname, hfields]
  | trait name bindings =>
    simp only [Term.tree, bindingsTree_eq, ofTree, ofEntries, depth, entriesDepth] at hd
    have hname := @optionalEntry_name name
    have hbindings := (inverts_binding h).mapM bindings (by omega)
    simp [termOf, Term.tree, ofTree, ofEntries, Json.listEntry, hname, hbindings]
  | funType params result =>
    simp only [Term.tree, termsTree_eq, ofTree, ofEntries, depth, entriesDepth] at hd
    have hparams := h.mapM params (by omega)
    have hresult := h result (by omega)
    simp [termOf, Term.tree, ofTree, ofEntries, Json.listEntry, hparams, hresult]
  | function params result b =>
    simp only [Term.tree, paramsTree_eq, termOptionTree_eq, ofTree, ofEntries, depth,
      entriesDepth] at hd
    have hparams := (inverts_param h).mapM params (by omega)
    have hresult := optionalEntry_term h result (by omega)
    have hbody := inverts_body h b (by omega)
    simp [termOf, Term.tree, ofTree, ofEntries, Json.listEntry, hparams, hresult, hbody]
  | cases branches =>
    simp only [Term.tree, branchesTree_eq, ofTree, depth, entriesDepth] at hd
    have hbranches := (inverts_branch h).mapM branches (by omega)
    simp [termOf, Term.tree, ofTree, hbranches]
  | spread sort operand =>
    simp only [Term.tree, ofTree, ofItems, depth, entriesDepth, itemsDepth] at hd
    have hoperand := h operand (by omega)
    cases sort <;>
      simp [termOf, spread, spreadOf, Term.tree, Tree.spreadLabel, ofTree, ofItems, hoperand]
  | select target name =>
    simp only [Term.tree, ofTree, ofEntries, depth, entriesDepth] at hd
    have htarget := h target (by omega)
    simp [termOf, Term.tree, ofTree, ofEntries, htarget]
  | apply sort target args =>
    simp only [Term.tree, argsTree_eq, ofTree, ofEntries, depth, entriesDepth] at hd
    have htarget := h target (by omega)
    have hargs := (inverts_arg h).mapM args (by omega)
    cases sort <;>
      simp [termOf, apply, Term.tree, Tree.applierLabel, ofTree, ofEntries, Json.listEntry,
        htarget, hargs]
  | applyNamed target fields =>
    simp only [Term.tree, fieldsTree_eq, ofTree, ofEntries, depth, entriesDepth] at hd
    have htarget := h target (by omega)
    have hfields := (inverts_field h).mapM fields (by omega)
    simp [termOf, Term.tree, ofTree, ofEntries, Json.listEntry, htarget, hfields]
  | assign target value =>
    simp only [Term.tree, ofTree, ofEntries, depth, entriesDepth] at hd
    have htarget := h target (by omega)
    have hvalue := h value (by omega)
    simp [termOf, Term.tree, ofTree, ofEntries, htarget, hvalue]

end

/-- The label of a term and its entries stand around the terms inside it, so a tagged reader inverts
the writer by induction on the values nested in one another. -/
theorem Tagged.inverts {term : Decoder Term} (h : Tagged term) (levels : Nat) :
    Inverts term Term.tree levels := by
  induction levels with
  | zero => exact .zero
  | succ levels ih => exact fun t hd => h t t (inverts_termOf ih t hd)

theorem inverts_termWithin (levels : Nat) : Inverts (termWithin levels) Term.tree levels := by
  induction levels with
  | zero => exact .zero
  | succ levels ih => exact inverts_termOf ih

end Decode

/-- The terms of a program are read back from its value. -/
theorem Decode.Tagged.program_eq {term : Decoder Term} (h : Tagged term) (p : Program) :
    (p.json.listEntry "terms" term).map Program.mk = some p := by
  have hterms : (Json.ofItems (p.terms.map Term.tree)).mapM term = some p.terms :=
    (h.inverts _).mapM p.terms (Nat.le_refl _)
  simp [Program.json, Program.tree, Json.ofTree, Json.ofEntries, Json.listEntry, hterms]

theorem Term.ofJson?_json (t : Term) : Term.ofJson? t.json = some t :=
  Decode.inverts_termWithin t.json.depth t (Nat.le_refl _)

theorem Decode.tagged_ofJson? : Tagged Term.ofJson? := by
  intro t u h
  have hinverts : Inverts Term.ofJson? Term.tree t.json.depth := fun v _ => v.ofJson?_json
  have ht : termOf Term.ofJson? t.json = some t := inverts_termOf hinverts t (Nat.le_succ _)
  exact t.ofJson?_json.trans (ht.symm.trans h)

/-- A program is read back from its JSON value. -/
theorem Program.ofJson?_json (p : Program) : Program.ofJson? p.json = some p := by
  rw [← Decode.tagged_ofJson?.program_eq p, ofJson?]
  cases p.json.listEntry "terms" Term.ofJson? <;> rfl

end TermLang
