import TermLang.Proofs.Allowance
import TermLang.Proofs.Decoded
import TermLang.Proofs.Nesting

/-!
# How deep the values of a term are nested

A dump nests values deeper than the term nests terms: between a term and a term inside it there are up to
six values in a link and five in a head, but only one between a link and its target. So a term that takes
no more than `m` levels is a tree of no more than `Term.room m` nested values, and one more for each of
its links (`Term.Fits.nesting_le`).
-/

namespace TermLang

namespace Tree

variable {k : Nat}

theorem nesting_list_map_le {α : Type} {xs : List α} {tree : α → Tree}
    (h : ∀ x ∈ xs, (tree x).nesting ≤ k) : (Tree.list (xs.map tree)).nesting ≤ k + 1 := by
  rw [nesting, itemsNesting_le_iff]
  intro t ht
  obtain ⟨x, hx, rfl⟩ := List.mem_map.1 ht
  exact Nat.succ_le_succ (h x hx)

theorem nesting_nameOption_le (name : Option String) : (nameOption name).nesting ≤ 1 := by
  cases name <;> simp [nameOption, nesting]

end Tree

section

variable {k : Nat}

/-! ## Parts of terms -/

/-- The terms nest no more than so many values. -/
def NestWithin (k : Nat) (ts : List Term) : Prop := ∀ t ∈ ts, t.tree.nesting ≤ k

theorem nestWithin_append {ts us : List Term} :
    NestWithin k (ts ++ us) ↔ NestWithin k ts ∧ NestWithin k us := List.forall_mem_append

theorem nestWithin_cons {t : Term} {ts : List Term} :
    NestWithin k (t :: ts) ↔ t.tree.nesting ≤ k ∧ NestWithin k ts := List.forall_mem_cons

theorem NestWithin.of_flatMap {α : Type} {xs : List α} {parts : α → List Term}
    (h : NestWithin k (xs.flatMap parts)) : ∀ x ∈ xs, NestWithin k (parts x) := fun x hx t ht =>
  h t (List.mem_flatMap.2 ⟨x, hx, ht⟩)

theorem nesting_terms_le {ts : List Term} (h : NestWithin k ts) :
    (Tree.list (termsTree ts)).nesting ≤ k + 1 := by
  rw [termsTree_eq]
  exact Tree.nesting_list_map_le h

theorem nesting_annoOption_le {anno : Option Anno} (h : ∀ a ∈ anno, a.type.tree.nesting ≤ k) :
    (annoOptionTree anno).nesting ≤ k + 2 := by
  rcases anno with _ | ⟨sort, type⟩
  · exact Nat.zero_le _
  · have : type.tree.nesting ≤ k := h _ rfl
    simp only [annoOptionTree, Anno.tree, Tree.nesting]
    omega

theorem Param.nesting_le {p : Param} (h : NestWithin k p.parts) : p.tree.nesting ≤ k + 3 := by
  obtain ⟨name, anno⟩ := p
  have hanno : (annoOptionTree anno).nesting ≤ k + 2 := nesting_annoOption_le fun a ha => by
    obtain rfl := ha
    exact h _ List.mem_cons_self
  simp only [Param.tree, Tree.nesting, Tree.entriesNesting]
  omega

theorem nesting_params_le {ps : List Param} (h : NestWithin k (ps.flatMap Param.parts)) :
    (Tree.list (paramsTree ps)).nesting ≤ k + 4 := by
  rw [paramsTree_eq]
  exact Tree.nesting_list_map_le fun p hp => p.nesting_le (h.of_flatMap p hp)

theorem Field.nesting_le {f : Field} (h : NestWithin k f.parts) : f.tree.nesting ≤ k + 3 := by
  cases f with
  | given name anno value =>
    have hanno : (annoOptionTree anno).nesting ≤ k + 2 := nesting_annoOption_le fun a ha => by
      obtain rfl := ha
      exact h _ List.mem_cons_self
    have hvalue : value.tree.nesting ≤ k := h _ (by cases anno <;> simp [Field.parts])
    simp only [Field.tree, Tree.nesting, Tree.entriesNesting]
    omega
  | shorthand name =>
    simp only [Field.tree, Tree.nesting, Tree.entriesNesting]
    omega

theorem nesting_fields_le {fs : List Field} (h : NestWithin k (fs.flatMap Field.parts)) :
    (Tree.list (fieldsTree fs)).nesting ≤ k + 4 := by
  rw [fieldsTree_eq]
  exact Tree.nesting_list_map_le fun f hf => f.nesting_le (h.of_flatMap f hf)

theorem Arg.nesting_le {a : Arg} (h : NestWithin k a.parts) : a.tree.nesting ≤ k + 4 := by
  cases a with
  | named field =>
    have := field.nesting_le h
    simp only [Arg.tree, Tree.nesting]
    omega
  | positional term =>
    have : term.tree.nesting ≤ k := h _ List.mem_cons_self
    simp only [Arg.tree, Tree.nesting]
    omega

theorem nesting_args_le {as : List Arg} (h : NestWithin k (as.flatMap Arg.parts)) :
    (Tree.list (argsTree as)).nesting ≤ k + 5 := by
  rw [argsTree_eq]
  exact Tree.nesting_list_map_le fun a ha => a.nesting_le (h.of_flatMap a ha)

theorem Body.nesting_le {b : Body} (h : NestWithin k b.parts) : b.tree.nesting ≤ k + 2 := by
  cases b with
  | block ts =>
    have : (Tree.list (termsTree ts)).nesting ≤ k + 1 := nesting_terms_le h
    simp only [Body.tree, Tree.nesting] at this ⊢
    omega
  | single t =>
    have : t.tree.nesting ≤ k := h _ List.mem_cons_self
    simp only [Body.tree, Tree.nesting]
    omega

theorem Branch.nesting_le {b : Branch} (h : NestWithin k b.parts) : b.tree.nesting ≤ k + 3 := by
  obtain ⟨guard, body⟩ := b
  obtain ⟨hguard, hbody⟩ := nestWithin_cons.1 h
  have := body.nesting_le hbody
  simp only [Branch.tree, Tree.nesting, Tree.entriesNesting]
  omega

theorem nesting_branches_le {bs : List Branch} (h : NestWithin k (bs.flatMap Branch.parts)) :
    (Tree.list (branchesTree bs)).nesting ≤ k + 4 := by
  rw [branchesTree_eq]
  exact Tree.nesting_list_map_le fun b hb => b.nesting_le (h.of_flatMap b hb)

theorem Binding.nesting_le {b : Binding} (h : NestWithin k b.parts) : b.tree.nesting ≤ k + 3 := by
  cases b with
  | init name anno value =>
    have hanno : (annoOptionTree anno).nesting ≤ k + 2 := nesting_annoOption_le fun a ha => by
      obtain rfl := ha
      exact h _ List.mem_cons_self
    have hvalue : value.tree.nesting ≤ k := h _ (by cases anno <;> simp [Binding.parts])
    simp only [Binding.tree, Tree.nesting, Tree.entriesNesting]
    omega
  | bare name =>
    simp only [Binding.tree, Tree.nesting, Tree.entriesNesting]
    omega

theorem nesting_bindings_le {bs : List Binding} (h : NestWithin k (bs.flatMap Binding.parts)) :
    (Tree.list (bindingsTree bs)).nesting ≤ k + 4 := by
  rw [bindingsTree_eq]
  exact Tree.nesting_list_map_le fun b hb => b.nesting_le (h.of_flatMap b hb)

end

/-! ## Terms -/

namespace Term

variable {k m : Nat}

/-- Between a head and a term inside it there are no more than five values. -/
theorem nesting_head_le {t : Term} (ht : t.target? = none) (h : NestWithin k t.inner) :
    t.tree.nesting ≤ k + 5 := by
  cases t with
  | ident name =>
    simp only [tree, Tree.nesting]
    omega
  | literal value => cases value <;> simp [tree, Tree.ofLiteral, Tree.nesting]
  | block body | forever body =>
    have : (Tree.list (termsTree body)).nesting ≤ k + 1 := nesting_terms_le h
    simp only [tree, Tree.nesting, Tree.entriesNesting] at this ⊢
    omega
  | generic params body =>
    obtain ⟨hparams, hbody⟩ := nestWithin_append.1 h
    have := nesting_params_le hparams
    have := body.nesting_le hbody
    simp only [tree, Tree.nesting, Tree.entriesNesting] at *
    omega
  | binding b =>
    have := b.nesting_le h
    simp only [tree, Tree.nesting]
    omega
  | forEach name source body | forWhile source body =>
    obtain ⟨hsource, hbody⟩ := nestWithin_cons.1 h
    have := nesting_terms_le hbody
    simp only [tree, Tree.nesting, Tree.entriesNesting] at *
    omega
  | signature sort name params =>
    have := nesting_params_le h
    have := Tree.nesting_nameOption_le name
    simp only [tree, Tree.nesting, Tree.entriesNesting] at *
    omega
  | record sort name fields =>
    have := nesting_fields_le h
    have := Tree.nesting_nameOption_le name
    simp only [tree, Tree.nesting, Tree.entriesNesting] at *
    omega
  | trait name bindings =>
    have := nesting_bindings_le h
    have := Tree.nesting_nameOption_le name
    simp only [tree, Tree.nesting, Tree.entriesNesting] at *
    omega
  | funType params result =>
    obtain ⟨hparams, hresult⟩ := nestWithin_append.1 h
    have := nesting_terms_le hparams
    have : result.tree.nesting ≤ k := hresult _ List.mem_cons_self
    simp only [tree, Tree.nesting, Tree.entriesNesting] at *
    omega
  | function params result body =>
    obtain ⟨hparams, hrest⟩ := nestWithin_append.1 h
    obtain ⟨hresult, hbody⟩ := nestWithin_append.1 hrest
    have := nesting_params_le hparams
    have := body.nesting_le hbody
    have : (termOptionTree result).nesting ≤ k + 1 := by
      cases result with
      | none => exact Nat.zero_le _
      | some u => exact Nat.succ_le_succ (hresult u List.mem_cons_self)
    simp only [tree, Tree.nesting, Tree.entriesNesting] at *
    omega
  | cases branches =>
    have := nesting_branches_le h
    simp only [tree, Tree.nesting] at *
    omega
  | spread sort operand =>
    have : operand.tree.nesting ≤ k := h _ List.mem_cons_self
    simp only [tree, Tree.nesting, Tree.itemsNesting]
    omega
  | select | apply | applyNamed | assign => cases ht

/-- Between a link and a term inside it there are no more than six values, and only one if that is its
target. -/
theorem nesting_link_le {t u : Term} (ht : t.target? = some u) (h : NestWithin k t.inner) :
    t.tree.nesting ≤ max (u.tree.nesting + 1) (k + 6) := by
  cases t with
  | select target name =>
    obtain rfl := Option.some.inj ht
    simp only [tree, Tree.nesting, Tree.entriesNesting]
    omega
  | apply sort target args =>
    obtain rfl := Option.some.inj ht
    have := nesting_args_le h
    simp only [tree, Tree.nesting, Tree.entriesNesting] at *
    omega
  | applyNamed target fields =>
    obtain rfl := Option.some.inj ht
    have := nesting_fields_le h
    simp only [tree, Tree.nesting, Tree.entriesNesting] at *
    omega
  | assign target value =>
    obtain rfl := Option.some.inj ht
    have : value.tree.nesting ≤ k := h _ List.mem_cons_self
    simp only [tree, Tree.nesting, Tree.entriesNesting]
    omega
  | _ => cases ht

/-- The most values that a head of so many levels nests: five for each level, and the links in it. -/
def room : Nat → Nat
  | 0 => 0
  | m + 1 => room m + (m - 1) + 5

theorem room_mono (h : k ≤ m) : room k ≤ room m := by
  induction h with
  | refl => exact Nat.le_refl _
  | step _ ih =>
    rw [room]
    omega

/-- Terms of so many levels nest no more values than their links and a head do. -/
theorem nestWithin_of_fits {ts : List Term} (h : ∀ t ∈ ts, t.Fits k)
    (hle : ∀ t ∈ ts, t.tree.nesting ≤ t.links + room k) : NestWithin (k - 1 + room k) ts := by
  intro t ht
  have := (h t ht).links_lt
  have := hle t ht
  omega

theorem Fits.nesting_le {t : Term} (h : t.Fits m) : t.tree.nesting ≤ t.links + room m := by
  -- a head pays its five values with its own level; a link has one for its target, and what else is in it
  -- is two levels down
  induction h with
  | @head t k m ht hi hk ih =>
    have hle := nesting_head_le ht (nestWithin_of_fits hi ih)
    have hroom : room (k + 1) ≤ room m := room_mono hk
    rw [room] at hroom
    omega
  | @link t u k m ht _ hi hk ihu ihi =>
    have hle := nesting_link_le ht (nestWithin_of_fits hi ihi)
    have hroom : room (k + 2) ≤ room m := room_mono (by omega)
    rw [room, room] at hroom
    rw [links_of_target ht]
    omega

end Term

/-- A program whose terms take no more than so many levels: two values around a term, its links, and a
head. -/
theorem Program.nesting_le {p : Program} {m : Nat} (h : ∀ t ∈ p.terms, t.Fits m) :
    p.tree.nesting ≤ m - 1 + Term.room m + 2 := by
  have := nesting_terms_le (Term.nestWithin_of_fits h fun t ht => (h t ht).nesting_le)
  simp only [tree, Tree.nesting, Tree.entriesNesting] at *
  omega

end TermLang
