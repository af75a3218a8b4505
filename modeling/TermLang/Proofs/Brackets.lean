import TermLang.Proofs.Balance
import TermLang.Proofs.Yield

/-!
# Brackets in a yield

Every yield is bracketed: what opens is closed by its own kind, and the end of the input is not
among it. A bracketed row is balanced, so the lookup from a bracket around such a row, which counts all
shapes of brackets alike, finds its partner.
-/

namespace TermLang

open Terminal (within)

/-- The kind that closes what an opening bracket opens. -/
def Kind.partner? : Kind → Option Kind
  | .parenOpen => some .parenClose
  | .bracketOpen => some .bracketClose
  | .braceOpen => some .braceClose
  | _ => none

theorem Kind.bracket_of_partner? {o c : Kind} (h : o.partner? = some c) :
    o.bracket = .opening ∧ c.bracket = .closing := by
  cases o <;> simp [Kind.partner?] at h <;> subst h <;> exact ⟨rfl, rfl⟩

/-- Every bracket in the row is closed in it by its own kind, and the row does not hold the end of
the input. -/
inductive Bracketed : List Terminal → Prop
  | nil : Bracketed []
  | plain {y : Terminal} {ys : List Terminal} :
      y.kind.bracket = .neither → y.kind ≠ .eof → Bracketed ys → Bracketed (y :: ys)
  | pair {o c : Kind} {inner ys : List Terminal} :
      o.partner? = some c → Bracketed inner → Bracketed ys → Bracketed (within o c inner ++ ys)

namespace Bracketed

theorem append {xs ys : List Terminal} (hx : Bracketed xs) (hy : Bracketed ys) :
    Bracketed (xs ++ ys) := by
  induction hx with
  | nil => exact hy
  | plain hb he _ ih => exact .plain hb he ih
  | pair hp hi _ _ ih => rw [List.append_assoc]; exact .pair hp hi ih

theorem within {o c : Kind} {inner : List Terminal} (hp : o.partner? = some c)
    (hi : Bracketed inner) : Bracketed (within o c inner) := by
  have h := Bracketed.pair hp hi .nil
  rwa [List.append_nil] at h

theorem name {text : String} {ys : List Terminal} (h : Bracketed ys) :
    Bracketed (.name text :: ys) := .plain rfl nofun h

theorem value {l : Literal} {ys : List Terminal} (h : Bracketed ys) :
    Bracketed (.value l :: ys) := by
  cases l <;> exact .plain rfl nofun h

end Bracketed

/-! ## Every yield is bracketed -/

theorem bracketed_nameYield (text : Option String) : Bracketed (nameYield text) := by
  cases text with
  | none => exact .nil
  | some text => exact .name .nil

theorem bracketed_annoStartYield (sort : Option Spread) : Bracketed (annoStartYield sort) := by
  rcases sort with _ | _ | _
  · exact .plain rfl nofun .nil
  · exact .plain rfl nofun (.plain rfl nofun .nil)
  · exact .plain rfl nofun (.plain rfl nofun .nil)

theorem Bracketed.braces {ys : List Terminal} (h : Bracketed ys) :
    Bracketed (Terminal.within .braceOpen .braceClose ys) := h.within rfl

mutual

/-- The yield of a term is bracketed. -/
theorem Term.bracketed (t : Term) : Bracketed t.yield := by
  cases t with
  | ident text => exact .name .nil
  | literal value => exact .value .nil
  | block body => exact .plain rfl nofun (bracketed_termsYield body).braces
  | generic params body => exact ((bracketed_paramsYield params).within rfl).append body.bracketed
  | binding b => exact b.bracketed
  | forEach text source body =>
    have h := source.bracketed.append (bracketed_termsYield body).braces
    exact .plain rfl nofun (.name (.plain rfl nofun h))
  | forever body => exact .plain rfl nofun (bracketed_termsYield body).braces
  | forWhile condition body =>
    exact .plain rfl nofun (condition.bracketed.append (bracketed_termsYield body).braces)
  | signature sort text params =>
    have h := (bracketed_nameYield text).append (bracketed_paramsYield params).braces
    cases sort <;> exact .plain rfl nofun h
  | record sort text fields =>
    have h := (bracketed_nameYield text).append (bracketed_fieldsYield fields).braces
    cases sort <;> exact .plain rfl nofun h
  | trait text bindings =>
    have h := (bracketed_nameYield text).append (bracketed_bindingsYield bindings).braces
    exact .plain rfl nofun h
  | funType params result =>
    have h := (bracketed_termsYield params).within (o := .parenOpen) rfl
    exact h.append (.plain rfl nofun result.bracketed)
  | function params result body =>
    have h := (bracketed_paramsYield params).within (o := .parenOpen) rfl
    exact h.append ((bracketed_resultYield result).append body.bracketed)
  | cases branches => exact .plain rfl nofun (bracketed_branchesYield branches).braces
  | spread sort operand => cases sort <;> exact .plain rfl nofun operand.bracketed
  | select target text => exact target.bracketed.append (.plain rfl nofun (.name .nil))
  | apply sort target args =>
    have h := bracketed_argsYield args
    cases sort <;> exact target.bracketed.append (h.within rfl)
  | applyNamed target fields => exact target.bracketed.append (bracketed_fieldsYield fields).braces
  | assign target value => exact target.bracketed.append (.plain rfl nofun value.bracketed)

theorem bracketed_termsYield (ts : List Term) : Bracketed (termsYield ts) := by
  cases ts with
  | nil => exact .nil
  | cons t ts => exact t.bracketed.append (bracketed_termsYield ts)

theorem bracketed_resultYield (result : Option Term) : Bracketed (resultYield result) := by
  cases result with
  | none => exact .nil
  | some t => exact .plain rfl nofun t.bracketed

theorem Anno.bracketed (a : Anno) : Bracketed a.yield := by
  cases a with
  | mk sort type => exact (bracketed_annoStartYield sort).append type.bracketed

theorem bracketed_annoYield (anno : Option Anno) : Bracketed (annoYield anno) := by
  cases anno with
  | none => exact .nil
  | some a => exact a.bracketed

theorem Param.bracketed (p : Param) : Bracketed p.yield := by
  cases p with
  | mk text anno => exact .name (bracketed_annoYield anno)

theorem bracketed_paramsYield (ps : List Param) : Bracketed (paramsYield ps) := by
  cases ps with
  | nil => exact .nil
  | cons p ps => exact p.bracketed.append (bracketed_paramsYield ps)

theorem Field.bracketed (f : Field) : Bracketed f.yield := by
  cases f with
  | given text anno value =>
    exact .name ((bracketed_annoYield anno).append (.plain rfl nofun value.bracketed))
  | shorthand text => exact .name .nil

theorem bracketed_fieldsYield (fs : List Field) : Bracketed (fieldsYield fs) := by
  cases fs with
  | nil => exact .nil
  | cons f fs => exact f.bracketed.append (bracketed_fieldsYield fs)

theorem Arg.bracketed (a : Arg) : Bracketed a.yield := by
  cases a with
  | named field => exact field.bracketed
  | positional term => exact term.bracketed

theorem bracketed_argsYield (as : List Arg) : Bracketed (argsYield as) := by
  cases as with
  | nil => exact .nil
  | cons a as => exact a.bracketed.append (bracketed_argsYield as)

theorem Body.bracketed (b : Body) : Bracketed b.yield := by
  cases b with
  | block terms => exact .plain rfl nofun (bracketed_termsYield terms).braces
  | single term => exact .plain rfl nofun term.bracketed

theorem Branch.bracketed (b : Branch) : Bracketed b.yield := by
  cases b with
  | mk guard body => exact .plain rfl nofun (guard.bracketed.append body.bracketed)

theorem bracketed_branchesYield (bs : List Branch) : Bracketed (branchesYield bs) := by
  cases bs with
  | nil => exact .nil
  | cons b bs => exact b.bracketed.append (bracketed_branchesYield bs)

theorem Binding.bracketed (b : Binding) : Bracketed b.yield := by
  cases b with
  | init text anno value =>
    have h : Bracketed (.mark .equals :: value.yield) := .plain rfl nofun value.bracketed
    exact .plain rfl nofun (.name ((bracketed_annoYield anno).append h))
  | bare text => exact .plain rfl nofun (.name .nil)

theorem bracketed_bindingsYield (bs : List Binding) : Bracketed (bindingsYield bs) := by
  cases bs with
  | nil => exact .nil
  | cons b bs => exact b.bracketed.append (bracketed_bindingsYield bs)

end

/-! ## Bracketed rows are balanced -/

theorem Bracketed.kind_ne_eof {ys : List Terminal} (h : Bracketed ys) : ∀ y ∈ ys, y.kind ≠ .eof := by
  induction h with
  | nil => exact List.forall_mem_nil _
  | plain _ he _ ih => exact List.forall_mem_cons.2 ⟨he, ih⟩
  | pair hp _ _ ihi ihy =>
    obtain ⟨ho, hc⟩ := Kind.bracket_of_partner? hp
    refine List.forall_mem_append.2 ⟨List.forall_mem_cons.2 ⟨Kind.ne_eof_of_bracket ho nofun, ?_⟩, ihy⟩
    refine List.forall_mem_append.2 ⟨ihi, List.forall_mem_cons.2 ⟨?_, List.forall_mem_nil _⟩⟩
    exact Kind.ne_eof_of_bracket hc nofun

theorem Bracketed.balanced {ys : List Terminal} (h : Bracketed ys) :
    Balanced (ys.map Terminal.kind) := by
  induction h with
  | nil => exact sinks_nil.2 rfl
  | plain hb _ _ ih => exact (sinks_plain hb).2 ih
  | pair hp _ _ ihi ihy =>
    obtain ⟨ho, hc⟩ := Kind.bracket_of_partner? hp
    simpa [Terminal.within, Terminal.kind] using ihi.pair ho hc ihy

theorem map_kind_of_map_terminal {row : List Token} {ys : List Terminal}
    (h : row.map (·.terminal) = ys) : row.map (·.kind) = ys.map Terminal.kind := by
  rw [← h, List.map_map]
  exact List.map_congr_left fun t _ => (Word.kind_terminal t.toWord).symm

/-- Looking forward, a bracketed row inside an open bracket changes no count. -/
theorem Stream.closeIn_bracketed {ys : List Terminal} (h : Bracketed ys) {row : List Token}
    (hrow : row.map (·.terminal) = ys) (rest : List Token) (i opened : Nat) :
    closeIn (row ++ rest) i (opened + 1) = closeIn rest (i + row.length) (opened + 1) := by
  have hsinks : Sinks 0 (row.map (·.kind)) := map_kind_of_map_terminal hrow ▸ h.balanced
  have he : ∀ t ∈ row, t.kind ≠ .eof := by
    intro t ht
    rw [← Word.kind_terminal]
    exact h.kind_ne_eof _ (hrow ▸ List.mem_map_of_mem ht)
  rw [← closeIn_sinks hsinks he rest i opened, Nat.zero_add]

end TermLang
