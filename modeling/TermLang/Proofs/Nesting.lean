import Mathlib.Tactic.Ring
import TermLang.Term.Basic

/-!
# Nesting of terms

Two measures of how deep a term is. `Term.Path t n` is a way of `n` terms from `t` down through the
terms in it, so the longest path is the height of the tree. `Term.Fits t m` is the measure of the
parser's counter: a head stands one level above the terms in it, a link stands one level above the
links before it, and the levels of a head are given back before its links are counted.

The counter is the smaller measure. A term that fits in `m` levels has paths of up to
`m * (m + 1) / 2` terms (`Term.Fits.path_le`), since the links of each level stand on a head that
uses up the levels below once more.
-/

namespace TermLang

/-! ## Parts -/

/-- The term in an annotation. -/
def Anno.parts (a : Anno) : List Term := [a.type]

/-- The term in a parameter, if it is annotated. -/
def Param.parts : Param → List Term
  | .mk _ none => []
  | .mk _ (some a) => a.parts

/-- The terms in a field. -/
def Field.parts : Field → List Term
  | .given _ none value => [value]
  | .given _ (some a) value => a.parts ++ [value]
  | .shorthand _ => []

/-- The terms in an argument. -/
def Arg.parts : Arg → List Term
  | .named field => field.parts
  | .positional term => [term]

/-- The terms in a body. -/
def Body.parts : Body → List Term
  | .block terms => terms
  | .single term => [term]

/-- The terms in a branch. -/
def Branch.parts : Branch → List Term
  | .mk guard body => guard :: body.parts

/-- The terms in a binding. -/
def Binding.parts : Binding → List Term
  | .init _ none value => [value]
  | .init _ (some a) value => a.parts ++ [value]
  | .bare _ => []

namespace Term

/-- The term that the last link of a chain is folded onto. -/
def target? : Term → Option Term
  | .select target _ | .apply _ target _ | .applyNamed target _ | .assign target _ => some target
  | _ => none

/-- The terms right inside a term, the target of a link left out. -/
def inner : Term → List Term
  | .ident _ | .literal _ | .select _ _ => []
  | .block body | .forever body => body
  | .generic params body => params.flatMap Param.parts ++ body.parts
  | .binding b => b.parts
  | .forEach _ source body => source :: body
  | .forWhile condition body => condition :: body
  | .signature _ _ params => params.flatMap Param.parts
  | .record _ _ fields => fields.flatMap Field.parts
  | .trait _ bindings => bindings.flatMap Binding.parts
  | .funType params result => params ++ [result]
  | .function params result body => params.flatMap Param.parts ++ (result.toList ++ body.parts)
  | .cases branches => branches.flatMap Branch.parts
  | .spread _ operand => [operand]
  | .apply _ _ args => args.flatMap Arg.parts
  | .applyNamed _ fields => fields.flatMap Field.parts
  | .assign _ value => [value]

/-- The terms right inside a term. -/
def parts (t : Term) : List Term := t.target?.toList ++ t.inner

/-- The number of links folded onto the head of a chain. -/
def links : Term → Nat
  | .select target _ | .apply _ target _ | .applyNamed target _ | .assign target _ =>
    target.links + 1
  | _ => 0

theorem links_of_target {t u : Term} (h : t.target? = some u) : t.links = u.links + 1 := by
  cases t <;> simp [target?] at h <;> subst h <;> rfl

theorem links_of_head {t : Term} (h : t.target? = none) : t.links = 0 := by
  cases t <;> first | rfl | simp [target?] at h

/-! ## Paths and levels -/

/-- A way from a term down through terms inside one another, by the number of terms on it. -/
inductive Path : Term → Nat → Prop
  | here (t : Term) : t.Path 1
  | down {t u : Term} {n : Nat} : u ∈ t.parts → u.Path n → t.Path (n + 1)

/-- The term takes no more than so many nesting levels, as they are counted in parsing.

The terms in a head are one level above it. The terms in a link are above the levels of the term
around the chain, of all links before it and of the link itself; the levels inside its target are
free again. -/
inductive Fits : Term → Nat → Prop
  | head {t : Term} {k m : Nat} :
      t.target? = none → (∀ u ∈ t.inner, u.Fits k) → k < m → t.Fits m
  | link {t u : Term} {k m : Nat} :
      t.target? = some u → u.Fits m → (∀ v ∈ t.inner, v.Fits k) → u.links + 2 + k ≤ m → t.Fits m

namespace Fits

theorem mono {t : Term} {m n : Nat} (h : t.Fits m) (hmn : m ≤ n) : t.Fits n := by
  induction h with
  | head ht hi hk _ => exact .head ht hi (Nat.lt_of_lt_of_le hk hmn)
  | link ht _ hi hk ihu _ => exact .link ht (ihu hmn) hi (Nat.le_trans hk hmn)

/-- The target of a link fits where the link does. -/
theorem target {t u : Term} {m : Nat} (h : t.Fits m) (hu : t.target? = some u) : u.Fits m := by
  cases h with
  | head ht _ _ => simp [ht] at hu
  | link ht hf _ _ =>
    rw [ht, Option.some.injEq] at hu
    exact hu ▸ hf

theorem links_lt {t : Term} {m : Nat} (h : t.Fits m) : t.links < m := by
  cases h with
  | head ht _ hk => rw [links_of_head ht]; omega
  | link ht _ _ hk => rw [links_of_target ht]; omega

end Fits

/-- The sum of the first `m` levels. -/
def levelSum : Nat → Nat
  | 0 => 0
  | m + 1 => levelSum m + (m + 1)

theorem two_mul_levelSum (m : Nat) : 2 * levelSum m = m * (m + 1) := by
  induction m with
  | zero => rfl
  | succ m ih => rw [levelSum, Nat.mul_add, ih]; ring

theorem levelSum_eq (m : Nat) : levelSum m = m * (m + 1) / 2 := by
  have := two_mul_levelSum m
  omega

theorem levelSum_mono {k m : Nat} (h : k ≤ m) : levelSum k ≤ levelSum m := by
  induction h with
  | refl => exact Nat.le_refl _
  | step _ ih => exact Nat.le_trans ih (Nat.le_add_right _ _)

theorem levelSum_pred {m : Nat} (h : 0 < m) : levelSum m = levelSum (m - 1) + m := by
  obtain ⟨k, rfl⟩ := Nat.exists_eq_add_of_lt h
  rw [Nat.zero_add, Nat.add_sub_cancel, levelSum]

theorem le_levelSum {k l n : Nat} (hl : l < k) (hn : n ≤ l + 1 + levelSum (k - 1)) :
    n ≤ levelSum k := by
  rw [levelSum_pred (by omega : 0 < k)]
  omega

/-- The links of a chain come on top of its head, whose parts have all levels but one. -/
theorem Fits.path_le_links {t : Term} {m : Nat} (h : t.Fits m) :
    ∀ {n : Nat}, t.Path n → n ≤ t.links + 1 + levelSum (m - 1) := by
  induction h with
  | @head t k m ht hi hk ih =>
    intro n hp
    cases hp with
    | here => omega
    | @down _ u n hu hp =>
      rw [parts, ht, Option.toList_none, List.nil_append] at hu
      have hn : n ≤ levelSum k := le_levelSum (hi u hu).links_lt (ih u hu hp)
      have hs : levelSum k ≤ levelSum (m - 1) := levelSum_mono (by omega)
      omega
  | @link t u k m ht _ hi hk ihu ihi =>
    intro n hp
    rw [links_of_target ht]
    cases hp with
    | here => omega
    | @down _ v n hv hp =>
      rw [parts, ht, Option.toList_some, List.singleton_append, List.mem_cons] at hv
      rcases hv with rfl | hv
      · have := ihu hp
        omega
      · have hn : n ≤ levelSum k := le_levelSum (hi v hv).links_lt (ihi v hv hp)
        have hs : levelSum k ≤ levelSum (m - 1) := levelSum_mono (by omega)
        omega

/-- A path through a term that fits in `m` levels is no longer than these levels summed up. -/
theorem Fits.path_le {t : Term} {m n : Nat} (h : t.Fits m) (hp : t.Path n) :
    n ≤ m * (m + 1) / 2 := by
  rw [← levelSum_eq]
  exact le_levelSum h.links_lt (h.path_le_links hp)

end Term

end TermLang
