import TermLang.Token.Kind

/-!
# Sets of token kinds

What a rule would have accepted is a set of kinds. It is listed in declaration order, each kind
once, so two sets with the same members are equal.
-/

namespace TermLang

/-- A set of kinds, listed in declaration order. -/
structure KindSet where
  toList : List Kind
  ordered : toList.Sublist Kind.all
deriving DecidableEq, Repr

namespace KindSet

/-- The set of the listed kinds. -/
def ofList (kinds : List Kind) : KindSet :=
  ⟨Kind.all.filter (kinds.contains ·), List.filter_sublist⟩

/-- The set without members. -/
def empty : KindSet := ⟨[], List.nil_sublist _⟩

instance : Inhabited KindSet := ⟨empty⟩

/-- The kind is a member. -/
def contains (s : KindSet) (k : Kind) : Bool := s.toList.contains k

/-- The set has no member. -/
def isEmpty (s : KindSet) : Bool := s.toList.isEmpty

instance : Membership Kind KindSet := ⟨fun s k => k ∈ s.toList⟩

@[simp] theorem mem_ofList {kinds : List Kind} {k : Kind} : k ∈ ofList kinds ↔ k ∈ kinds := by
  change k ∈ Kind.all.filter (kinds.contains ·) ↔ k ∈ kinds
  simp [Kind.mem_all]

theorem not_mem_empty (k : Kind) : ¬ k ∈ empty := List.not_mem_nil

theorem contains_iff {s : KindSet} {k : Kind} : s.contains k = true ↔ k ∈ s := by
  change s.toList.contains k = true ↔ k ∈ s.toList
  simp

/-- The members in words: `nothing`, the only one, or `one of` them all. -/
def text (s : KindSet) : String :=
  match s.toList with
  | [] => "nothing"
  | [k] => k.text
  | ks => "one of " ++ ", ".intercalate (ks.map Kind.text)

end KindSet

end TermLang
