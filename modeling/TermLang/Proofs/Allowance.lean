import TermLang.Dump.Ron

/-!
# What the allowance lets pass

Writing a tree in the RON format takes from an allowance for every value it goes into, gives that back
when it comes out, and adds the refund for every list, tuple and record that it has finished. So a tree
is written if and only if no value stands inside more others than were allowed at the start and refunded
before it (`Tree.isSome_ron?_iff`).
-/

namespace TermLang.Tree

/-! ## Values in a tree -/

/-- The values right inside a tree: payloads, present options, items and entries, in order. -/
def children : Tree → List Tree
  | .present t | .single _ t => [t]
  | .list items | .tuple _ items => items
  | .fields _ entries | .record _ entries => entries.map (·.2)
  | _ => []

mutual

/-- The number of lists, tuples and records in a tree. -/
def compounds : Tree → Nat
  | .present t | .single _ t => t.compounds
  | .list items | .tuple _ items => itemsCompounds items + 1
  | .fields _ entries | .record _ entries => entriesCompounds entries + 1
  | _ => 0

/-- The number of lists, tuples and records in some items. -/
def itemsCompounds : List Tree → Nat
  | [] => 0
  | t :: ts => t.compounds + itemsCompounds ts

/-- The number of lists, tuples and records in some entries. -/
def entriesCompounds : List (String × Tree) → Nat
  | [] => 0
  | (_, t) :: es => t.compounds + entriesCompounds es

end

theorem entriesCompounds_eq (es : List (String × Tree)) :
    entriesCompounds es = itemsCompounds (es.map (·.2)) := by
  induction es with
  | nil => rfl
  | cons e es ih => rw [entriesCompounds, ih, List.map_cons, itemsCompounds]

/-- In the tree there is a value inside so many others, with so many lists, tuples and records finished
before it. -/
inductive Holds : Tree → (depth finished : Nat) → Prop
  | here (t : Tree) : t.Holds 0 0
  | inside {t u : Tree} (before after : List Tree) {d f : Nat} : t.children = before ++ u :: after →
      u.Holds d f → t.Holds (d + 1) (itemsCompounds before + f)

/-- No value in the tree stands inside more others than so many and what is refunded before it. -/
def Admits (refund n : Nat) (t : Tree) : Prop := ∀ d f, t.Holds d f → d ≤ n + refund * f

/-- The values of a row, each inside one other, stand inside no more than so many and what is refunded
before them. -/
def AdmitsAll (refund n : Nat) (ts : List Tree) : Prop :=
  ∀ before u after, ts = before ++ u :: after → ∀ d f, u.Holds d f →
    d + 1 ≤ n + refund * (itemsCompounds before + f)

variable {refund n : Nat}

theorem admits_iff {t : Tree} : t.Admits refund n ↔ AdmitsAll refund n t.children := by
  constructor
  · intro h before u after hchildren d f hu
    exact h _ _ (.inside before after hchildren hu)
  · intro h d f ht
    cases ht with
    | here => exact Nat.zero_le _
    | inside before after hchildren hu => exact h before _ after hchildren _ _ hu

theorem admitsAll_nil : AdmitsAll refund n [] := by
  intro before u after h
  exact absurd h.symm (by simp)

theorem not_admitsAll_zero {t : Tree} {ts : List Tree} : ¬ AdmitsAll refund 0 (t :: ts) := by
  intro h
  have hfirst := h [] t ts rfl 0 0 (.here t)
  rw [itemsCompounds, Nat.add_zero, Nat.mul_zero] at hfirst
  exact absurd hfirst (by decide)

/-- The first value has one level less, and what it refunds counts for the others. -/
theorem admitsAll_cons {t : Tree} {ts : List Tree} :
    AdmitsAll refund (n + 1) (t :: ts) ↔
      t.Admits refund n ∧ AdmitsAll refund (n + refund * t.compounds + 1) ts := by
  constructor
  · intro h
    constructor
    · intro d f ht
      have := h [] t ts rfl d f ht
      rw [itemsCompounds, Nat.zero_add] at this
      omega
    · rintro before u after rfl d f hu
      have := h (t :: before) u after rfl d f hu
      rw [itemsCompounds, Nat.add_assoc t.compounds, Nat.mul_add] at this
      omega
  · rintro ⟨ht, hts⟩ before u after heq d f hu
    -- a value in the first tree has nothing of the row in front of it, any other has all of that tree
    cases before with
    | nil =>
      obtain ⟨rfl, -⟩ := List.cons_eq_cons.1 heq
      have := ht d f hu
      rw [itemsCompounds, Nat.zero_add]
      omega
    | cons t' before =>
      obtain ⟨rfl, rfl⟩ := List.cons_eq_cons.1 heq
      have := hts before u after rfl d f hu
      rw [itemsCompounds, Nat.add_assoc t.compounds, Nat.mul_add]
      omega

/-! ## The allowance -/

/-- How many refunds there are for a tree itself. -/
def bonus : Tree → Nat
  | .list _ | .tuple _ _ | .fields _ _ | .record _ _ => 1
  | _ => 0

theorem compounds_eq (t : Tree) : t.compounds = itemsCompounds t.children + t.bonus := by
  cases t <;> simp [compounds, children, bonus, itemsCompounds, entriesCompounds_eq]

theorem entriesAllowanceAfter?_eq (es : List (String × Tree)) (n : Nat) :
    entriesAllowanceAfter? refund n es = itemsAllowanceAfter? refund n (es.map (·.2)) := by
  induction es generalizing n with
  | nil => cases n <;> rfl
  | cons e es ih =>
    cases n with
    | zero => rfl
    | succ n => simp only [entriesAllowanceAfter?, List.map_cons, itemsAllowanceAfter?, ih]

/-- A tree is written as the row of the values right inside it. -/
theorem allowanceAfter?_eq (t : Tree) (n : Nat) :
    t.allowanceAfter? refund n =
      (itemsAllowanceAfter? refund n t.children).map (· + refund * t.bonus) := by
  cases t with
  | present t | single label t =>
    cases n with
    | zero => rfl
    | succ n =>
      simp only [allowanceAfter?, children, itemsAllowanceAfter?, bonus]
      cases t.allowanceAfter? refund n <;> rfl
  | fields label es | record label es =>
    simp only [allowanceAfter?, children, bonus, entriesAllowanceAfter?_eq, Nat.mul_one]
  | list ts | tuple label ts => simp only [allowanceAfter?, children, bonus, Nat.mul_one]
  | _ => cases n <;> rfl

/-- The tree is written under just the allowances that admit it, and adds to them what it refunds. -/
def Metered (refund : Nat) (t : Tree) : Prop :=
  ∀ n m, t.allowanceAfter? refund n = some m ↔ t.Admits refund n ∧ m = n + refund * t.compounds

/-- The row is written under just the allowances that admit it, and adds to them what it refunds. -/
def MeteredAll (refund : Nat) (ts : List Tree) : Prop :=
  ∀ n m, itemsAllowanceAfter? refund n ts = some m ↔
    AdmitsAll refund n ts ∧ m = n + refund * itemsCompounds ts

theorem metered_of_children {t : Tree} (h : MeteredAll refund t.children) : t.Metered refund := by
  intro n m
  rw [allowanceAfter?_eq, Option.map_eq_some_iff, admits_iff, compounds_eq, Nat.mul_add]
  constructor
  · rintro ⟨k, hk, rfl⟩
    obtain ⟨hadmits, rfl⟩ := (h n k).1 hk
    exact ⟨hadmits, Nat.add_assoc ..⟩
  · rintro ⟨hadmits, rfl⟩
    exact ⟨_, (h n _).2 ⟨hadmits, rfl⟩, Nat.add_assoc ..⟩

theorem meteredAll_nil : MeteredAll refund [] := by
  intro n m
  have h : itemsAllowanceAfter? refund n [] = some n := by cases n <;> rfl
  rw [h, Option.some.injEq, itemsCompounds, Nat.mul_zero]
  exact ⟨fun h => ⟨admitsAll_nil, h.symm⟩, fun h => h.2.symm⟩

theorem meteredAll_cons {t : Tree} {ts : List Tree} (ht : t.Metered refund)
    (hts : MeteredAll refund ts) : MeteredAll refund (t :: ts) := by
  intro n m
  cases n with
  | zero => exact ⟨nofun, fun h => absurd h.1 not_admitsAll_zero⟩
  | succ n =>
    rw [itemsAllowanceAfter?, Option.bind_eq_some_iff, admitsAll_cons, itemsCompounds, Nat.mul_add]
    constructor
    · rintro ⟨left, hleft, hrest⟩
      obtain ⟨hadmits, rfl⟩ := (ht n left).1 hleft
      obtain ⟨hall, rfl⟩ := (hts _ m).1 hrest
      exact ⟨⟨hadmits, hall⟩, by omega⟩
    · rintro ⟨⟨hadmits, hall⟩, rfl⟩
      exact ⟨_, (ht n _).2 ⟨hadmits, rfl⟩, (hts _ _).2 ⟨hall, by omega⟩⟩

mutual

theorem metered : ∀ t : Tree, t.Metered refund
  | .present t | .single _ t => metered_of_children (meteredAll_cons t.metered meteredAll_nil)
  | .list items | .tuple _ items => metered_of_children (meteredAll items)
  | .fields _ entries | .record _ entries => metered_of_children (meteredAll_entries entries)
  | .name _ | .string _ | .char _ | .bool _ | .int _ | .decimal _ | .absent | .unit _ =>
    metered_of_children meteredAll_nil

theorem meteredAll : ∀ ts : List Tree, MeteredAll refund ts
  | [] => meteredAll_nil
  | t :: ts => meteredAll_cons t.metered (meteredAll ts)

theorem meteredAll_entries : ∀ es : List (String × Tree), MeteredAll refund (es.map (·.2))
  | [] => meteredAll_nil
  | (_, t) :: es => meteredAll_cons t.metered (meteredAll_entries es)

end

/-- A tree is written in the RON format just if no value in it stands inside more others than the
allowance at the start and what was refunded before. -/
theorem isSome_ron?_iff (limits : RonLimits) (t : Tree) :
    (t.ron? limits).isSome ↔ t.Admits limits.refund limits.allowance := by
  rw [ron?, Option.isSome_map, Option.isSome_iff_exists]
  constructor
  · rintro ⟨m, hm⟩
    exact ((t.metered _ m).1 hm).1
  · intro h
    exact ⟨_, (t.metered _ _).2 ⟨h, rfl⟩⟩

/-! ## How deep values are nested -/

mutual

/-- The most values inside one another in a tree. -/
def nesting : Tree → Nat
  | .present t | .single _ t => t.nesting + 1
  | .list items | .tuple _ items => itemsNesting items
  | .fields _ entries | .record _ entries => entriesNesting entries
  | _ => 0

/-- The most values inside one another in a row, each inside one other. -/
def itemsNesting : List Tree → Nat
  | [] => 0
  | t :: ts => max (t.nesting + 1) (itemsNesting ts)

/-- The most values inside one another in some entries. -/
def entriesNesting : List (String × Tree) → Nat
  | [] => 0
  | (_, t) :: es => max (t.nesting + 1) (entriesNesting es)

end

theorem itemsNesting_le_iff {ts : List Tree} {k : Nat} :
    itemsNesting ts ≤ k ↔ ∀ t ∈ ts, t.nesting + 1 ≤ k := by
  induction ts with
  | nil => simp [itemsNesting]
  | cons t ts ih => rw [itemsNesting, Nat.max_le, ih, List.forall_mem_cons]

theorem nesting_eq (t : Tree) : t.nesting = itemsNesting t.children := by
  have entries : ∀ es : List (String × Tree), entriesNesting es = itemsNesting (es.map (·.2)) := by
    intro es
    induction es with
    | nil => rfl
    | cons e es ih => rw [entriesNesting, ih, List.map_cons, itemsNesting]
  cases t <;> simp [nesting, children, itemsNesting, entries]

theorem Holds.depth_le {t : Tree} {d f : Nat} (h : t.Holds d f) : d ≤ t.nesting := by
  induction h with
  | here => exact Nat.zero_le _
  | @inside t u before after d f hchildren _ ih =>
    have hu : u ∈ t.children := by rw [hchildren]; simp
    have := itemsNesting_le_iff.1 (Nat.le_of_eq t.nesting_eq.symm) u hu
    omega

/-- What nests no more values than are allowed is written. -/
theorem admits_of_nesting_le {t : Tree} (h : t.nesting ≤ n) : t.Admits refund n := fun _ _ ht =>
  Nat.le_trans ht.depth_le (Nat.le_trans h (Nat.le_add_right _ _))

end TermLang.Tree
