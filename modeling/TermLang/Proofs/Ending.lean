import TermLang.Proofs.Attempts
import TermLang.Proofs.OpenTerms

/-!
# The parser ends

The cursor does not only move forward, so that the parser ends is seen from the terms that it reads: those
that are open at one time begin at later and later tokens, and a head or a guard is read twice at most.
Whatever a list gathers, be it the links of a chain, has passed a token. So the numbers that bound the
terms open inside one another and the rounds of the loops are never reached: with any larger ones the
answer is the same.
-/

namespace TermLang

namespace Parse

variable {α β : Type}

/-- Every run of the parser passes a token, and stays in the row. -/
def Advances (p : Parse α) : Prop :=
  ∀ ⦃s : Stream⦄ ⦃c : Cursor⦄ ⦃a : α⦄ ⦃x : Cursor⦄, p.Runs s c a x →
    c.pos < x.pos ∧ x.pos ≤ s.tokens.size

theorem ReadsAs.advances {p : Parse α} {yield : α → List Terminal} {parts : α → List Term}
    (hread : p.ReadsAs yield parts) (hne : ∀ a, yield a ≠ []) : p.Advances := by
  intro s c a x h
  have hrow := (hread h).row
  have hlen := List.length_pos_iff.2 (hne a)
  have hstart : c.pos < s.tokens.size := by
    cases hy : yield a with
    | nil => exact absurd hy (hne a)
    | cons y ys =>
      rw [hy] at hrow
      exact hrow.start_lt
  refine ⟨?_, hrow.stop_le (Nat.le_of_lt hstart)⟩
  rw [hrow.stop_eq]
  omega

/-- Where nothing is skipped, the cursor stays. -/
theorem eq_of_runs_skip {k : Kind} {s : Stream} {c x : Cursor} (h : (skip k).Runs s c false x) : c = x := by
  simp only [skip, runs_bind, runs_at?] at h
  obtain ⟨_, _, ⟨rfl, rfl⟩, h⟩ := h
  split at h
  · simp only [runs_bind, runs_pure, Bool.true_eq_false, false_and, and_false, exists_false] at h
  · exact (runs_pure.1 h).2

/-- A list is the same with any bounds that suffice for the tokens that are left. -/
theorem itemsWithin_congr {close : Kind} {begins : Kind → Bool} {rule : Rule} {expected : List Kind}
    {item : Parse α} (hitem : item.Advances) {s : Stream} {m n : Nat} {c : Cursor}
    (hle : c.pos ≤ s.tokens.size) (hm : s.remaining c.pos ≤ m) (hn : s.remaining c.pos ≤ n) :
    itemsWithin close begins rule expected item m s c =
      itemsWithin close begins rule expected item n s c := by
  unfold Stream.remaining at hm hn
  induction m generalizing n c with
  | zero => omega
  | succ m ih =>
    obtain ⟨n, rfl⟩ : ∃ k, n = k + 1 := ⟨n - 1, by omega⟩
    refine bind_congr rfl fun b x hskip => ?_
    cases b with
    | true => rfl
    | false =>
      obtain rfl := eq_of_runs_skip hskip
      refine bind_congr rfl fun k x hkind => ?_
      obtain ⟨rfl, rfl⟩ := runs_kind.1 hkind
      split
      · refine bind_congr rfl fun a y ha => ?_
        obtain ⟨hlt, hy⟩ := hitem ha
        have hrest : itemsWithin close begins rule expected item m s y =
            itemsWithin close begins rule expected item n s y := ih hy (by omega) (by omega)
        exact bind_congr hrest fun _ _ _ => rfl
      · rfl

end Parse

namespace Grammar

open Parse

variable {s : Stream} {c : Cursor}

/-! ## Rounds -/

/-- The items that a list of the grammar gathers. -/
inductive ListItem : {α : Type} → Parse α → Prop
  | term : ListItem (term .free)
  | param : ListItem (param term)
  | field : ListItem (field term)
  | arg : ListItem (arg term)
  | traitBinding : ListItem (traitBinding term)
  | branch : ListItem (branch term)

theorem ListItem.advances {α : Type} {item : Parse α} (h : ListItem item) : item.Advances := by
  cases h with
  | term => exact (term_reads .free).advances Term.yield_ne_nil
  | param => exact (param_reads term_reads).advances Param.yield_ne_nil
  | field => exact (field_reads term_reads).advances Field.yield_ne_nil
  | arg => exact (arg_reads term_reads).advances Arg.yield_ne_nil
  | traitBinding => exact (traitBinding_reads term_reads).advances Binding.yield_ne_nil
  | branch => exact (branch_reads term_reads).advances Branch.yield_ne_nil

theorem chainWithin_congr {r : Restrictions} {target : Term} {m n : Nat} (hle : c.pos ≤ s.tokens.size)
    (hm : s.remaining c.pos ≤ m) (hn : s.remaining c.pos ≤ n) :
    chainWithin term r m target s c = chainWithin term r n target s c := by
  unfold Stream.remaining at hm hn
  induction m generalizing n c target with
  | zero => omega
  | succ m ih =>
    obtain ⟨n, rfl⟩ : ∃ k, n = k + 1 := ⟨n - 1, by omega⟩
    refine bind_congr rfl fun k x hkind => ?_
    obtain ⟨rfl, rfl⟩ := runs_kind.1 hkind
    split
    · refine bind_congr rfl fun _ x hlevel => bind_congr rfl fun found y hlink => ?_
      obtain ⟨-, rfl⟩ := runs_descend.1 hlevel
      cases found with
      | none => rfl
      | some longer =>
        obtain ⟨ys, hread, -, hlt⟩ := reads_of_link hlink
        simp only at hlt
        have hrest : chainWithin term r m longer s y = chainWithin term r n longer s y :=
          ih (hread.row.stop_le hle) (by omega) (by omega)
        exact bind_congr hrest fun _ _ _ => rfl
    · rfl

theorem topTermsWithin_congr {m n : Nat} (hle : c.pos ≤ s.tokens.size)
    (hm : s.remaining c.pos ≤ m) (hn : s.remaining c.pos ≤ n) :
    topTermsWithin m s c = topTermsWithin n s c := by
  unfold Stream.remaining at hm hn
  induction m generalizing n c with
  | zero => omega
  | succ m ih =>
    obtain ⟨n, rfl⟩ : ∃ k, n = k + 1 := ⟨n - 1, by omega⟩
    refine bind_congr rfl fun ended x hend => ?_
    obtain ⟨-, rfl⟩ := runs_at?.1 hend
    split
    · rfl
    · refine bind_congr rfl fun t y ht => ?_
      have hlt := lt_of_term ht
      have hrest : topTermsWithin m s y = topTermsWithin n s y :=
        ih (stop_le_of_term ht) (by omega) (by omega)
      exact bind_congr hrest fun _ _ _ => rfl

/-- With any number of levels that suffices for the tokens that are left, the same term is read. -/
theorem result_termWithin {r : Restrictions} {levels : Nat} (hle : c.pos ≤ s.tokens.size)
    (hlevels : s.remaining c.pos ≤ levels) : (termWithin levels r s c).result = (term r s c).result := by
  have hself : (Window.self s 0).Sees .whole c.pos c c := sees_self rfl rfl hle
  have hlimit : (Window.self s 0).limit .whole < c.pos + levels := by
    show s.tokens.size < c.pos + levels
    unfold Stream.remaining at hlevels
    omega
  exact result_eq_of_mimics (mimics_termWithin_term hself hlimit r)

/-- All that a parser of programs does at a stream comes to an end. -/
structure Ends (s : Stream) : Prop where
  /-- The terms that are open at one time begin at later and later tokens. -/
  opened : ∀ starts, Call.Open (program s .start).calls starts →
    starts.Pairwise (· < ·) ∧ starts.length ≤ s.tokens.size + 1
  /-- A loop sets out to read two terms at most that begin at one token. -/
  loops : ∀ c, c.pos ≤ s.tokens.size → c.depth ≤ s.maxDepth → ∀ i, (loop term s c).readsAt i ≤ 2
  /-- So does a branch. -/
  branches : ∀ c, c.pos ≤ s.tokens.size → c.depth ≤ s.maxDepth → ∀ i, (branch term s c).readsAt i ≤ 2
  /-- Each item of a list passes a token. -/
  items : ∀ {α : Type} {item : Parse α}, ListItem item → ∀ c a x, item.Runs s c a x → c.pos < x.pos
  /-- Each link of a chain passes a token. -/
  links : ∀ r target longer c x, (link term r target).Runs s c (some longer) x → c.pos < x.pos
  /-- No list is longer than the tokens that are left, so with more rounds it is the same. -/
  rounds : ∀ {α : Type} {item : Parse α}, ListItem item → ∀ close begins rule expected bound c,
    c.pos ≤ s.tokens.size → s.remaining c.pos ≤ bound →
      itemsWithin close begins rule expected item bound s c =
        itemsWithin close begins rule expected item (s.remaining c.pos) s c
  /-- Nor is a chain. -/
  chains : ∀ r target bound c, c.pos ≤ s.tokens.size → s.remaining c.pos ≤ bound →
    chainWithin term r bound target s c = chainWithin term r (s.remaining c.pos) target s c
  /-- Nor is a program. -/
  programs : ∀ bound c, c.pos ≤ s.tokens.size → s.remaining c.pos ≤ bound →
    topTermsWithin bound s c = topTermsWithin (s.remaining c.pos) s c
  /-- No more terms are open inside one another than tokens are left, so with more levels the answer is
  the same. -/
  levels : ∀ r bound c, c.pos ≤ s.tokens.size → s.remaining c.pos ≤ bound →
    (termWithin bound r s c).result = (term r s c).result

end Grammar

/-- Whatever the tokens and the nesting limit, the parser of programs ends, with a program or an error. -/
theorem parser_ends (tokens : List Token) (maxDepth : Nat) : Grammar.Ends ⟨tokens.toArray, maxDepth⟩ ∧
    ((∃ p, parseProgram tokens maxDepth = .ok p) ∨ ∃ e, parseProgram tokens maxDepth = .error e) := by
  refine ⟨?_, ?_⟩
  · have hstart : Stream.Ready ⟨tokens.toArray, maxDepth⟩ .start 0 0 .start :=
      { Stream.Above.refl (Nat.zero_le _) (Nat.zero_le _) with first_le := Nat.le_refl 0 }
    exact {
      opened := fun starts hopen => by
        obtain ⟨hpairwise, -, hlen⟩ := hopen.rises (Grammar.keeps_program .start hstart).calls
        exact ⟨hpairwise, hlen⟩
      loops := fun c hpos hdepth _ => Grammar.readsAt_loop (.refl hpos hdepth)
      branches := fun c hpos hdepth _ => Grammar.readsAt_branch (.refl hpos hdepth)
      items := fun hitem _ _ _ hrun => (hitem.advances hrun).1
      links := fun _ _ _ _ _ hrun => (Grammar.reads_of_link hrun).choose_spec.2.2
      rounds := fun hitem _ _ _ _ _ _ hle hbound =>
        Parse.itemsWithin_congr hitem.advances hle hbound (Nat.le_refl _)
      chains := fun _ _ _ _ hle hbound => Grammar.chainWithin_congr hle hbound (Nat.le_refl _)
      programs := fun _ _ hle hbound => Grammar.topTermsWithin_congr hle hbound (Nat.le_refl _)
      levels := fun _ _ _ hle hbound => Grammar.result_termWithin hle hbound }
  · cases parseProgram tokens maxDepth with
    | ok p => exact .inl ⟨p, rfl⟩
    | error e => exact .inr ⟨e, rfl⟩

end TermLang
