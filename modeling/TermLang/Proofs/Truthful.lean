import TermLang.Proofs.Orderly

/-!
# Errors that do not contradict themselves

An error that names what would have been accepted names something, and never what was found. Each place
that rejects a token has tested the token before, but not always with the kinds that it names: a list
tests for its closing mark and for what begins an item, a head goes through the kinds one by one, and the
rounds of a list and the terms open inside one another are numbered. The numbers never run out, since
each item passes a token and each term inside another begins at a later one; so the place where a term
may begin is carried along with the cursor (`Stream.Ready`).
-/

namespace TermLang

/-- If the error names the kinds that would have been accepted, there are some, and the one that was
found is not among them. -/
def SyntaxError.Truthful (e : SyntaxError) : Prop :=
  ∀ kinds, e.fault = .unexpected kinds → kinds.toList ≠ [] ∧ e.found ∉ kinds

namespace Parse

variable {α β : Type} {s : Stream} {c x : Cursor} {first n : Nat}

/-- If the parser fails at a cursor, its error is truthful. -/
def Truthful (p : Parse α) (s : Stream) (c : Cursor) : Prop :=
  ∀ e, (p s c).result = .error e → e.Truthful

/-- The errors of the parser are truthful wherever a term may be begun `n` tokens further on. -/
def TruthfulFrom (p : Parse α) (s : Stream) (first n : Nat) : Prop :=
  ∀ c, s.Ready .start first n c → p.Truthful s c

theorem TruthfulFrom.mono {p : Parse α} {m : Nat} (h : p.TruthfulFrom s first n) (hmn : m ≤ n) :
    p.TruthfulFrom s first m :=
  fun c hc => h c (hc.mono hmn)

/-! ## Sequences -/

theorem Runs.truthful {p : Parse α} {a : α} (h : p.Runs s c a x) : p.Truthful s c :=
  fun _ he => nomatch h.1.symm.trans he

/-- A sequence is truthful if its first part is, and its second part is from wherever that leads. -/
theorem truthful_bind {p : Parse α} {f : α → Parse β} (hp : p.Truthful s c)
    (hf : ∀ a x, p.Runs s c a x → (f a).Truthful s x) : (p >>= f).Truthful s c := by
  intro e he
  change (Parse.bind p f s c).result = .error e at he
  unfold Parse.bind at he
  dsimp only at he
  split at he
  · exact hf _ _ ⟨‹_›, rfl⟩ e he
  · rename_i e' hr
    obtain rfl := Except.error.inj he
    exact hp _ hr

/-- What follows a parser whose run is known. -/
theorem Runs.then_truthful {p : Parse α} {f : α → Parse β} {a : α} (hrun : p.Runs s c a x)
    (hf : (f a).Truthful s x) : (p >>= f).Truthful s c := by
  refine truthful_bind hrun.truthful fun b y hb => ?_
  obtain ⟨rfl, rfl⟩ := hrun.unique hb
  exact hf

theorem truthful_pure (a : α) : (pure a : Parse α).Truthful s c := Runs.truthful ⟨rfl, rfl⟩

/-- A last step that does not fail changes nothing. -/
theorem Truthful.map {p : Parse α} {f : α → β} (hp : p.Truthful s c) :
    (p >>= fun a => pure (f a)).Truthful s c :=
  truthful_bind hp fun _ _ _ => truthful_pure _

/-- What follows something that was read. -/
theorem Truthful.then {p : Parse α} {f : α → Parse β} {yield : α → List Terminal}
    {parts : α → List Term} (hp : p.Truthful s c) (hread : p.ReadsAs yield parts)
    (h : s.Ready .start first n c)
    (hf : ∀ a x, s.Ready .start first (n - (yield a).length) x → (f a).Truthful s x) :
    (p >>= f).Truthful s c :=
  truthful_bind hp fun a x hrun => hf a x (h.reads (hread hrun))

/-! ## Looking and moving -/

theorem truthful_cursor {f : Cursor → Parse β} (hf : (f c).Truthful s c) :
    (cursor >>= f).Truthful s c :=
  (runs_cursor.2 ⟨rfl, rfl⟩).then_truthful hf

theorem truthful_current {f : Option Token → Parse β} (hf : (f s.tokens[c.pos]?).Truthful s c) :
    (current >>= f).Truthful s c :=
  (runs_current.2 ⟨rfl, rfl⟩).then_truthful hf

theorem truthful_nthKind {m : Nat} {f : Kind → Parse β} (hf : (f (s.kindAt (c.pos + m))).Truthful s c) :
    (nthKind m >>= f).Truthful s c :=
  (runs_nthKind.2 ⟨rfl, rfl⟩).then_truthful hf

theorem truthful_kind {f : Kind → Parse β} (hf : (f (s.kindAt c.pos)).Truthful s c) :
    (kind >>= f).Truthful s c :=
  (runs_kind.2 ⟨rfl, rfl⟩).then_truthful hf

theorem truthful_at? {k : Kind} {f : Bool → Parse β}
    (hf : (f (decide (s.kindAt c.pos = k))).Truthful s c) : (at? k >>= f).Truthful s c :=
  (runs_at?.2 ⟨rfl, rfl⟩).then_truthful hf

theorem truthful_note {m : Note} {f : Unit → Parse β} (hf : (f ()).Truthful s c) :
    (note m >>= f).Truthful s c :=
  (runs_note.2 rfl).then_truthful hf

theorem truthful_restore {saved : Cursor} {f : Unit → Parse β} (hf : (f ()).Truthful s saved) :
    (restore saved >>= f).Truthful s c :=
  (runs_restore.2 rfl).then_truthful hf

theorem truthful_seek {i : Nat} {f : Unit → Parse β}
    (hf : (f ()).Truthful s { c with pos := min i s.tokens.size }) : (seek i >>= f).Truthful s c :=
  (runs_seek.2 rfl).then_truthful hf

theorem truthful_bump : bump.Truthful s c := Runs.truthful ⟨rfl, rfl⟩

theorem truthful_bump_bind {f : Unit → Parse β} (h : s.Ready .start first 1 c)
    (hk : s.kindAt c.pos ≠ .eof) (hf : ∀ x, s.Ready .start first 0 x → (f ()).Truthful s x) :
    (bump >>= f).Truthful s c := by
  have hrun : bump.Runs s c () { c with pos := c.pos + 1 } := ⟨rfl, by rw [bump, if_neg hk]⟩
  exact hrun.then_truthful (hf _ (h.bump hk))

theorem truthful_skip (k : Kind) : (skip k).Truthful s c := by
  refine truthful_at? ?_
  split
  · exact truthful_bump.map
  · exact truthful_pure _

/-! ## Failing and expecting -/

/-- A rejection is truthful if the token is none of the kinds that it names. -/
theorem truthful_reject {rule : Rule} {expected : List Kind} (hne : expected ≠ [])
    (h : s.kindAt c.pos ∉ expected) : (reject rule expected : Parse α).Truthful s c := by
  intro e he kinds hkinds
  obtain rfl := Except.error.inj he
  obtain rfl := SyntaxFault.unexpected.inj hkinds
  refine ⟨fun hnil => ?_, fun hmem => h (KindSet.mem_ofList.1 hmem)⟩
  obtain ⟨k, hk⟩ := List.exists_mem_of_ne_nil _ hne
  have hmem : k ∈ (KindSet.ofList expected).toList := KindSet.mem_ofList.2 hk
  rw [hnil] at hmem
  exact nomatch hmem

/-- Past the row an expected kind is missing for certain, unless it is the end of the input. -/
theorem truthful_expect {k : Kind} (rule : Rule) (he : k ≠ .eof) : (expect k rule).Truthful s c := by
  refine truthful_current ?_
  split
  · rename_i t ht
    split
    · exact truthful_bump.map
    · rename_i hk
      refine truthful_reject (List.cons_ne_nil _ _) fun hmem => hk ?_
      rw [← Stream.kindAt_of_token ht]
      exact List.mem_singleton.1 hmem
  · rename_i ht
    refine truthful_reject (List.cons_ne_nil _ _) fun hmem => he ?_
    rw [← List.mem_singleton.1 hmem, Stream.kindAt, ht]

theorem truthful_expect_bind {k : Kind} {rule : Rule} {f : Token → Parse β}
    (h : s.Ready .start first 1 c) (htext : k.text?.isSome = true)
    (hf : ∀ t x, s.Ready .start first 0 x → (f t).Truthful s x) : (expect k rule >>= f).Truthful s c := by
  have hread : (expect k rule).ReadsAs (fun _ => [.mark k]) (fun _ => []) :=
    fun _ _ _ _ hrun => expect_mark hrun htext
  exact (truthful_expect rule (Kind.plain_of_text? htext).1).then hread h hf

theorem truthful_expectIdent (rule : Rule) : (expectIdent rule).Truthful s c :=
  (truthful_expect rule (by decide)).map

theorem truthful_expectIdent_bind {rule : Rule} {f : String → Parse β} (h : s.Ready .start first 1 c)
    (hf : ∀ name x, s.Ready .start first 0 x → (f name).Truthful s x) :
    (expectIdent rule >>= f).Truthful s c :=
  (truthful_expectIdent rule).then (expectIdent_reads rule) h hf

/-! ## Nesting and speculation -/

/-- An error about nesting names no kinds. -/
theorem truthful_descend_bind {f : Unit → Parse β} (h : s.Ready .start first n c)
    (hf : ∀ x, s.Ready .start first n x → (f ()).Truthful s x) : (descend >>= f).Truthful s c := by
  refine truthful_bind (fun e he kinds hkinds => ?_) fun _ x hrun => ?_
  · unfold descend at he
    split at he
    · obtain rfl := Except.error.inj he
      exact nomatch hkinds
    · exact nomatch he
  · obtain ⟨hlt, rfl⟩ := runs_descend.1 hrun
    exact hf _ { h.toAbove.descend hlt with first_le := h.first_le }

/-- A speculation fails with an error of what is tried. -/
theorem Truthful.speculate {p : Parse α} (hp : p.Truthful s c) : (speculate p).Truthful s c := by
  intro e he
  unfold Parse.speculate at he
  dsimp only at he
  split at he
  · exact nomatch he
  · split at he
    · obtain rfl := Except.error.inj he
      exact hp _ ‹_›
    · exact nomatch he

/-! ## Lists -/

section

variable {close : Kind} {begins : Kind → Bool} {rule : Rule} {expected : List Kind} {item : Parse α}
  {yield : α → List Terminal} {parts : α → List Term}

/-- The kinds that a list names are its closing mark and those that begin an item. -/
structure Admits (close : Kind) (begins : Kind → Bool) (expected : List Kind) : Prop where
  close_mem : close ∈ expected
  eq_or_begins : ∀ k ∈ expected, k = close ∨ begins k = true

/-- A list whose rounds suffice for the tokens that are left never runs out of them. -/
theorem truthful_itemsWithin (hitem : item.TruthfulFrom s first 0) (hread : item.ReadsAs yield parts)
    (hne : ∀ a, yield a ≠ []) (htext : close.text?.isSome = true) (hadmits : Admits close begins expected)
    (bound : Nat) (h : s.Ready .start first 0 c) (hbound : s.remaining c.pos ≤ bound) :
    (itemsWithin close begins rule expected item bound).Truthful s c := by
  induction bound generalizing c with
  | zero =>
    have := h.pos_le
    unfold Stream.remaining at hbound
    omega
  | succ bound ih =>
    refine truthful_bind (truthful_skip close) fun b x hskip => ?_
    rcases (runs_skip (Kind.plain_of_text? htext).1).1 hskip with ⟨-, rfl⟩ | ⟨hclose, rfl, rfl⟩
    · exact truthful_pure []
    · refine truthful_kind ?_
      split
      · refine truthful_bind (hitem c h) fun a y ha => Truthful.map ?_
        have hy := h.reads (hread ha)
        have hlen := List.length_pos_iff.2 (hne a)
        refine ih (hy.mono (by omega)) ?_
        have hstop := (hread ha).row.stop_eq
        unfold Stream.remaining at hbound ⊢
        omega
      · rename_i hbegins
        refine truthful_reject (List.ne_nil_of_mem hadmits.close_mem) fun hmem => ?_
        exact (hadmits.eq_or_begins _ hmem).elim hclose hbegins

theorem truthful_itemsUntil (hitem : item.TruthfulFrom s first 0) (hread : item.ReadsAs yield parts)
    (hne : ∀ a, yield a ≠ []) (htext : close.text?.isSome = true)
    (hadmits : Admits close begins expected) :
    (itemsUntil close begins rule expected item).TruthfulFrom s first 0 := fun _ hc =>
  (runs_remaining.2 ⟨rfl, rfl⟩).then_truthful
    (truthful_itemsWithin hitem hread hne htext hadmits _ hc (Nat.le_refl _))

end

end Parse

end TermLang
