import TermLang.Proofs.Nesting
import TermLang.Proofs.Rows
import TermLang.Proofs.Rules

/-!
# What a successful run has read

A run of a rule reads the tokens between its two cursors, each once and in order: they are the yield
of its value. It leaves as many levels open as it found, and the terms in its value fit in the levels
that were left to it. `Stream.Reads` puts the three together, since each is needed where the cursor
jumps: the result of a function is read before its parameters, and a loop takes the closing named
application of its head for the body.

Each rule of the grammar has one law, stated for any parser of terms that reads terms; the parser of
terms reads terms by induction on the number of terms open inside one another.
-/

namespace TermLang

open Terminal (within)

/-! ## Readings -/

/-- Between two cursors stands a row of the given terminals, no level has been opened or closed for
good, and the given terms fit in the levels that are left. -/
structure Stream.Reads (s : Stream) (c : Cursor) (ys : List Terminal) (us : List Term)
    (c' : Cursor) : Prop where
  row : s.Row c.pos ys c'.pos
  depth_eq : c'.depth = c.depth
  fits : ∀ u ∈ us, u.Fits (s.maxDepth - c.depth)

namespace Stream

variable {s : Stream} {c c₁ c' : Cursor} {ys zs : List Terminal} {us vs : List Term}

namespace Reads

theorem refl (c : Cursor) : s.Reads c [] [] c := ⟨.nil _, rfl, nofun⟩

theorem trans (h₁ : s.Reads c ys us c₁) (h₂ : s.Reads c₁ zs vs c') :
    s.Reads c (ys ++ zs) (us ++ vs) c' where
  row := h₁.row.append h₂.row
  depth_eq := h₂.depth_eq.trans h₁.depth_eq
  fits u hu := by
    rcases List.mem_append.1 hu with hu | hu
    · exact h₁.fits u hu
    · rw [← h₁.depth_eq]; exact h₂.fits u hu

/-- The same row, said otherwise, with some of the terms. -/
theorem cast (h : s.Reads c ys us c') (hy : ys = zs) (hv : ∀ v ∈ vs, v ∈ us) :
    s.Reads c zs vs c' :=
  ⟨hy ▸ h.row, h.depth_eq, fun v hmem => h.fits v (hv v hmem)⟩

end Reads

theorem Takes.reads {t : Token} (h : s.Takes c t c') : s.Reads c [t.terminal] [] c' := by
  rw [h.next]
  exact ⟨.cons h.token h.kind_ne_eof (.nil _), rfl, nofun⟩

theorem Takes.mark {t : Token} {k : Kind} (h : s.Takes c t c') (hk : t.kind = k)
    (hl : k.isLiteral = false) : s.Reads c [.mark k] [] c' := by
  rw [← Word.terminal_of_kind hk hl]
  exact h.reads

theorem Takes.name {t : Token} (h : s.Takes c t c') (hk : t.kind = .ident) :
    s.Reads c [.name t.lexeme] [] c' := by
  rw [← Word.terminal_ident hk]
  exact h.reads

end Stream

namespace Parse

variable {α : Type}

/-- Every run of the parser reads the yield of its value, and the parts of the value fit. -/
def ReadsAs (p : Parse α) (yield : α → List Terminal) (parts : α → List Term) : Prop :=
  ∀ ⦃s : Stream⦄ ⦃c : Cursor⦄ ⦃a : α⦄ ⦃c' : Cursor⦄,
    p.Runs s c a c' → s.Reads c (yield a) (parts a) c'

theorem expect_mark {s : Stream} {c c' : Cursor} {k : Kind} {rule : Rule} {t : Token}
    (h : (expect k rule).Runs s c t c') (htext : k.text?.isSome = true) :
    s.Reads c [.mark k] [] c' := by
  obtain ⟨he, hl⟩ := Kind.plain_of_text? htext
  obtain ⟨ht, hk⟩ := (runs_expect he).1 h
  exact ht.mark hk hl

theorem expectIdent_reads (rule : Rule) :
    (expectIdent rule).ReadsAs (fun name => [.name name]) (fun _ => []) := by
  intro s c name c' h
  obtain ⟨t, ht, hk, rfl⟩ := runs_expectIdent.1 h
  exact ht.name hk

/-- Bumping at a mark of a known kind reads it. -/
theorem bump_mark {s : Stream} {c c' : Cursor} {k : Kind} {u : Unit} (h : bump.Runs s c u c')
    (hk : s.kindAt c.pos = k) (htext : k.text?.isSome = true) : s.Reads c [.mark k] [] c' := by
  obtain ⟨he, hl⟩ := Kind.plain_of_text? htext
  obtain ⟨t, ht, hkt⟩ := (runs_bump hk he).1 h
  exact ht.mark hkt hl

/-- Items up to a closing mark read the yields of the items and the mark. -/
theorem itemsWithin_reads {close : Kind} {begins : Kind → Bool} {rule : Rule}
    {expected : List Kind} {item : Parse α} {yield : α → List Terminal} {parts : α → List Term}
    (hitem : item.ReadsAs yield parts) (htext : close.text?.isSome = true) (bound : Nat) :
    (itemsWithin close begins rule expected item bound).ReadsAs
      (fun as => as.flatMap yield ++ [.mark close]) (fun as => as.flatMap parts) := by
  obtain ⟨he, hl⟩ := Kind.plain_of_text? htext
  induction bound with
  | zero => intro s c as c' h; exact absurd h not_runs_reject
  | succ bound ih =>
    intro s c as c' h
    simp only [itemsWithin, runs_bind, runs_skip he] at h
    obtain ⟨b, c₁, ⟨⟨t, ht, hk⟩, rfl⟩ | ⟨-, rfl, rfl⟩, h⟩ := h
    · simp only [if_true, runs_pure] at h
      obtain ⟨rfl, rfl⟩ := h
      exact ht.mark hk hl
    · simp only [Bool.false_eq_true, if_false, runs_bind, runs_kind] at h
      obtain ⟨_, _, ⟨rfl, rfl⟩, h⟩ := h
      split at h
      · simp only [runs_bind, runs_pure] at h
        obtain ⟨a, c₂, ha, others, c₃, hothers, rfl, rfl⟩ := h
        exact ((hitem ha).trans (ih hothers)).cast (by simp) (by simp)
      · exact absurd h not_runs_reject

theorem itemsUntil_reads {close : Kind} {begins : Kind → Bool} {rule : Rule}
    {expected : List Kind} {item : Parse α} {yield : α → List Terminal} {parts : α → List Term}
    (hitem : item.ReadsAs yield parts) (htext : close.text?.isSome = true) :
    (itemsUntil close begins rule expected item).ReadsAs
      (fun as => as.flatMap yield ++ [.mark close]) (fun as => as.flatMap parts) := by
  intro s c as c' h
  simp only [itemsUntil, runs_bind, runs_remaining] at h
  obtain ⟨_, _, ⟨rfl, rfl⟩, h⟩ := h
  exact itemsWithin_reads hitem htext _ h

end Parse

namespace Grammar

open Parse

/-- A parser of terms reads terms, under all restrictions. -/
def ReadsTerms (term : TermParser) : Prop :=
  ∀ r : Restrictions, (term r).ReadsAs Term.yield (fun t => [t])

section

variable {term : TermParser} (hterm : ReadsTerms term)

include hterm

/-! ## Annotations, parameters, fields and arguments -/

theorem termsUntil_reads {close : Kind} (htext : close.text?.isSome = true) (rule : Rule) :
    (termsUntil term close rule).ReadsAs (fun ts => termsYield ts ++ [.mark close]) id := by
  intro s c ts c' h
  exact (itemsUntil_reads (hterm .free) htext h).cast (by simp only [termsYield_eq]) (by simp)

theorem blocked_reads (rule : Rule) :
    (blocked term rule).ReadsAs (fun ts => within .braceOpen .braceClose (termsYield ts)) id := by
  intro s c ts c' h
  simp only [blocked, runs_bind] at h
  obtain ⟨_, c₁, hopen, hts⟩ := h
  exact (expect_mark hopen rfl).trans (termsUntil_reads hterm rfl .blocked hts)

theorem anno_reads (r : Restrictions) : (anno term r).ReadsAs Anno.yield Anno.parts := by
  intro s c a c' h
  obtain ⟨mark, c₁, c₂, t, hcolon, ht, ⟨sort, rfl, hk, hbump⟩ | ⟨rfl, -, rfl⟩⟩ := runs_anno.1 h
  · have hmark : s.Reads c₁ [.mark sort.mark] [] c₂ := bump_mark hbump hk sort.isSome_text?
    exact (expect_mark hcolon rfl).trans (hmark.trans (hterm r ht))
  · exact (expect_mark hcolon rfl).trans (hterm r ht)

theorem anno?_reads (r : Restrictions) :
    (anno? term r).ReadsAs annoYield (fun a => a.toList.flatMap Anno.parts) := by
  intro s c a c' h
  obtain ⟨-, b, rfl, hb⟩ | ⟨-, rfl, rfl⟩ := runs_anno?.1 h
  · exact (anno_reads hterm r hb).cast rfl (by simp)
  · exact .refl _

theorem param_reads : (param term).ReadsAs Param.yield Param.parts := by
  intro s c p c' h
  simp only [param, runs_bind, runs_pure] at h
  obtain ⟨name, c₁, hname, a, c₂, ha, rfl, rfl⟩ := h
  refine ((expectIdent_reads .param hname).trans (anno?_reads hterm .free ha)).cast rfl ?_
  cases a <;> simp [Param.parts]

theorem paramsUntil_reads {close : Kind} (htext : close.text?.isSome = true) (rule : Rule) :
    (paramsUntil term close rule).ReadsAs (fun ps => paramsYield ps ++ [.mark close])
      (fun ps => ps.flatMap Param.parts) := by
  intro s c ps c' h
  exact (itemsUntil_reads (param_reads hterm) htext h).cast (by simp only [paramsYield_eq]) (by simp)

omit hterm in
theorem shorthand_reads : shorthand.ReadsAs Field.yield Field.parts := by
  intro s c f c' h
  simp only [shorthand, runs_bind, runs_pure] at h
  obtain ⟨name, c₁, hname, rfl, rfl⟩ := h
  exact expectIdent_reads .kwArg hname

theorem given_reads : (given term).ReadsAs Field.yield Field.parts := by
  intro s c f c' h
  simp only [given, runs_bind, runs_pure] at h
  obtain ⟨name, c₁, hname, _, c₂, heq, t, c₃, ht, rfl, rfl⟩ := h
  exact (expectIdent_reads .kwArg hname).trans ((expect_mark heq rfl).trans (hterm .free ht))

theorem annotatedName_reads :
    (annotatedName term).ReadsAs (fun a => .name a.1 :: (a.2.yield ++ [.mark .equals]))
      (fun a => a.2.parts) := by
  intro s c a c' h
  simp only [annotatedName, runs_bind, runs_pure] at h
  obtain ⟨name, c₁, hname, a, c₂, ha, _, c₃, heq, rfl, rfl⟩ := h
  have h := (anno_reads hterm .beforeAssign ha).trans (expect_mark heq rfl)
  exact ((expectIdent_reads .kwArg hname).trans h).cast rfl (by simp)

/-- An annotated field is read whole, or nothing is. -/
theorem annotatedField?_reads :
    (annotatedField? term).ReadsAs (fun f => f.elim [] Field.yield)
      (fun f => f.elim [] Field.parts) := by
  intro s c f c' h
  simp only [annotatedField?, runs_bind] at h
  obtain ⟨a, c₁, ha, h⟩ := h
  rcases runs_speculate ha with ⟨⟨name, a⟩, rfl, hrun⟩ | ⟨rfl, rfl⟩
  · simp only [runs_bind, runs_pure] at h
    obtain ⟨t, c₂, ht, rfl, rfl⟩ := h
    have h := (annotatedName_reads hterm hrun).trans (hterm .free ht)
    exact h.cast (by simp [Field.yield, annoYield]) (by simp [Field.parts])
  · simp only [runs_pure] at h
    obtain ⟨rfl, rfl⟩ := h
    exact .refl _

theorem field_reads : (field term).ReadsAs Field.yield Field.parts := by
  intro s c f c' h
  simp only [field, runs_bind, runs_nthKind] at h
  obtain ⟨_, _, ⟨rfl, rfl⟩, h⟩ := h
  split at h
  · exact given_reads hterm h
  · simp only [runs_bind] at h
    obtain ⟨a, c₁, ha, h⟩ := h
    have hread := annotatedField?_reads hterm ha
    cases a with
    | some g =>
      simp only [runs_pure] at h
      obtain ⟨rfl, rfl⟩ := h
      exact hread
    | none => exact hread.trans (shorthand_reads h)
  · exact shorthand_reads h

theorem fieldsUntil_reads {close : Kind} (htext : close.text?.isSome = true) (rule : Rule) :
    (fieldsUntil term close rule).ReadsAs (fun fs => fieldsYield fs ++ [.mark close])
      (fun fs => fs.flatMap Field.parts) := by
  intro s c fs c' h
  exact (itemsUntil_reads (field_reads hterm) htext h).cast (by simp only [fieldsYield_eq])
    (by simp)

theorem positional_reads : (positional term).ReadsAs Arg.yield Arg.parts := by
  intro s c a c' h
  simp only [positional, runs_bind, runs_pure] at h
  obtain ⟨t, c₁, ht, rfl, rfl⟩ := h
  exact hterm .free ht

theorem arg_reads : (arg term).ReadsAs Arg.yield Arg.parts := by
  intro s c a c' h
  simp only [arg, runs_bind, runs_at?] at h
  obtain ⟨_, _, ⟨rfl, rfl⟩, h⟩ := h
  split at h
  · simp only [runs_bind, runs_nthKind] at h
    obtain ⟨_, _, ⟨rfl, rfl⟩, h⟩ := h
    split at h
    · simp only [runs_bind, runs_pure] at h
      obtain ⟨f, c₁, hf, rfl, rfl⟩ := h
      exact given_reads hterm hf
    · simp only [runs_bind] at h
      obtain ⟨f, c₁, hf, h⟩ := h
      have hread := annotatedField?_reads hterm hf
      cases f with
      | some f =>
        simp only [runs_pure] at h
        obtain ⟨rfl, rfl⟩ := h
        exact hread
      | none => exact hread.trans (positional_reads hterm h)
    · exact positional_reads hterm h
  · exact positional_reads hterm h

theorem argsUntil_reads {close : Kind} (htext : close.text?.isSome = true) (rule : Rule) :
    (argsUntil term close rule).ReadsAs (fun as => argsYield as ++ [.mark close])
      (fun as => as.flatMap Arg.parts) := by
  intro s c as c' h
  exact (itemsUntil_reads (arg_reads hterm) htext h).cast (by simp only [argsYield_eq]) (by simp)

end

end Grammar

end TermLang
