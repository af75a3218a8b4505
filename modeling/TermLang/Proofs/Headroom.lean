import TermLang.Proofs.Alike
import TermLang.Proofs.ReadingTerms

/-!
# Short inputs stay below the nesting limit

Each open level has been paid for by a token, since a term or a link begins with one of its own. So a
stream that ends with the end of the input, and holds no more tokens than levels are allowed, never
runs into the limit. The invariant is `Stream.Room`: between two tokens there are no more levels open
than tokens passed, and right after opening a level there may be one more.
-/

namespace TermLang

/-- The last token is the end of the input, and there are no more tokens than levels. -/
structure Stream.Roomy (s : Stream) : Prop where
  size_pos : 0 < s.tokens.size
  kindAt_last : s.kindAt (s.tokens.size - 1) = .eof
  size_le : s.tokens.size ≤ s.maxDepth

/-- The cursor stands on a token, and no more levels are open than tokens passed, but for `n`. -/
structure Stream.Room (s : Stream) (n : Nat) (c : Cursor) : Prop where
  depth_le : c.depth ≤ c.pos + n
  pos_lt : c.pos < s.tokens.size

namespace Stream

variable {s : Stream} {c c' : Cursor} {m n : Nat} {ys : List Terminal} {us : List Term}

namespace Room

theorem mono (h : s.Room m c) (hmn : m ≤ n) : s.Room n c :=
  ⟨by have := h.depth_le; omega, h.pos_lt⟩

/-- What is read makes room. -/
theorem reads (hs : s.Roomy) (h : s.Room n c) (hread : s.Reads c ys us c') :
    s.Room (n - ys.length) c' := by
  constructor
  · have := h.depth_le
    rw [hread.depth_eq, hread.row.stop_eq]
    omega
  · exact hread.row.stop_lt h.pos_lt hs.kindAt_last

/-- Between two tokens another level may be opened. -/
theorem depth_lt (hs : s.Roomy) (h : s.Room 0 c) : c.depth < s.maxDepth := by
  have h₁ := h.depth_le
  have h₂ := h.pos_lt
  have h₃ := hs.size_le
  omega

theorem descend (h : s.Room 0 c) : s.Room 1 { c with depth := c.depth + 1 } :=
  ⟨by have := h.depth_le; show c.depth + 1 ≤ c.pos + 1; omega, h.pos_lt⟩

theorem bump (hs : s.Roomy) (h : s.Room 1 c) (hk : s.kindAt c.pos ≠ .eof) :
    s.Room 0 { c with pos := c.pos + 1 } := by
  refine ⟨h.depth_le, ?_⟩
  show c.pos + 1 < s.tokens.size
  have hne : c.pos ≠ s.tokens.size - 1 := by
    intro he
    exact hk (he ▸ hs.kindAt_last)
  have := h.pos_lt
  omega

end Room

end Stream

/-! ## Parsers that do not meet the limit -/

namespace Parse

variable {α β : Type} {s : Stream} {c : Cursor}

/-- The parser does not fail on the nesting limit at a cursor. -/
def Shallow (p : Parse α) (s : Stream) (c : Cursor) : Prop :=
  ∀ e, (p s c).result = .error e → e.isTooDeep = false

/-- The parser does not fail on the nesting limit wherever there is room but for `n` levels. -/
def Clear (p : Parse α) (s : Stream) (n : Nat) : Prop := ∀ c, s.Room n c → p.Shallow s c

theorem Clear.mono {p : Parse α} {m n : Nat} (h : p.Clear s n) (hmn : m ≤ n) : p.Clear s m :=
  fun c hc => h c (hc.mono hmn)

theorem shallow_of_ok {p : Parse α} {a : α} (h : (p s c).result = .ok a) : p.Shallow s c := by
  intro e he
  rw [h] at he
  exact nomatch he

theorem shallow_pure (a : α) : (pure a : Parse α).Shallow s c := shallow_of_ok rfl

theorem shallow_reject (rule : Rule) (expected : List Kind) :
    (reject rule expected : Parse α).Shallow s c := by
  rintro e ⟨rfl⟩
  rfl

/-- A sequence stays below the limit if its first part does, and its second part does from wherever
the first can lead. -/
theorem shallow_bind {p : Parse α} {f : α → Parse β} (hp : p.Shallow s c)
    (hf : ∀ a c', p.Runs s c a c' → (f a).Shallow s c') : (p >>= f).Shallow s c := by
  intro e he
  cases h : (p s c).result with
  | error e' =>
    rw [bind_of_error h] at he
    cases he
    exact hp e h
  | ok a =>
    rw [(bind_of_ok h).1] at he
    exact hf a _ ⟨h, rfl⟩ e he

/-- After a parser that cannot fail, what follows starts where it leads. -/
theorem shallow_bind_ok {p : Parse α} {f : α → Parse β} {a : α} {c' : Cursor}
    (h : p.Runs s c a c') (hf : (f a).Shallow s c') : (p >>= f).Shallow s c := by
  refine shallow_bind (shallow_of_ok h.1) fun b c₁ hb => ?_
  obtain rfl : a = b := by simpa [h.1] using hb.1
  obtain rfl : c' = c₁ := h.2.symm.trans hb.2
  exact hf

theorem shallow_expect (k : Kind) (rule : Rule) : (expect k rule).Shallow s c := by
  refine shallow_bind_ok (runs_current.2 ⟨rfl, rfl⟩) ?_
  split
  · split
    · exact shallow_bind (shallow_of_ok rfl) fun _ _ _ => shallow_pure _
    · exact shallow_reject rule _
  · exact shallow_reject rule _

theorem shallow_expectIdent (rule : Rule) : (expectIdent rule).Shallow s c :=
  shallow_bind (shallow_expect .ident rule) fun _ _ _ => shallow_pure _

theorem shallow_skip (k : Kind) : (skip k).Shallow s c := by
  refine shallow_bind_ok (runs_at?.2 ⟨rfl, rfl⟩) ?_
  split
  · exact shallow_bind (shallow_of_ok rfl) fun _ _ _ => shallow_pure _
  · exact shallow_pure _

/-- A speculation stays below the limit if what it tries does. -/
theorem Shallow.speculate {p : Parse α} (h : p.Shallow s c) : (speculate p).Shallow s c := by
  cases hr : (p s c).result with
  | ok a => exact shallow_of_ok (speculate_of_ok hr).1
  | error e => exact shallow_of_ok (speculate_of_error hr (h e hr)).1

section

variable {p : Parse α} {f : α → Parse β} {yield : α → List Terminal} {parts : α → List Term}

/-- What is read between two tokens leaves room for what follows. -/
theorem Shallow.then (hp : p.Shallow s c) (hread : p.ReadsAs yield parts) (hs : s.Roomy)
    (hc : s.Room 0 c) (hf : ∀ a c', s.Room 0 c' → (f a).Shallow s c') : (p >>= f).Shallow s c :=
  shallow_bind hp fun a c' h => hf a c' ((hc.reads hs (hread h)).mono (by omega))

/-- The first token after a level has been opened pays for it. -/
theorem Shallow.first (hp : p.Shallow s c) (hread : p.ReadsAs yield parts)
    (hne : ∀ a, yield a ≠ []) (hs : s.Roomy) (hc : s.Room 1 c)
    (hf : ∀ a c', s.Room 0 c' → (f a).Shallow s c') : (p >>= f).Shallow s c := by
  refine shallow_bind hp fun a c' h => hf a c' ((hc.reads hs (hread h)).mono ?_)
  have := List.length_pos_iff.2 (hne a)
  omega

end

theorem shallow_expect_bind {k : Kind} {rule : Rule} {f : Token → Parse β} (hs : s.Roomy)
    (hc : s.Room 1 c) (htext : k.text?.isSome = true)
    (hf : ∀ t c', s.Room 0 c' → (f t).Shallow s c') : (expect k rule >>= f).Shallow s c := by
  have hread : (expect k rule).ReadsAs (fun _ => [.mark k]) (fun _ => []) :=
    fun _ _ _ _ h => expect_mark h htext
  exact (shallow_expect k rule).first hread (fun _ => List.cons_ne_nil _ _) hs hc hf

theorem shallow_expectIdent_bind {rule : Rule} {f : String → Parse β} (hs : s.Roomy)
    (hc : s.Room 1 c) (hf : ∀ name c', s.Room 0 c' → (f name).Shallow s c') :
    (expectIdent rule >>= f).Shallow s c :=
  (shallow_expectIdent rule).first (expectIdent_reads rule) (fun _ => List.cons_ne_nil _ _) hs hc hf

theorem shallow_bump_bind {k : Kind} {f : Unit → Parse β} (hs : s.Roomy) (hc : s.Room 1 c)
    (hk : s.kindAt c.pos = k) (htext : k.text?.isSome = true)
    (hf : ∀ c', c' = { c with pos := c.pos + 1 } → s.Room 0 c' → (f ()).Shallow s c') :
    (bump >>= f).Shallow s c := by
  have he : s.kindAt c.pos ≠ .eof := hk ▸ (Kind.plain_of_text? htext).1
  have hrun : bump.Runs s c () { c with pos := c.pos + 1 } := by
    refine ⟨rfl, ?_⟩
    rw [bump, if_neg he]
  exact shallow_bind_ok hrun (hf _ rfl (hc.bump hs he))

theorem clear_itemsUntil {close : Kind} {begins : Kind → Bool} {rule : Rule}
    {expected : List Kind} {item : Parse α} {yield : α → List Terminal} {parts : α → List Term}
    (hs : s.Roomy) (hitem : item.Clear s 0) (hread : item.ReadsAs yield parts)
    (htext : close.text?.isSome = true) :
    (itemsUntil close begins rule expected item).Clear s 0 := by
  have hwithin : ∀ bound, (itemsWithin close begins rule expected item bound).Clear s 0 := by
    intro bound
    induction bound with
    | zero => exact fun c _ => shallow_reject rule expected
    | succ bound ih =>
      intro c hc
      refine shallow_bind (shallow_skip close) fun b c' hskip => ?_
      rcases (runs_skip (Kind.plain_of_text? htext).1).1 hskip with ⟨-, rfl⟩ | ⟨-, rfl, rfl⟩
      · exact shallow_pure []
      · refine shallow_bind_ok (runs_kind.2 ⟨rfl, rfl⟩) ?_
        split
        · refine (hitem c hc).then hread hs hc fun a c' hc' => ?_
          exact shallow_bind (ih c' hc') fun _ _ _ => shallow_pure _
        · exact shallow_reject rule expected
  intro c hc
  exact shallow_bind_ok (runs_remaining.2 ⟨rfl, rfl⟩) (hwithin _ c hc)

end Parse

end TermLang
