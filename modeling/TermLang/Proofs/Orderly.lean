import TermLang.Proofs.HeadroomTerms
import TermLang.Proofs.WindowTerms

/-!
# Orderly parsers

What a parser does on its way, whether it succeeds or fails, stays in order: its cursor falls below no
index and no level that was left behind, it never comes past the end of the row or above the nesting
limit, and each term that it sets out to read begins behind the first token of the term around it. A
reply is orderly (`Reply.Orderly`) if all of this can be told from it.

The cursor may go back as a whole, to a place that was saved or to a bracket that was passed. Such a
place is not below the one where the rule began, since what was read up to there has moved the cursor
forward (`ReadsAs`).
-/

namespace TermLang

/-- The terms read in a term begin behind its first token, and so on inside them; none begins past the
given index. -/
inductive Call.Rises (last : Nat) : Call → Prop
  | mk {start : Nat} {inner : List Call} : start ≤ last → (∀ a ∈ inner, start < a.start) →
      (∀ a ∈ inner, a.Rises last) → (Call.mk start inner).Rises last

/-- The cursor is in the row and within the limit, and not below another one. -/
structure Stream.Above (s : Stream) (low c : Cursor) : Prop where
  pos_ge : low.pos ≤ c.pos
  pos_le : c.pos ≤ s.tokens.size
  depth_ge : low.depth ≤ c.depth
  depth_le : c.depth ≤ s.maxDepth

/-- A term may be begun at the cursor when `n` more tokens are passed. -/
structure Stream.Ready (s : Stream) (low : Cursor) (first n : Nat) (c : Cursor) : Prop
    extends s.Above low c where
  first_le : first ≤ c.pos + n

/-- All along the way the reply tells of, the cursor was in the row and within the limit; it is left above
another one; and the terms on the way begin at an index or behind it. -/
structure Reply.Orderly {α : Type} (s : Stream) (low : Cursor) (first : Nat) (reply : Reply α) : Prop where
  cursor : s.Above low reply.cursor
  peak_pos : reply.peak.pos ≤ s.tokens.size
  peak_depth : reply.peak.depth ≤ s.maxDepth
  calls : ∀ a ∈ reply.calls, first ≤ a.start ∧ a.Rises s.tokens.size

namespace Stream

variable {s : Stream} {low c c' : Cursor} {first m n : Nat} {ys : List Terminal} {us : List Term}

theorem Above.refl (hpos : c.pos ≤ s.tokens.size) (hdepth : c.depth ≤ s.maxDepth) : s.Above c c :=
  ⟨Nat.le_refl _, hpos, Nat.le_refl _, hdepth⟩

theorem Above.peak (h : s.Above low c) (h' : s.Above low c') :
    (c.max c').pos ≤ s.tokens.size ∧ (c.max c').depth ≤ s.maxDepth :=
  ⟨Nat.max_le.2 ⟨h.pos_le, h'.pos_le⟩, Nat.max_le.2 ⟨h.depth_le, h'.depth_le⟩⟩

theorem Above.descend (h : s.Above low c) (hlt : c.depth < s.maxDepth) :
    s.Above low { c with depth := c.depth + 1 } :=
  { h with
    depth_ge := Nat.le_succ_of_le h.depth_ge
    depth_le := hlt }

/-- A level that was opened at a cursor is closed again. -/
theorem Above.ascend (h : s.Above low c) (h' : s.Above low c') (hdepth : c'.depth = c.depth + 1) :
    s.Above low { c' with depth := c'.depth - 1 } :=
  { h' with
    depth_ge := by
      have := h.depth_ge
      show low.depth ≤ c'.depth - 1
      omega
    depth_le := Nat.le_trans (Nat.sub_le _ _) h'.depth_le }

namespace Ready

theorem mono (h : s.Ready low first m c) (hmn : m ≤ n) : s.Ready low first n c :=
  { h with first_le := Nat.le_trans h.first_le (Nat.add_le_add_left hmn _) }

theorem bump (h : s.Ready low first 1 c) (hk : s.kindAt c.pos ≠ .eof) :
    s.Ready low first 0 { c with pos := c.pos + 1 } :=
  { h with
    pos_ge := Nat.le_succ_of_le h.pos_ge
    pos_le := lt_size_of_kindAt rfl hk
    first_le := h.first_le }

/-- What is read leads on. -/
theorem reads (h : s.Ready low first n c) (hread : s.Reads c ys us c') :
    s.Ready low first (n - ys.length) c' := by
  have hlen := hread.row.stop_eq
  have hdepth := hread.depth_eq
  refine ⟨⟨?_, hread.row.stop_le h.pos_le, ?_, ?_⟩, ?_⟩
  · have := h.pos_ge
    omega
  · rw [hdepth]
    exact h.depth_ge
  · rw [hdepth]
    exact h.depth_le
  · have := h.first_le
    omega

end Ready

end Stream

namespace Parse

variable {α β : Type} {s : Stream} {low c : Cursor} {first : Nat}

/-- The reply of the parser at a cursor is orderly. -/
def Orderly (p : Parse α) (s : Stream) (low : Cursor) (first : Nat) (c : Cursor) : Prop :=
  (p s c).Orderly s low first

/-- The replies of the parser are orderly wherever a term may be begun `n` tokens further on. -/
def Keeps (p : Parse α) (s : Stream) (low : Cursor) (first n : Nat) : Prop :=
  ∀ c, s.Ready low first n c → p.Orderly s low first c

theorem Keeps.mono {p : Parse α} {m n : Nat} (h : p.Keeps s low first n) (hmn : m ≤ n) :
    p.Keeps s low first m :=
  fun c hc => h c (hc.mono hmn)

/-- A parser that only looks is orderly. -/
theorem orderly_of_look {p : Parse α} {result : Except SyntaxError α} {notes : List Note}
    (hp : p s c = { result := result, cursor := c, notes := notes }) (h : s.Above low c) :
    p.Orderly s low first c := by
  unfold Orderly
  rw [hp]
  exact ⟨h, h.pos_le, h.depth_le, nofun⟩

/-- A move from a cursor above another one to such a cursor. -/
theorem orderly_of_move {p : Parse Unit} {c' : Cursor} (hp : p s c = moved c c') (h : s.Above low c)
    (h' : s.Above low c') : p.Orderly s low first c := by
  unfold Orderly
  rw [hp]
  exact ⟨h', (h.peak h').1, (h.peak h').2, nofun⟩

/-- A sequence is orderly if its first part is, and its second part is from wherever that leads. -/
theorem orderly_bind {p : Parse α} {f : α → Parse β} (hp : p.Orderly s low first c)
    (hf : ∀ a x, p.Runs s c a x → s.Above low x → (f a).Orderly s low first x) :
    (p >>= f).Orderly s low first c := by
  show (Parse.bind p f s c).Orderly s low first
  unfold Parse.bind
  dsimp only
  split
  · rename_i a hr
    have hrest : (f a s (p s c).cursor).Orderly s low first := hf a _ ⟨hr, rfl⟩ hp.cursor
    exact ⟨hrest.cursor, Nat.max_le.2 ⟨hp.peak_pos, hrest.peak_pos⟩,
      Nat.max_le.2 ⟨hp.peak_depth, hrest.peak_depth⟩,
      fun b hb => (List.mem_append.1 hb).elim (hp.calls b) (hrest.calls b)⟩
  · exact ⟨hp.cursor, hp.peak_pos, hp.peak_depth, hp.calls⟩

/-- What follows a parser whose run is known. -/
theorem orderly_after {p : Parse α} {f : α → Parse β} {a : α} {c' : Cursor} (hp : p.Orderly s low first c)
    (hrun : p.Runs s c a c') (hf : (f a).Orderly s low first c') : (p >>= f).Orderly s low first c := by
  refine orderly_bind hp fun b x hb _ => ?_
  obtain ⟨rfl, rfl⟩ := hrun.unique hb
  exact hf

/-- What follows a look. -/
theorem orderly_look {p : Parse α} {f : α → Parse β} {a : α} {notes : List Note}
    (hp : p s c = { result := .ok a, cursor := c, notes := notes }) (h : s.Above low c)
    (hf : (f a).Orderly s low first c) : (p >>= f).Orderly s low first c :=
  orderly_after (orderly_of_look hp h) ⟨by rw [hp], by rw [hp]⟩ hf

/-- What follows a move. -/
theorem orderly_move {p : Parse Unit} {f : Unit → Parse β} {c' : Cursor} (hp : p s c = moved c c')
    (h : s.Above low c) (h' : s.Above low c') (hf : (f ()).Orderly s low first c') :
    (p >>= f).Orderly s low first c :=
  orderly_after (orderly_of_move hp h h') ⟨by rw [hp], by rw [hp]⟩ hf

theorem orderly_pure (a : α) (h : s.Above low c) : (pure a : Parse α).Orderly s low first c :=
  orderly_of_look rfl h

theorem orderly_reject (rule : Rule) (expected : List Kind) (h : s.Above low c) :
    (reject rule expected : Parse α).Orderly s low first c := orderly_of_look rfl h

theorem orderly_at? {k : Kind} {f : Bool → Parse β} (h : s.Above low c)
    (hf : (f (decide (s.kindAt c.pos = k))).Orderly s low first c) :
    (at? k >>= f).Orderly s low first c :=
  orderly_after (orderly_look rfl h (orderly_pure _ h)) (runs_at?.2 ⟨rfl, rfl⟩) hf

theorem orderly_bump_bind {f : Unit → Parse β} (h : s.Ready low first 1 c) (hk : s.kindAt c.pos ≠ .eof)
    (hf : s.Ready low first 0 { c with pos := c.pos + 1 } →
      (f ()).Orderly s low first { c with pos := c.pos + 1 }) : (bump >>= f).Orderly s low first c := by
  have hbump : bump s c = moved c { c with pos := c.pos + 1 } := by rw [bump, if_neg hk]
  have h' := h.bump hk
  exact orderly_move hbump h.toAbove h'.toAbove (hf h')

/-- Bumping is orderly at the end of the input as well. -/
theorem orderly_bump (h : s.Above low c) : bump.Orderly s low first c := by
  by_cases hk : s.kindAt c.pos = .eof
  · exact orderly_of_move (by rw [bump, if_pos hk]) h h
  · have hready : s.Ready low (c.pos + 1) 1 c := { h with first_le := Nat.le_refl _ }
    exact orderly_of_move (by rw [bump, if_neg hk]) h (hready.bump hk).toAbove

theorem orderly_skip (k : Kind) (h : s.Above low c) : (skip k).Orderly s low first c := by
  refine orderly_at? h ?_
  split
  · exact orderly_bind (orderly_bump h) fun _ _ _ hx => orderly_pure _ hx
  · exact orderly_pure _ h

theorem orderly_expect (k : Kind) (rule : Rule) (h : s.Above low c) :
    (expect k rule).Orderly s low first c := by
  refine orderly_look rfl h ?_
  split
  · split
    · exact orderly_bind (orderly_bump h) fun _ _ _ hx => orderly_pure _ hx
    · exact orderly_reject rule _ h
  · exact orderly_reject rule _ h

theorem orderly_expectIdent (rule : Rule) (h : s.Above low c) :
    (expectIdent rule).Orderly s low first c :=
  orderly_bind (orderly_expect .ident rule h) fun _ _ _ hx => orderly_pure _ hx

section

variable {p : Parse α} {f : α → Parse β} {yield : α → List Terminal} {parts : α → List Term} {n : Nat}

/-- What follows something that was read. -/
theorem Orderly.then (hp : p.Orderly s low first c) (hread : p.ReadsAs yield parts)
    (h : s.Ready low first n c) (hf : ∀ a x, s.Ready low first (n - (yield a).length) x →
      (f a).Orderly s low first x) : (p >>= f).Orderly s low first c :=
  orderly_bind hp fun a x hrun _ => hf a x (h.reads (hread hrun))

/-- What follows something that was read when a term may be begun. -/
theorem Orderly.next (hp : p.Orderly s low first c) (hread : p.ReadsAs yield parts)
    (h : s.Ready low first 0 c) (hf : ∀ a x, s.Ready low first 0 x → (f a).Orderly s low first x) :
    (p >>= f).Orderly s low first c :=
  hp.then hread h fun a x hx => hf a x (hx.mono (by omega))

end

theorem orderly_expect_bind {k : Kind} {rule : Rule} {f : Token → Parse β} (h : s.Ready low first 1 c)
    (htext : k.text?.isSome = true) (hf : ∀ t x, s.Ready low first 0 x → (f t).Orderly s low first x) :
    (expect k rule >>= f).Orderly s low first c := by
  have hread : (expect k rule).ReadsAs (fun _ => [.mark k]) (fun _ => []) :=
    fun _ _ _ _ hrun => expect_mark hrun htext
  exact (orderly_expect k rule h.toAbove).then hread h hf

theorem orderly_expectIdent_bind {rule : Rule} {f : String → Parse β} (h : s.Ready low first 1 c)
    (hf : ∀ name x, s.Ready low first 0 x → (f name).Orderly s low first x) :
    (expectIdent rule >>= f).Orderly s low first c :=
  (orderly_expectIdent rule h.toAbove).then (expectIdent_reads rule) h hf

/-- A level is opened within the limit, or not at all. -/
theorem orderly_descend_bind {f : Unit → Parse β} {n : Nat} (h : s.Ready low first n c)
    (hf : s.Ready low first n { c with depth := c.depth + 1 } →
      (f ()).Orderly s low first { c with depth := c.depth + 1 }) :
    (descend >>= f).Orderly s low first c := by
  by_cases hle : s.maxDepth ≤ c.depth
  · refine orderly_bind (orderly_of_look (by rw [descend, if_pos hle]) h.toAbove) fun _ x hrun _ => ?_
    exact absurd (runs_descend.1 hrun).1 (Nat.not_lt.2 hle)
  · have habove := h.toAbove.descend (Nat.not_le.1 hle)
    exact orderly_move (by rw [descend, if_neg hle]) h.toAbove habove
      (hf { habove with first_le := h.first_le })

/-- A speculation that is taken back leaves the cursor where it was. -/
theorem Orderly.speculate {p : Parse α} (hp : p.Orderly s low first c) (h : s.Above low c) :
    (speculate p).Orderly s low first c := by
  unfold Orderly Parse.speculate
  dsimp only
  split
  · exact ⟨hp.cursor, hp.peak_pos, hp.peak_depth, hp.calls⟩
  · split
    · exact ⟨hp.cursor, hp.peak_pos, hp.peak_depth, hp.calls⟩
    · exact ⟨h, hp.peak_pos, hp.peak_depth, hp.calls⟩

section

variable {close : Kind} {begins : Kind → Bool} {rule : Rule} {expected : List Kind} {item : Parse α}
  {yield : α → List Terminal} {parts : α → List Term}

theorem keeps_itemsWithin (hitem : item.Keeps s low first 0) (hread : item.ReadsAs yield parts)
    (htext : close.text?.isSome = true) (bound : Nat) :
    (itemsWithin close begins rule expected item bound).Keeps s low first 0 := by
  induction bound with
  | zero => exact fun c hc => orderly_reject rule expected hc.toAbove
  | succ bound ih =>
    intro c hc
    refine orderly_bind (orderly_skip close hc.toAbove) fun b x hskip hx => ?_
    rcases (runs_skip (Kind.plain_of_text? htext).1).1 hskip with ⟨-, rfl⟩ | ⟨-, rfl, rfl⟩
    · exact orderly_pure [] hx
    · refine orderly_look rfl hx ?_
      split
      · refine (hitem c hc).next hread hc fun a y hy => ?_
        exact orderly_bind (ih y hy) fun _ _ _ hz => orderly_pure _ hz
      · exact orderly_reject rule expected hx

theorem keeps_itemsUntil (hitem : item.Keeps s low first 0) (hread : item.ReadsAs yield parts)
    (htext : close.text?.isSome = true) :
    (itemsUntil close begins rule expected item).Keeps s low first 0 := fun c hc =>
  orderly_look rfl hc.toAbove (keeps_itemsWithin hitem hread htext _ c hc)

end

end Parse

end TermLang
