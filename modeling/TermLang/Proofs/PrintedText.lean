import TermLang.Proofs.Spelled

/-!
# Printed text reads back

The text of some pieces is read into the words among them, in every layout and at every level. No two
words fuse: a word that does not end by itself is followed by a space, a break, a bracket, a colon or
a selection. `Opens` says that pieces begin in this way, and `Clean` that they are read into their
words, so that pieces are put together by checking how the second ones begin.
-/

namespace TermLang

/-! ## Reading words off a text -/

/-- From any place on, the text is read into tokens of the given words and the end of the input. -/
def Lexes (cs : List Char) (ws : List Word) : Prop :=
  ∀ p, ∃ ts q, tokensFrom p cs = .ok (ts ++ [Token.eof q]) ∧ ts.map (·.toWord) = ws

theorem skipTrivia_cons {c : Char} (hc : c ≠ '/') (p : Position) (cs : List Char) :
    skipTrivia .between p (c :: cs) =
      if isBlank c then skipTrivia .between (p.after c) cs else .ok (p, c :: cs) := by
  rw [skipTrivia]
  · rintro tail rfl
    exact absurd rfl hc
  · rintro tail rfl
    exact absurd rfl hc

/-- Where no trivia begins, a word is scanned. -/
theorem tokensFrom_cons {c : Char} (hslash : c ≠ '/') (hblank : isBlank c = false) (p : Position)
    (cs : List Char) :
    tokensFrom p (c :: cs) =
      match scan c cs with
      | .error fault => .error (fault.error p)
      | .ok s => (tokensFrom (p.advance s.lexeme) s.rest).map (s.token p :: ·) := by
  rw [tokensFrom_eq, skipTrivia_cons hslash, hblank]
  rfl

namespace Lexes

variable {cs : List Char} {ws : List Word}

theorem nil : Lexes [] [] := by
  intro p
  refine ⟨[], p, ?_, rfl⟩
  rw [tokensFrom_eq]
  rfl

theorem blank {c : Char} (hc : isBlank c = true) (h : Lexes cs ws) : Lexes (c :: cs) ws := by
  intro p
  have hslash : c ≠ '/' := by
    rintro rfl
    exact nomatch hc
  obtain ⟨ts, q, hts, hws⟩ := h (p.after c)
  refine ⟨ts, q, ?_, hws⟩
  rw [tokensFrom_eq, skipTrivia_cons hslash, if_pos hc, ← tokensFrom_eq, hts]

theorem spaces (h : Lexes cs ws) (n : Nat) : Lexes (List.replicate n ' ' ++ cs) ws := by
  induction n with
  | zero => exact h
  | succ n ih => exact ih.blank rfl

theorem word {w : Word} (hw : w.Scans cs) (h : Lexes cs ws) :
    Lexes (w.lexeme.toList ++ cs) (w :: ws) := by
  intro p
  obtain ⟨c, tail, htext, hslash, hblank, hscan⟩ := hw
  obtain ⟨ts, q, hts, hws⟩ := h (p.advance w.lexeme.toList)
  rw [htext, tokensFrom_cons hslash hblank, hscan]
  dsimp only
  rw [hts]
  refine ⟨_ :: ts, q, rfl, ?_⟩
  rw [List.map_cons, hws, Scan.token, String.ofList_toList]

end Lexes

/-! ## Pieces -/

namespace Piece

/-- After some pieces the others are rendered at a level that depends on the first ones only. -/
theorem render_append (layout : Layout) (ps : List Piece) :
    ∀ level, ∃ level', ∀ qs,
      render layout level (ps ++ qs) = render layout level ps ++ render layout level' qs := by
  induction ps with
  | nil => exact fun level => ⟨level, fun _ => rfl⟩
  | cons p ps ih =>
    intro level
    cases p with
    | word | space | «break» =>
      obtain ⟨level', h⟩ := ih level
      exact ⟨level', fun qs => by simp [render, h]⟩
    | indent =>
      obtain ⟨level', h⟩ := ih (level + 1)
      exact ⟨level', fun qs => by simp [render, h]⟩
    | dedent =>
      obtain ⟨level', h⟩ := ih (level - 1)
      exact ⟨level', fun qs => by simp [render, h]⟩

/-- In front of text that ends a word, the pieces begin with text that does so. -/
def Opens (ps : List Piece) : Prop :=
  ∀ layout level rest, Apart rest → Apart (render layout level ps ++ rest)

/-- In front of text that ends a word, the pieces are read into the words among them. -/
def Clean (ps : List Piece) : Prop :=
  ∀ layout level rest ws, Apart rest → Lexes rest ws →
    Lexes (render layout level ps ++ rest) (words ps ++ ws)

namespace Opens

variable {ps qs : List Piece}

theorem nil : Opens [] := fun _ _ _ h => h

theorem space : Opens (.space :: ps) := fun _ _ _ _ => .blank rfl

theorem «break» : Opens (.break :: ps) := by
  intro layout level rest _
  cases layout <;> exact .blank rfl

theorem dedent (h : Opens ps) : Opens (.dedent :: ps) := fun layout level => h layout (level - 1)

theorem delimiter {k : Kind}
    (h : k ∈ [.braceOpen, .braceClose, .parenOpen, .parenClose, .bracketOpen, .bracketClose,
      .colon]) : Opens (mark k :: ps) := by
  intro layout level rest _
  simp only [List.mem_cons, List.not_mem_nil, or_false] at h
  rcases h with rfl | rfl | rfl | rfl | rfl | rfl | rfl <;> exact .delimiter rfl

theorem select {text : String} (h : Word.IsName text) : Opens (mark .dot :: ident text :: ps) := by
  intro layout level rest _
  obtain ⟨c, cs, htext, hc, -⟩ := h.start
  show Apart ('.' :: (text.toList ++ render layout level ps ++ rest))
  rw [htext]
  exact .name hc

theorem append (hp : Opens ps) (hq : Opens qs) : Opens (ps ++ qs) := by
  intro layout level rest hrest
  obtain ⟨level', h⟩ := render_append layout ps level
  rw [h, List.append_assoc]
  exact hp layout level _ (hq layout level' rest hrest)

end Opens

namespace Clean

variable {ps qs : List Piece}

theorem nil : Clean [] := fun _ _ _ _ _ h => h

theorem space (h : Clean ps) : Clean (.space :: ps) := fun layout level rest ws hrest hws =>
  (h layout level rest ws hrest hws).blank rfl

theorem «break» (h : Clean ps) : Clean (.break :: ps) := by
  intro layout level rest ws hrest hws
  have := h layout level rest ws hrest hws
  cases layout with
  | compact => exact this.blank rfl
  | pretty width =>
    show Lexes ('\n' :: List.replicate (width * level) ' ' ++ _ ++ rest) _
    rw [List.append_assoc]
    exact (this.spaces _).blank rfl

theorem indent (h : Clean ps) : Clean (.indent :: ps) := fun layout level => h layout (level + 1)

theorem dedent (h : Clean ps) : Clean (.dedent :: ps) := fun layout level => h layout (level - 1)

/-- A word that ends by itself may stand in front of anything. -/
theorem solid {w : Word} (hw : w.Solid) (h : Clean ps) : Clean (.word w :: ps) := by
  intro layout level rest ws hrest hws
  show Lexes (w.lexeme.toList ++ render layout level ps ++ rest) _
  rw [List.append_assoc]
  exact .word (hw _) (h layout level rest ws hrest hws)

/-- Any other word is ended by what comes next. -/
theorem word {w : Word} (hw : w.Legible) (ho : Opens ps) (h : Clean ps) : Clean (.word w :: ps) := by
  intro layout level rest ws hrest hws
  show Lexes (w.lexeme.toList ++ render layout level ps ++ rest) _
  rw [List.append_assoc]
  exact .word (hw _ (ho layout level rest hrest)) (h layout level rest ws hrest hws)

theorem append (hp : Clean ps) (ho : Opens qs) (hq : Clean qs) : Clean (ps ++ qs) := by
  intro layout level rest ws hrest hws
  obtain ⟨level', h⟩ := render_append layout ps level
  rw [h, List.append_assoc, words_append, List.append_assoc]
  exact hp layout level _ _ (ho layout level' rest hrest) (hq layout level' rest ws hrest hws)

theorem mark_space {k : Kind} (hk : k.text?.isSome = true) (h : Clean ps) :
    Clean (mark k :: .space :: ps) := .word (Word.legible_ofKind hk) .space h.space

theorem ident {text : String} (ht : Word.IsName text) (ho : Opens ps) (h : Clean ps) :
    Clean (ident text :: ps) := .word ht.legible ho h

theorem equals (h : Clean ps) : Clean (equalsPieces ++ ps) :=
  (mark_space rfl h).space

theorem spaced {rows : List (List Piece)} (h : ∀ row ∈ rows, Clean row) :
    Clean (Piece.spaced rows) := by
  fun_induction Piece.spaced rows with
  | case1 => exact .nil
  | case2 row => exact h row List.mem_cons_self
  | case3 row rows _ ih =>
    refine (h row List.mem_cons_self).append .space (ih fun row' hrow => ?_).space
    exact h row' (List.mem_cons_of_mem row hrow)

theorem enclosed {o c : Kind} {rows : List (List Piece)} (hop : o ∈ [.parenOpen, .bracketOpen, .braceOpen])
    (hcl : c ∈ [.parenClose, .bracketClose, .braceClose]) (h : ∀ row ∈ rows, Clean row) :
    Clean (Piece.enclosed o c rows) := by
  have hclose : Opens [mark c] ∧ (Word.ofKind c).Solid := by
    simp only [List.mem_cons, List.not_mem_nil, or_false] at hcl
    rcases hcl with rfl | rfl | rfl <;>
      exact ⟨.delimiter (by decide), Word.solid_ofKind (by decide)⟩
  have hopen : (Word.ofKind o).Solid := by
    simp only [List.mem_cons, List.not_mem_nil, or_false] at hop
    rcases hop with rfl | rfl | rfl <;> exact Word.solid_ofKind (by decide)
  exact .solid hopen ((spaced h).append hclose.1 (.solid hclose.2 .nil))

/-- Items at breaks of their own stand in front of anything that ends the last one. -/
theorem items {rows : List (List Piece)} (h : ∀ row ∈ rows, Clean row) (ho : Opens qs)
    (hq : Clean qs) : Clean (rows.flatMap (.break :: ·) ++ qs) := by
  induction rows with
  | nil => exact hq
  | cons row rows ih =>
    obtain ⟨hrow, hrows⟩ := List.forall_mem_cons.1 h
    have hopens : Opens (rows.flatMap (.break :: ·) ++ qs) := by
      cases rows with
      | nil => exact ho
      | cons => exact .break
    rw [List.flatMap_cons, List.cons_append, List.cons_append, List.append_assoc]
    exact (hrow.append hopens (ih hrows)).break

theorem braced {rows : List (List Piece)} (h : ∀ row ∈ rows, Clean row) :
    Clean (Piece.braced rows) := by
  have hopen : (Word.ofKind .braceOpen).Solid := Word.solid_ofKind (by decide)
  have hclose : Clean [mark .braceClose] := .solid (Word.solid_ofKind (by decide)) .nil
  unfold Piece.braced
  split
  · exact .solid hopen hclose
  · exact .solid hopen (items h (.dedent .break) hclose.break.dedent).indent

end Clean

end Piece

end TermLang
