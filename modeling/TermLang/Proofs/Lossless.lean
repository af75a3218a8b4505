import TermLang.Proofs.ReadingTerms

/-!
# Parsing keeps every token

What a parser of terms or of programs passes over is the yield of its value, token by token and in
order: jumps, loop heads read twice and speculations taken back leave no token out, and read none
twice. The end of the input closes a program and is no part of its yield.
-/

namespace TermLang

namespace Stream

/-- A row from the first token up to the end of the input is all there is before it. -/
theorem takeWhile_of_row {s : Stream} {j : Nat} {ys : List Terminal} {t : Token}
    (h : s.Row 0 ys j) (ht : s.tokens[j]? = some t) (hk : t.kind = .eof) :
    s.tokens.toList.takeWhile (·.kind ≠ .eof) = s.tokens.toList.take j := by
  obtain ⟨row, hrow, hdrop⟩ := h.exists_tokens
  have hne : ∀ u ∈ row, decide (u.kind ≠ .eof) = true := by
    intro u hu
    have hy : u.terminal ∈ ys := hrow ▸ List.mem_map_of_mem hu
    have := h.kind_ne_eof _ hy
    rw [Word.kind_terminal] at this
    exact decide_eq_true this
  have hlen : row.length = j := by rw [h.stop_eq, ← hrow, List.length_map, Nat.zero_add]
  have hj : s.tokens.toList.drop j = t :: s.tokens.toList.drop (j + 1) := by
    rw [← Array.getElem?_toList] at ht
    obtain ⟨hlt, hget⟩ := List.getElem?_eq_some_iff.1 ht
    rw [List.drop_eq_getElem_cons hlt, hget]
  rw [List.drop_zero, hj] at hdrop
  rw [hdrop, List.takeWhile_append_of_pos hne, List.takeWhile_cons_of_neg (by simp [hk]),
    List.append_nil, List.take_left' hlen]

end Stream

/-- Up to the first end of the input, the tokens of a program are its yield. -/
theorem yield_of_parseProgram {tokens : List Token} {maxDepth : Nat} {p : Program}
    (h : parseProgram tokens maxDepth = .ok p) :
    (tokens.takeWhile (·.kind ≠ .eof)).map (·.terminal) = p.yield ∧ ∃ t ∈ tokens, t.kind = .eof := by
  obtain ⟨hread, t, ht, hk⟩ := Grammar.program_reads (s := ⟨tokens.toArray, maxDepth⟩)
    (c := .start) ⟨h, rfl⟩
  have htake := Stream.takeWhile_of_row hread.row ht hk
  refine ⟨?_, t, ?_, hk⟩
  · exact (congrArg _ htake).trans hread.row.terminals
  · exact Array.mem_toList_iff.2 (Array.mem_of_getElem? ht)

open Parse

/-- The tokens that a successful run of the parser of terms passes over, from any cursor and under
any restrictions, are the yield of its term in kinds, names and values; those of a program, up to
the first end of the input, are the yield of the program. In both cases the printer writes the same
words in the same order. -/
theorem terminals_of_runs :
    (∀ (s : Stream) (r : Restrictions) (c c' : Cursor) (t : Term),
      (Grammar.term r).Runs s c t c' →
        ((s.tokens.toList.take c'.pos).drop c.pos).map (·.terminal) = t.yield ∧
        Piece.words t.pieces = t.yield.map Terminal.word) ∧
    (∀ (tokens : List Token) (maxDepth : Nat) (p : Program),
      parseProgram tokens maxDepth = .ok p →
        (tokens.takeWhile (·.kind ≠ .eof)).map (·.terminal) = p.yield ∧
        ∃ t ∈ tokens, t.kind = .eof) := by
  constructor
  · intro s r c c' t h
    exact ⟨(Grammar.term_reads r h).row.terminals, t.words_pieces⟩
  · exact fun _ _ _ h => yield_of_parseProgram h

/-! A stream in which the cursor jumps forwards over the list of a function, and backwards to the
bracket of a loop body that was first read as a named application. -/

/-- `for (a) -> f{b}` with the name `b` in the body. -/
def jumpingTokens : List Token :=
  [.kwFor, .parenOpen, .ident, .parenClose, .arrow, .ident, .braceOpen, .ident, .braceClose,
    .eof].map fun k => Token.ofWord (if k = .ident then .ident "a" else .ofKind k)

theorem terminals_of_runs_jumping :
    (Grammar.term .free).Runs ⟨jumpingTokens.toArray, 9⟩ .start
      (.forWhile (.funType [.ident "a"] (.ident "a")) [.ident "a"]) ⟨9, 0⟩ ∧
    ((jumpingTokens.take 9).drop 0).map (·.terminal) =
      (Term.forWhile (.funType [.ident "a"] (.ident "a")) [.ident "a"]).yield := by
  have h : (Grammar.term .free).Runs ⟨jumpingTokens.toArray, 9⟩ .start
      (.forWhile (.funType [.ident "a"] (.ident "a")) [.ident "a"]) ⟨9, 0⟩ := ⟨rfl, rfl⟩
  exact ⟨h, (terminals_of_runs.1 _ _ _ _ _ h).1⟩

end TermLang
