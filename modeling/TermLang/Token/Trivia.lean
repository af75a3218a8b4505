import TermLang.Token.LexError

/-!
# Trivia

Blanks and comments separate tokens and say nothing. A line comment runs to the end of its line, a
block comment to the first `*/` after its opening; block comments do not nest.
-/

namespace TermLang

/-- Space, tab, carriage return and line feed. -/
def isBlank (c : Char) : Bool := c = ' ' || c = '\t' || c = '\r' || c = '\n'

/-- What the text being skipped belongs to. -/
inductive TriviaMode
  | between
  | lineComment
  /-- A block comment, with the place where it opened. -/
  | blockComment (opened : Position)
deriving Repr

/-- The place after the trivia at the front of a text, and the text from there on. -/
def skipTrivia : TriviaMode → Position → List Char → Except LexError (Position × List Char)
  | .between, p, [] => .ok (p, [])
  | .between, p, '/' :: '/' :: cs => skipTrivia .lineComment ((p.after '/').after '/') cs
  | .between, p, '/' :: '*' :: cs => skipTrivia (.blockComment p) ((p.after '/').after '*') cs
  | .between, p, c :: cs =>
    if isBlank c then skipTrivia .between (p.after c) cs else .ok (p, c :: cs)
  | .lineComment, p, [] => .ok (p, [])
  | .lineComment, p, c :: cs =>
    skipTrivia (if c = '\n' then .between else .lineComment) (p.after c) cs
  | .blockComment opened, _, [] => .error ⟨.unterminatedComment, opened, "/*"⟩
  | .blockComment _, p, '*' :: '/' :: cs => skipTrivia .between ((p.after '*').after '/') cs
  | .blockComment opened, p, c :: cs => skipTrivia (.blockComment opened) (p.after c) cs

/-- What is left is a final part of the text, and the place moves over the rest of it. -/
theorem skipTrivia_ok {mode : TriviaMode} {p q : Position} {cs rest : List Char}
    (h : skipTrivia mode p cs = .ok (q, rest)) : ∃ t, cs = t ++ rest ∧ q = p.advance t := by
  fun_induction skipTrivia mode p cs with
  | case1 | case5 | case6 =>
    simp only [Except.ok.injEq, Prod.mk.injEq] at h
    exact ⟨[], by simp [← h.2], by simp [← h.1]⟩
  | case2 _ _ ih | case3 _ _ ih | case9 _ _ _ ih =>
    obtain ⟨t, rfl, rfl⟩ := ih h
    exact ⟨_ :: _ :: t, rfl, rfl⟩
  | case4 _ c _ _ _ _ ih | case7 _ c _ ih | case10 _ _ c _ _ ih =>
    obtain ⟨t, rfl, rfl⟩ := ih h
    exact ⟨c :: t, rfl, rfl⟩
  | case8 => simp at h

theorem length_le_of_skipTrivia {mode : TriviaMode} {p q : Position} {cs rest : List Char}
    (h : skipTrivia mode p cs = .ok (q, rest)) : rest.length ≤ cs.length := by
  obtain ⟨t, rfl, _⟩ := skipTrivia_ok h
  simp

end TermLang
