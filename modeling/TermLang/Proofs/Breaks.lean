import TermLang.Proofs.Coverage
import TermLang.Proofs.Lines

/-!
# Line feeds part a source

A text that can be read ends everywhere: a line feed behind it lets the reading start again, whatever
comes next, and what comes next is read as it is by itself, only further down. What stops the reading
of a text does so from its own place on, so the text in front of that place can be read.
-/

namespace TermLang

/-! ## Further down in a text -/

/-- The position, so many lines and bytes further down, in the same column. -/
def Position.down (lines bytes : Nat) (p : Position) : Position :=
  ⟨p.line + lines, p.column, p.offset + bytes⟩

/-- The same token further down. -/
def Token.down (lines bytes : Nat) (t : Token) : Token :=
  { t with span := ⟨t.span.start.down lines bytes, t.span.stop.down lines bytes⟩ }

/-- The same error further down. -/
def LexError.down (lines bytes : Nat) (e : LexError) : LexError :=
  { e with position := e.position.down lines bytes }

/-- A block comment that opened further down. -/
def TriviaMode.down (lines bytes : Nat) : TriviaMode → TriviaMode
  | blockComment opened => blockComment (opened.down lines bytes)
  | mode => mode

variable {lines bytes : Nat}

namespace Position

theorem after_down (p : Position) (c : Char) :
    (p.down lines bytes).after c = (p.after c).down lines bytes := by
  unfold after
  split <;> simp only [down, mk.injEq, true_and] <;> omega

theorem advance_down (p : Position) (cs : List Char) :
    (p.down lines bytes).advance cs = (p.advance cs).down lines bytes := by
  induction cs generalizing p with
  | nil => rfl
  | cons c cs ih => rw [advance_cons, after_down, ih, advance_cons]

/-- Behind a line feed, a text begins in the first column. -/
theorem advance_break (cs : List Char) :
    start.advance (cs ++ ['\n']) = start.down (cs.count '\n' + 1) (Text.byteSize cs + 1) := by
  rw [start_advance, List.rtakeWhile_concat_neg _ _ _ (by simp), List.count_append,
    List.count_singleton_self, Text.byteSize_append, down, mk.injEq]
  exact ⟨Nat.add_comm _ _, rfl, (Nat.zero_add _).symm⟩

end Position

theorem skipTrivia_down (mode : TriviaMode) (p : Position) (cs : List Char) :
    skipTrivia (mode.down lines bytes) (p.down lines bytes) cs =
      match skipTrivia mode p cs with
      | .ok (q, rest) => .ok (q.down lines bytes, rest)
      | .error e => .error (e.down lines bytes) := by
  fun_induction skipTrivia mode p cs with
  | case1 | case6 | case8 => rfl
  | case2 p cs ih | case3 p cs ih | case9 _ p cs ih =>
    rw [← ih]
    simp only [TriviaMode.down, skipTrivia, Position.after_down]
  | case4 p c cs hline hblock hc ih =>
    rw [← ih]
    simp only [TriviaMode.down]
    rw [skipTrivia.eq_4 _ _ _ hline hblock, if_pos hc, Position.after_down]
  | case5 p c cs hline hblock hc =>
    simp only [TriviaMode.down]
    rw [skipTrivia.eq_4 _ _ _ hline hblock, if_neg hc]
  | case7 p c cs ih =>
    rw [← ih]
    simp only [TriviaMode.down, skipTrivia, Position.after_down]
    split <;> rfl
  | case10 opened p c cs hopen ih =>
    rw [← ih]
    simp only [TriviaMode.down]
    rw [skipTrivia.eq_9 _ _ _ _ hopen, Position.after_down]

theorem skipTrivia_between_down (p : Position) (cs : List Char) :
    skipTrivia .between (p.down lines bytes) cs =
      match skipTrivia .between p cs with
      | .ok (q, rest) => .ok (q.down lines bytes, rest)
      | .error e => .error (e.down lines bytes) :=
  skipTrivia_down .between p cs

theorem Scan.token_down (s : Scan) (p : Position) :
    s.token (p.down lines bytes) = (s.token p).down lines bytes := by
  rw [token, Position.advance_down]
  rfl

/-- Further down, a text is read into the same tokens, or stopped by the same error. -/
theorem tokensFrom_down (p : Position) (cs : List Char) :
    tokensFrom (p.down lines bytes) cs =
      match tokensFrom p cs with
      | .ok ts => .ok (ts.map (.down lines bytes))
      | .error e => .error (e.down lines bytes) := by
  have hdown := @skipTrivia_between_down lines bytes p cs
  fun_induction tokensFrom p cs with
  | case1 p cs e hskip =>
    rw [hskip] at hdown
    rw [tokensFrom_eq, hdown]
  | case2 p cs q hskip =>
    rw [hskip] at hdown
    rw [tokensFrom_eq, hdown]
    rfl
  | case3 p cs q c rest hskip fault hscan =>
    rw [hskip] at hdown
    rw [tokensFrom_eq, hdown]
    dsimp only
    rw [hscan]
    rfl
  | case4 p cs q c rest hskip s hscan _ ih =>
    rw [hskip] at hdown
    rw [tokensFrom_eq, hdown]
    dsimp only
    rw [hscan]
    dsimp only
    rw [Position.advance_down, ih (skipTrivia_between_down _ _)]
    cases tokensFrom (q.advance s.lexeme) s.rest with
    | ok ts => simp [Except.map, Scan.token_down]
    | error e => rfl

/-! ## Texts that go on, or end, in another place -/

namespace Follows

variable {cs ds : List Char}

/-- More text behind what would end a word. -/
theorem extended (h : Detached ds) : Follows cs (cs ++ ds) := by
  induction cs with
  | nil => exact .apart h
  | cons c cs ih => exact .same ih

theorem cut : Follows (cs ++ ds) cs := by
  induction cs with
  | nil => exact .apart .nil
  | cons c cs ih => exact .same ih

end Follows

/-- A scanned word is read from the same text, whatever follows what was behind it. -/
theorem tokensFrom_scanned {c : Char} {cs rest : List Char} {s : Scan} (h : scan c cs = .ok s)
    (hrest : Follows s.rest rest) (p : Position) :
    tokensFrom p (s.lexeme ++ rest) =
      (tokensFrom (p.advance s.lexeme) rest).map (s.token p :: ·) := by
  obtain ⟨body, hlexeme, hkeeps⟩ := scan_keeps h
  obtain ⟨hslash, hblank⟩ := not_trivia_of_scan h
  conv => lhs; rw [hlexeme]
  rw [List.append_assoc, List.singleton_append, tokensFrom_cons hslash hblank, hkeeps rest hrest]
  rfl

/-- A line feed completes the trivia that a text may end with. -/
theorem FinalTrivia.closed {w : List Char} (h : FinalTrivia w) : Trivia (w ++ ['\n']) := by
  cases h with
  | complete h => exact h.append (.blank rfl .nil)
  | openLine h hbody =>
    rw [List.append_assoc]
    exact h.append (.line hbody .nil)

/-- Trivia by itself is read. -/
theorem tokensFrom_gap {w : List Char} (h : Trivia w) (p : Position) :
    tokensFrom p w = .ok [Token.eof (p.advance w)] := by
  have hend := tokensFrom_trivia h p []
  rw [List.append_nil] at hend
  rw [hend, tokensFrom_eq]
  rfl

/-- Behind a text that is read, reading starts again after a line feed. -/
theorem tokensFrom_break {p : Position} {cs : List Char} {ts : List Token}
    (h : tokensFrom p cs = .ok ts) (ds : List Char) :
    tokensFrom p (cs ++ '\n' :: ds) =
      (tokensFrom (p.advance (cs ++ ['\n'])) ds).map (ts.filter (·.kind ≠ .eof) ++ ·) := by
  fun_induction tokensFrom p cs generalizing ts with
  | case1 => cases h
  | case2 p cs q hskip =>
    obtain rfl := Except.ok.inj h
    obtain ⟨gap, rfl, rfl, hgap⟩ := skipTrivia_leaves hskip
    have hread := tokensFrom_trivia (IsGap.final hgap).closed p ds
    rw [List.append_assoc, List.singleton_append] at hread
    rw [List.append_nil, hread]
    cases tokensFrom (p.advance (gap ++ ['\n'])) ds <;> rfl
  | case3 => cases h
  | case4 p cs q c rest hskip s hscan _ ih =>
    obtain ⟨gap, rfl, rfl, hgap⟩ := skipTrivia_leaves hskip
    have hgap : Trivia gap := IsGap.complete hgap (List.cons_ne_nil c rest)
    cases hrest : tokensFrom ((p.advance gap).advance s.lexeme) s.rest with
    | error e =>
      rw [hrest] at h
      cases h
    | ok us =>
      rw [hrest] at h
      obtain rfl := Except.ok.inj h
      have hbreak : Follows s.rest (s.rest ++ '\n' :: ds) := .extended (.blank rfl)
      have hkind : (s.token (p.advance gap)).kind ≠ .eof := (scan_printable hscan).kind_ne_eof
      rw [← scan_append hscan, List.append_assoc, List.append_assoc, tokensFrom_trivia hgap,
        tokensFrom_scanned hscan hbreak, ih hrest]
      simp only [Position.advance_append]
      cases tokensFrom _ ds with
      | ok vs => simp [Except.map, hkind]
      | error e => rfl

/-- What is in front of an error is read by itself. -/
theorem tokensFrom_cut {p : Position} {cs : List Char} {e : LexError}
    (h : tokensFrom p cs = .error e) :
    ∃ before after ts, cs = before ++ after ∧ e.position = p.advance before ∧
      tokensFrom p before = .ok ts := by
  fun_induction tokensFrom p cs with
  | case1 p cs e' hskip =>
    obtain rfl := Except.error.inj h
    obtain ⟨gap, rest, rfl, hne, hp, hgap⟩ := (skipTrivia_fails hskip).resolve_right (by simp)
    exact ⟨gap, rest, _, rfl, hp, tokensFrom_gap (IsGap.complete hgap hne) p⟩
  | case2 => cases h
  | case3 p cs q c rest hskip fault hscan =>
    obtain rfl := Except.error.inj h
    obtain ⟨gap, rfl, rfl, hgap⟩ := skipTrivia_leaves hskip
    exact ⟨gap, c :: rest, _, rfl, rfl,
      tokensFrom_gap (IsGap.complete hgap (List.cons_ne_nil c rest)) p⟩
  | case4 p cs q c rest hskip s hscan _ ih =>
    obtain ⟨gap, rfl, rfl, hgap⟩ := skipTrivia_leaves hskip
    have hgap : Trivia gap := IsGap.complete hgap (List.cons_ne_nil c rest)
    cases hrest : tokensFrom ((p.advance gap).advance s.lexeme) s.rest with
    | ok us =>
      rw [hrest] at h
      cases h
    | error e' =>
      rw [hrest] at h
      obtain rfl := Except.error.inj h
      obtain ⟨before, after, us, hcut, hp, hus⟩ := ih hrest
      have hfollows : Follows s.rest before := by
        rw [hcut]
        exact .cut
      refine ⟨gap ++ (s.lexeme ++ before), after, s.token (p.advance gap) :: us, ?_, ?_, ?_⟩
      · rw [← scan_append hscan, hcut]
        simp only [List.append_assoc]
      · rw [hp, Position.advance_append, Position.advance_append]
      · rw [tokensFrom_trivia hgap, tokensFrom_scanned hscan hfollows, hus]
        rfl

/-! ## Sources -/

/-- Behind a source that is read and a line feed, another one is read as it is by itself: after the
tokens of the first one, the end of the input left out, come its tokens, or else its error, each as many
lines and bytes further down as are in front. And a source that is not read is read up to the place of
its error. -/
theorem tokenize_break (s₁ s₂ : String) :
    (∀ ts, tokenize s₁ = .ok ts →
      let lines := s₁.toList.count '\n' + 1
      let bytes := Text.byteSize s₁.toList + 1
      tokenize (s₁ ++ "\n" ++ s₂) =
        match tokenize s₂ with
        | .ok us => .ok (ts.filter (·.kind ≠ .eof) ++ us.map (.down lines bytes))
        | .error e => .error (e.down lines bytes)) ∧
    ∀ e, tokenize s₁ = .error e →
      ∃ before after ts, s₁ = before ++ after ∧ Text.byteSize before.toList = e.position.offset ∧
        tokenize before = .ok ts := by
  refine ⟨fun ts hts => ?_, fun e he => ?_⟩
  · have htext : (s₁ ++ "\n" ++ s₂).toList = s₁.toList ++ '\n' :: s₂.toList := by simp
    dsimp only
    rw [tokenize, htext, tokensFrom_break hts, Position.advance_break, tokensFrom_down, ← tokenize]
    cases tokenize s₂ <;> rfl
  · obtain ⟨before, after, ts, htext, hp, hts⟩ := tokensFrom_cut he
    refine ⟨String.ofList before, String.ofList after, ts, ?_, ?_, ?_⟩
    · rw [← String.ofList_append, ← htext, String.ofList_toList]
    · rw [hp, Position.offset_advance, String.toList_ofList]
      exact (Nat.zero_add _).symm
    · rw [tokenize, String.toList_ofList, hts]

/-- A name that ends in a hyphen, a point that begins no fraction and an open comment, in front of a
string without an end; and a comment without one. -/
theorem tokenize_break_comment :
    tokenize "b- 1. // é\n \"x" = .error ⟨.unterminatedString, ⟨2, 2, 13⟩, "\"x"⟩ ∧
    ∃ before after ts, "a\n/*" = before ++ after ∧ Text.byteSize before.toList = 2 ∧
      tokenize before = .ok ts := by
  constructor
  · have hts : tokenize "b- 1. // é" = .ok [⟨.ident "b-", ⟨.start, ⟨1, 3, 2⟩⟩⟩,
        ⟨⟨.integer, "1", some (.int 1)⟩, ⟨⟨1, 4, 3⟩, ⟨1, 5, 4⟩⟩⟩, ⟨.ofKind .dot, ⟨⟨1, 5, 4⟩, ⟨1, 6, 5⟩⟩⟩,
        .eof ⟨1, 11, 11⟩] := by decide +kernel
    have herror : tokenize " \"x" = .error ⟨.unterminatedString, ⟨1, 2, 1⟩, "\"x"⟩ := by
      decide +kernel
    have h := (tokenize_break "b- 1. // é" " \"x").1 _ hts
    rw [herror] at h
    exact h
  · have herror : tokenize "a\n/*" = .error ⟨.unterminatedComment, ⟨2, 1, 2⟩, "/*"⟩ := by
      decide +kernel
    exact (tokenize_break "a\n/*" "").2 _ herror

end TermLang
