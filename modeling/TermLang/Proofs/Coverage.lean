import TermLang.Proofs.ErrorPlaces
import TermLang.Proofs.Respaced

/-!
# Tokens cover a text

What a source is read into leaves nothing of it out. The text is cut into gaps and lexemes that take
turns (`Covers`); a gap is trivia, and the last one ends with the input. From this row of parts follows
where every span begins and ends, what it encloses and what stands between it and the next one.
-/

namespace TermLang

/-! ## Gaps -/

theorem Trivia.append {v w : List Char} (hv : Trivia v) (hw : Trivia w) : Trivia (v ++ w) := by
  induction hv with
  | nil => exact hw
  | blank hc _ ih => exact .blank hc ih
  | line hbody _ ih =>
    rw [List.cons_append, List.cons_append, List.append_assoc, List.cons_append]
    exact .line hbody ih
  | block hbody _ ih =>
    rw [List.cons_append, List.cons_append, List.append_assoc, List.cons_append, List.cons_append]
    exact .block hbody ih

/-- A text in front of a rest is trivia; in front of nothing it may leave a line comment open. -/
structure IsGap (gap rest : List Char) : Prop where
  final : FinalTrivia gap
  complete : rest ≠ [] → Trivia gap

namespace IsGap

variable {gap rest : List Char}

theorem of_trivia (h : Trivia gap) : IsGap gap rest := ⟨.complete h, fun _ => h⟩

/-- Trivia in front of a gap makes up a longer one. -/
theorem append {w : List Char} (hw : Trivia w) (h : IsGap gap rest) : IsGap (w ++ gap) rest where
  final := by
    cases h.final with
    | complete hgap => exact .complete (hw.append hgap)
    | openLine hgap hbody =>
      rw [← List.append_assoc]
      exact .openLine (hw.append hgap) hbody
  complete hne := hw.append (h.complete hne)

end IsGap

/-- What is left of a stretch of trivia in a mode: between comments a gap; in a comment its end and then
a gap, or all of the text if it is the line comment that nothing follows. -/
def TriviaMode.Leaves : TriviaMode → List Char → List Char → Prop
  | .between, t, rest => IsGap t rest
  | .lineComment, t, rest =>
    (∃ body gap, t = body ++ '\n' :: gap ∧ '\n' ∉ body ∧ IsGap gap rest) ∨ rest = [] ∧ '\n' ∉ t
  | .blockComment _, t, rest =>
    ∃ body gap, t = body ++ '*' :: '/' :: gap ∧ ¬ ['*', '/'] <:+: body ∧ IsGap gap rest

namespace TriviaMode.Leaves

variable {opened : Position} {c : Char} {t rest : List Char}

theorem blank (hc : isBlank c = true) (h : between.Leaves t rest) : between.Leaves (c :: t) rest :=
  IsGap.append (.blank hc .nil) h

theorem openLine (h : lineComment.Leaves t rest) : between.Leaves ('/' :: '/' :: t) rest := by
  obtain ⟨body, gap, rfl, hbody, hgap⟩ | ⟨rfl, hbody⟩ := h
  · have := hgap.append (.line hbody .nil)
    rwa [List.cons_append, List.cons_append, List.append_assoc, List.singleton_append] at this
  · exact ⟨.openLine .nil hbody, fun hne => absurd rfl hne⟩

theorem openBlock (h : (blockComment opened).Leaves t rest) :
    between.Leaves ('/' :: '*' :: t) rest := by
  obtain ⟨body, gap, rfl, hbody, hgap⟩ := h
  have := hgap.append (.block hbody .nil)
  rwa [List.cons_append, List.cons_append, List.append_assoc, List.cons_append,
    List.singleton_append] at this

theorem inLine (h : (if c = '\n' then between else lineComment).Leaves t rest) :
    lineComment.Leaves (c :: t) rest := by
  by_cases hc : c = '\n'
  · rw [if_pos hc] at h
    exact .inl ⟨[], t, by rw [hc]; rfl, List.not_mem_nil, h⟩
  · rw [if_neg hc] at h
    rcases h with ⟨body, gap, rfl, hbody, hgap⟩ | ⟨rfl, hbody⟩
    · exact .inl ⟨c :: body, gap, rfl, List.not_mem_cons_of_ne_of_not_mem (Ne.symm hc) hbody, hgap⟩
    · exact .inr ⟨rfl, List.not_mem_cons_of_ne_of_not_mem (Ne.symm hc) hbody⟩

theorem closeBlock (h : between.Leaves t rest) : (blockComment opened).Leaves ('*' :: '/' :: t) rest :=
  ⟨[], t, rfl, by simp, h⟩

/-- The comment goes on with a character that does not close it. -/
theorem inBlock (hopen : ∀ tail, c = '*' → t ++ rest ≠ '/' :: tail)
    (h : (blockComment opened).Leaves t rest) : (blockComment opened).Leaves (c :: t) rest := by
  obtain ⟨body, gap, rfl, hbody, hgap⟩ := h
  refine ⟨c :: body, gap, rfl, ?_, hgap⟩
  rw [List.infix_cons_iff, not_or]
  refine ⟨fun hprefix => ?_, hbody⟩
  obtain ⟨rfl, hsecond⟩ := List.cons_prefix_cons.1 hprefix
  cases body with
  | nil => simp at hsecond
  | cons d body =>
    obtain ⟨rfl, -⟩ := List.cons_prefix_cons.1 hsecond
    exact hopen _ rfl rfl

end TriviaMode.Leaves

/-- What is skipped is trivia. -/
theorem skipTrivia_leaves {mode : TriviaMode} {p q : Position} {cs rest : List Char}
    (h : skipTrivia mode p cs = .ok (q, rest)) :
    ∃ t, cs = t ++ rest ∧ q = p.advance t ∧ mode.Leaves t rest := by
  fun_induction skipTrivia mode p cs with
  | case1 | case5 =>
    obtain ⟨rfl, rfl⟩ := Prod.mk.inj (Except.ok.inj h)
    exact ⟨[], rfl, rfl, .of_trivia .nil⟩
  | case2 p cs ih =>
    obtain ⟨t, rfl, rfl, hleaves⟩ := ih h
    exact ⟨'/' :: '/' :: t, rfl, rfl, hleaves.openLine⟩
  | case3 p cs ih =>
    obtain ⟨t, rfl, rfl, hleaves⟩ := ih h
    exact ⟨'/' :: '*' :: t, rfl, rfl, hleaves.openBlock⟩
  | case4 p c cs _ _ hc ih =>
    obtain ⟨t, rfl, rfl, hleaves⟩ := ih h
    exact ⟨c :: t, rfl, rfl, hleaves.blank hc⟩
  | case6 p =>
    obtain ⟨rfl, rfl⟩ := Prod.mk.inj (Except.ok.inj h)
    exact ⟨[], rfl, rfl, .inr ⟨rfl, List.not_mem_nil⟩⟩
  | case7 p c cs ih =>
    obtain ⟨t, rfl, rfl, hleaves⟩ := ih h
    exact ⟨c :: t, rfl, rfl, hleaves.inLine⟩
  | case8 => cases h
  | case9 opened p cs ih =>
    obtain ⟨t, rfl, rfl, hleaves⟩ := ih h
    exact ⟨'*' :: '/' :: t, rfl, rfl, hleaves.closeBlock⟩
  | case10 opened p c cs hopen ih =>
    obtain ⟨t, rfl, rfl, hleaves⟩ := ih h
    exact ⟨c :: t, rfl, rfl, hleaves.inBlock hopen⟩

/-- Skipping fails behind trivia, where a comment opens that is not closed; or inside of one, if it
began there. -/
theorem skipTrivia_fails {mode : TriviaMode} {p : Position} {cs : List Char} {e : LexError}
    (h : skipTrivia mode p cs = .error e) :
    (∃ t rest, cs = t ++ rest ∧ rest ≠ [] ∧ e.position = p.advance t ∧ mode.Leaves t rest) ∨
      mode = .blockComment e.position := by
  fun_induction skipTrivia mode p cs with
  | case1 | case5 | case6 => cases h
  | case2 p cs ih =>
    obtain ⟨t, rest, rfl, hne, hp, hleaves⟩ := (ih h).resolve_right (by simp)
    exact .inl ⟨'/' :: '/' :: t, rest, rfl, hne, hp, hleaves.openLine⟩
  | case3 p cs ih =>
    obtain ⟨t, rest, rfl, hne, hp, hleaves⟩ | hmode := ih h
    · exact .inl ⟨'/' :: '*' :: t, rest, rfl, hne, hp, hleaves.openBlock⟩
    · obtain rfl := TriviaMode.blockComment.inj hmode
      exact .inl ⟨[], '/' :: '*' :: cs, rfl, List.cons_ne_nil _ _, rfl, .of_trivia .nil⟩
  | case4 p c cs _ _ hc ih =>
    obtain ⟨t, rest, rfl, hne, hp, hleaves⟩ := (ih h).resolve_right (by simp)
    exact .inl ⟨c :: t, rest, rfl, hne, hp, hleaves.blank hc⟩
  | case7 p c cs ih =>
    obtain ⟨t, rest, rfl, hne, hp, hleaves⟩ := (ih h).resolve_right (by split <;> simp)
    exact .inl ⟨c :: t, rest, rfl, hne, hp, hleaves.inLine⟩
  | case8 =>
    obtain rfl := Except.error.inj h
    exact .inr rfl
  | case9 opened p cs ih =>
    obtain ⟨t, rest, rfl, hne, hp, hleaves⟩ := (ih h).resolve_right (by simp)
    exact .inl ⟨'*' :: '/' :: t, rest, rfl, hne, hp, hleaves.closeBlock⟩
  | case10 opened p c cs hopen ih =>
    obtain ⟨t, rest, rfl, hne, hp, hleaves⟩ | hmode := ih h
    · exact .inl ⟨c :: t, rest, rfl, hne, hp, hleaves.inBlock hopen⟩
    · exact .inr hmode

/-! ## Rows of gaps and lexemes -/

/-- From a position on, a text is gaps and the lexemes of tokens by turns, up to the token that marks
its end. Every token spans its lexeme. -/
inductive Covers : Position → List Char → List Token → Prop
  | last {p : Position} {gap : List Char} : FinalTrivia gap → Covers p gap [Token.eof (p.advance gap)]
  | next {p : Position} {gap rest : List Char} {t : Token} {ts : List Token} :
      Trivia gap → t.kind ≠ .eof → t.lexeme ≠ "" →
      t.span = ⟨p.advance gap, (p.advance gap).advance t.lexeme.toList⟩ →
      Covers t.span.stop rest ts → Covers p (gap ++ (t.lexeme.toList ++ rest)) (t :: ts)

/-- What a text is read into covers it. -/
theorem covers_tokensFrom {p : Position} {cs : List Char} {ts : List Token}
    (h : tokensFrom p cs = .ok ts) : Covers p cs ts := by
  fun_induction tokensFrom p cs generalizing ts with
  | case1 => cases h
  | case2 p cs q hskip =>
    obtain rfl := Except.ok.inj h
    obtain ⟨gap, rfl, rfl, hgap⟩ := skipTrivia_leaves hskip
    rw [List.append_nil]
    exact .last (IsGap.final hgap)
  | case3 => cases h
  | case4 p cs q c rest hskip s hscan _ ih =>
    obtain ⟨gap, rfl, rfl, hgap⟩ := skipTrivia_leaves hskip
    cases hrest : tokensFrom ((p.advance gap).advance s.lexeme) s.rest with
    | error e =>
      rw [hrest] at h
      cases h
    | ok us =>
      rw [hrest] at h
      obtain rfl := Except.ok.inj h
      have htext : (s.token (p.advance gap)).lexeme.toList = s.lexeme := String.toList_ofList
      have hne : (s.token (p.advance gap)).lexeme ≠ "" := by
        intro hempty
        rw [hempty] at htext
        exact scan_ne_nil hscan htext.symm
      rw [← scan_append hscan, ← htext]
      exact .next (IsGap.complete hgap (List.cons_ne_nil c rest)) (scan_printable hscan).kind_ne_eof hne
        (by rw [htext]; rfl) (ih hrest)

namespace Covers

variable {p : Position} {cs : List Char} {ts : List Token}

/-- No token begins before the position that the text begins at, or ends before it begins. -/
theorem offset_le (h : Covers p cs ts) :
    ∀ t ∈ ts, p.offset ≤ t.span.start.offset ∧ t.span.start.offset ≤ t.span.stop.offset := by
  induction h with
  | last =>
    intro t ht
    obtain rfl := List.mem_singleton.1 ht
    simp only [Token.eof, Position.offset_advance]
    omega
  | next _ _ _ hspan _ ih =>
    refine List.forall_mem_cons.2 ⟨?_, fun u hu => ?_⟩
    · simp only [hspan, Position.offset_advance]
      omega
    · have := ih u hu
      simp only [hspan, Position.offset_advance] at this
      omega

/-- Every token ends before the tokens after it begin. -/
theorem pairwise (h : Covers p cs ts) :
    ts.Pairwise fun t u => t.span.stop.offset ≤ u.span.start.offset := by
  induction h with
  | last => exact List.pairwise_singleton _ _
  | next _ _ _ _ hrest ih => exact .cons (fun u hu => (hrest.offset_le u hu).1) ih

end Covers

/-- Where the last of some tokens ends; a position before all of them if there is none. -/
def stopOf (p : Position) (ts : List Token) : Position := (ts.getLast?.map (·.span.stop)).getD p

theorem stopOf_cons (p : Position) (t : Token) (ts : List Token) :
    stopOf p (t :: ts) = stopOf t.span.stop ts := by
  cases ts with
  | nil => rfl
  | cons u us => simp [stopOf, List.getLast?_eq_some_getLast]

/-- What stands between the end of the tokens before a token and the token: trivia, and in front of the
end of the input trivia that may end with it. -/
theorem Covers.gap {p : Position} {cs : List Char} {before after : List Token} {t : Token}
    (h : Covers p cs (before ++ t :: after)) :
    ∃ front gap rest, cs = front ++ (gap ++ rest) ∧ stopOf p before = p.advance front ∧
      t.span.start = (p.advance front).advance gap ∧
      if t.kind = .eof then FinalTrivia gap else Trivia gap := by
  induction before generalizing p cs with
  | nil =>
    generalize hts : [] ++ t :: after = ts at h
    cases h with
    | last hgap =>
      obtain ⟨rfl, -⟩ := List.cons.inj hts
      refine ⟨[], cs, [], (List.append_nil _).symm, rfl, rfl, ?_⟩
      rwa [if_pos (by rfl)]
    | @next _ gap rest _ _ hgap hk _ hspan =>
      obtain ⟨rfl, -⟩ := List.cons.inj hts
      refine ⟨[], gap, t.lexeme.toList ++ rest, rfl, rfl, by rw [hspan]; rfl, ?_⟩
      rwa [if_neg hk]
  | cons u before ih =>
    generalize hts : u :: before ++ t :: after = ts at h
    cases h with
    | last => simp at hts
    | @next _ gap rest _ _ _ _ _ hspan hrest =>
      obtain ⟨rfl, rfl⟩ := List.cons.inj hts
      obtain ⟨front, gap', rest', rfl, hstop, hstart, hgap⟩ := ih hrest
      have hadvance : p.advance (gap ++ (u.lexeme.toList ++ front)) = u.span.stop.advance front := by
        rw [hspan, Position.advance_append, Position.advance_append]
      refine ⟨gap ++ (u.lexeme.toList ++ front), gap', rest', by simp, ?_, ?_, hgap⟩
      · rw [stopOf_cons, hstop, hadvance]
      · rw [hstart, hadvance]

/-! ## Sources -/

/-- What stands at a position ends at a position of the file. -/
theorem Stands.stop {p q : Position} {cs part : List Char} (h : Stands p cs part q) :
    Stands p cs [] (q.advance part) := by
  obtain ⟨before, after, rfl, rfl⟩ := h
  exact ⟨before ++ part, after, by simp, by rw [Position.advance_append]⟩

/-- The tokens are those of the source and leave nothing of it out: they stand in order and apart, each
on its own text at positions of the file; all of them have a text but the end of the input, which comes
last, at the end of the source; and what stands in front of each of them, behind the one before, is
trivia. -/
structure SourceFile.ReadInto (file : SourceFile) (ts : List Token) : Prop where
  apart : ts.Pairwise fun t u => t.span.stop.offset ≤ u.span.start.offset
  lexeme : ∀ t ∈ ts,
    Text.slice? t.span.start.offset t.span.stop.offset file.chars = some t.lexeme.toList
  start : ∀ t ∈ ts, t.span.start = file.positionAt t.span.start.offset
  stop : ∀ t ∈ ts, t.span.stop = file.positionAt t.span.stop.offset
  last : ∃ row, ts = row ++ [Token.eof (file.positionAt file.size)] ∧
    ∀ t ∈ row, t.kind ≠ .eof ∧ t.lexeme ≠ ""
  gap : ∀ before t after, ts = before ++ t :: after → ∃ gap,
    Text.slice? (stopOf .start before).offset t.span.start.offset file.chars = some gap ∧
      if t.kind = .eof then FinalTrivia gap else Trivia gap

/-- Reading a source into tokens leaves nothing of it out. -/
theorem readInto_of_tokenize (file : SourceFile) (ts : List Token)
    (h : tokenize file.content = .ok ts) : file.ReadInto ts := by
  have hcovers : Covers .start file.chars ts := covers_tokensFrom h
  have hstands : ∀ t ∈ ts, Stands .start file.chars t.lexeme.toList t.span.start ∧
      t.span.stop = t.span.start.advance t.lexeme.toList := tokensFrom_stands h
  refine ⟨hcovers.pairwise, fun t ht => ?_, fun t ht => ?_, fun t ht => ?_, ?_, ?_⟩
  · obtain ⟨hstart, hstop⟩ := hstands t ht
    rw [hstop, Position.offset_advance]
    exact hstart.in_file.1
  · exact (hstands t ht).1.in_file.2.1
  · obtain ⟨hstart, hstop⟩ := hstands t ht
    rw [hstop]
    exact hstart.stop.in_file.2.1
  · rw [file.positionAt_size]
    exact tokensFrom_last h
  · rintro before t after rfl
    obtain ⟨front, gap, rest, htext, hstop, hstart, hgap⟩ := hcovers.gap
    refine ⟨gap, ?_, hgap⟩
    have hoffset : (Position.start.advance front).offset = Text.byteSize front := by
      rw [Position.offset_advance]
      exact Nat.zero_add _
    rw [hstop, hstart, Position.offset_advance _ gap, hoffset, htext]
    exact Text.slice?_append front gap rest

/-! A name behind a comment of two lines with a wide character, and a comment that the input ends in. -/

def commentedFile : SourceFile := ⟨"a", "/* é\n */ x // €"⟩

def commentedTokens : List Token :=
  [⟨.ident "x", ⟨2, 5, 10⟩, ⟨2, 6, 11⟩⟩, .eof ⟨2, 11, 18⟩]

theorem readInto_of_tokenize_commented :
    tokenize commentedFile.content = .ok commentedTokens ∧ commentedFile.ReadInto commentedTokens ∧
      commentedFile.positionAt 10 = ⟨2, 5, 10⟩ ∧
      Text.slice? 11 18 commentedFile.chars = some " // €".toList := by
  have h : tokenize commentedFile.content = .ok commentedTokens := by decide +kernel
  have hread := readInto_of_tokenize commentedFile _ h
  have hstart : (⟨2, 5, 10⟩ : Position) = commentedFile.positionAt 10 :=
    hread.start _ List.mem_cons_self
  exact ⟨h, hread, hstart.symm, by decide +kernel⟩

end TermLang
