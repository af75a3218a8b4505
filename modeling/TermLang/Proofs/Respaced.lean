import TermLang.Proofs.Detached
import TermLang.Proofs.RoundTrip

/-!
# Trivia says nothing

The words of a source may be set apart by any trivia. They are scanned as the same words, because
each of them keeps in front of trivia, and the parser looks at no place where a token stands: it
reads the same program, or fails with the same error at another place.
-/

namespace TermLang

/-! ## Trivia -/

/-- A complete stretch of trivia: blanks, line comments with their line feeds, and block comments,
which end at the first `*/` in them. -/
inductive Trivia : List Char → Prop
  | nil : Trivia []
  | blank {c : Char} {cs : List Char} (hc : isBlank c = true) (h : Trivia cs) : Trivia (c :: cs)
  | line {body cs : List Char} (hbody : '\n' ∉ body) (h : Trivia cs) :
      Trivia ('/' :: '/' :: (body ++ '\n' :: cs))
  | block {body cs : List Char} (hbody : ¬ ['*', '/'] <:+: body) (h : Trivia cs) :
      Trivia ('/' :: '*' :: (body ++ '*' :: '/' :: cs))

/-- Trivia at the end of a text, where a line comment may be left open. -/
inductive FinalTrivia : List Char → Prop
  | complete {cs : List Char} (h : Trivia cs) : FinalTrivia cs
  | openLine {cs body : List Char} (h : Trivia cs) (hbody : '\n' ∉ body) :
      FinalTrivia (cs ++ '/' :: '/' :: body)

theorem skipTrivia_line {body : List Char} (hbody : '\n' ∉ body) (p : Position) (cs : List Char) :
    skipTrivia .lineComment p (body ++ '\n' :: cs) =
      skipTrivia .between (p.advance (body ++ ['\n'])) cs := by
  induction body generalizing p with
  | nil => rfl
  | cons c body ih =>
    obtain ⟨hc, hrest⟩ := not_or.1 (List.mem_cons.not.1 hbody)
    rw [List.cons_append, skipTrivia, if_neg (Ne.symm hc), ih hrest]
    rfl

theorem skipTrivia_openLine {body : List Char} (hbody : '\n' ∉ body) (p : Position) :
    skipTrivia .lineComment p body = .ok (p.advance body, []) := by
  induction body generalizing p with
  | nil => rfl
  | cons c body ih =>
    obtain ⟨hc, hrest⟩ := not_or.1 (List.mem_cons.not.1 hbody)
    rw [skipTrivia, if_neg (Ne.symm hc), ih hrest]
    rfl

theorem skipTrivia_block {body : List Char} (hbody : ¬ ['*', '/'] <:+: body) (opened p : Position)
    (cs : List Char) :
    skipTrivia (.blockComment opened) p (body ++ '*' :: '/' :: cs) =
      skipTrivia .between (p.advance (body ++ ['*', '/'])) cs := by
  induction body generalizing p with
  | nil => rfl
  | cons c body ih =>
    have hrest : ¬ ['*', '/'] <:+: body := fun h => hbody (List.infix_cons h)
    -- the comment does not close at its first character
    have hopen : ∀ tail, ¬ (c = '*' ∧ body ++ '*' :: '/' :: cs = '/' :: tail) := by
      rintro tail ⟨rfl, htail⟩
      cases body with
      | nil => exact nomatch (List.cons_eq_cons.1 htail).1
      | cons d body =>
        obtain rfl := (List.cons_eq_cons.1 htail).1
        exact hbody (List.prefix_append ['*', '/'] body).isInfix
    rw [List.cons_append, skipTrivia, ih hrest]
    · rfl
    · rintro tail rfl htail
      exact hopen tail ⟨rfl, htail⟩

/-- Trivia is skipped as a whole. -/
theorem skipTrivia_trivia {w : List Char} (hw : Trivia w) (p : Position) (cs : List Char) :
    skipTrivia .between p (w ++ cs) = skipTrivia .between (p.advance w) cs := by
  induction hw generalizing p with
  | nil => rfl
  | @blank c _ hc _ ih =>
    have hslash : c ≠ '/' := by
      rintro rfl
      exact nomatch hc
    rw [List.cons_append, skipTrivia_cons hslash, if_pos hc, ih]
    rfl
  | line hbody _ ih =>
    rw [List.cons_append, List.cons_append, List.append_assoc, List.cons_append, skipTrivia,
      skipTrivia_line hbody, ih]
    simp only [Position.advance_cons, Position.advance_append, Position.advance_nil]
  | block hbody _ ih =>
    rw [List.cons_append, List.cons_append, List.append_assoc, List.cons_append, List.cons_append,
      skipTrivia, skipTrivia_block hbody, ih]
    simp only [Position.advance_cons, Position.advance_append, Position.advance_nil]

theorem tokensFrom_trivia {w : List Char} (hw : Trivia w) (p : Position) (cs : List Char) :
    tokensFrom p (w ++ cs) = tokensFrom (p.advance w) cs := by
  rw [tokensFrom_eq, skipTrivia_trivia hw, ← tokensFrom_eq]

namespace Lexes

variable {cs w : List Char} {ws : List Word}

/-- Trivia in front of a text does not change what it is read into. -/
theorem trivia (hw : Trivia w) (h : Lexes cs ws) : Lexes (w ++ cs) ws := by
  intro p
  obtain ⟨ts, q, hts, hws⟩ := h (p.advance w)
  exact ⟨ts, q, (tokensFrom_trivia hw p cs).trans hts, hws⟩

/-- Trivia alone is read into no word. -/
theorem finalTrivia (hw : FinalTrivia w) : Lexes w [] := by
  cases hw with
  | complete h =>
    rw [← List.append_nil w]
    exact nil.trivia h
  | @openLine _ body h hbody =>
    refine trivia h fun p => ⟨[], ((p.after '/').after '/').advance body, ?_, rfl⟩
    rw [tokensFrom_eq, skipTrivia, skipTrivia_openLine hbody]
    rfl

end Lexes

/-! ## Words set apart -/

/-- The texts can stand before, between and after `n` words: they are trivia, they are not empty
between two words, and only the last one may leave a line comment open. -/
structure Separates (sep : Nat → List Char) (n : Nat) : Prop where
  trivia : ∀ i < n, Trivia (sep i)
  ne_nil : ∀ i, 0 < i → i < n → sep i ≠ []
  last : FinalTrivia (sep n)

/-- Words with a separator before each of them and one after the last. -/
def weave (sep : Nat → List Char) : List String → List Char
  | [] => sep 0
  | word :: words => sep 0 ++ (word.toList ++ weave (fun i => sep (i + 1)) words)

theorem Separates.tail {sep : Nat → List Char} {n : Nat} (h : Separates sep (n + 1)) :
    Separates (fun i => sep (i + 1)) n where
  trivia i hi := h.trivia (i + 1) (by omega)
  ne_nil i _ hi := h.ne_nil (i + 1) (by omega) (by omega)
  last := h.last

/-- Trivia sets apart, and where there is none, what comes next must. -/
theorem Trivia.detached {w cs : List Char} (h : Trivia w) (hcs : w = [] → Detached cs) :
    Detached (w ++ cs) := by
  cases h with
  | nil => exact hcs rfl
  | blank hc => exact .blank hc
  | line => exact .slash
  | block => exact .slash

theorem FinalTrivia.detached {w : List Char} (h : FinalTrivia w) : Detached w := by
  cases h with
  | complete h =>
    rw [← List.append_nil w]
    exact h.detached fun _ => .nil
  | openLine h => exact h.detached fun _ => .slash

/-- After a word comes a separator, so that the text there is detached. -/
theorem Separates.detached {sep : Nat → List Char} {words : List String}
    (h : Separates sep (words.length + 1)) : Detached (weave (fun i => sep (i + 1)) words) := by
  cases words with
  | nil => exact h.last.detached
  | cons word words =>
    exact (h.trivia 1 (by simp)).detached fun hnil =>
      absurd hnil (h.ne_nil 1 (by simp) (by simp))

/-- Words that are scanned in front of trivia are read off the text they are woven into. -/
theorem lexes_weave {ws : List Word}
    (hws : ∀ w ∈ ws, ∀ rest, Detached rest → w.Scans rest) {sep : Nat → List Char}
    (hsep : Separates sep ws.length) : Lexes (weave sep (ws.map (·.lexeme))) ws := by
  induction ws generalizing sep with
  | nil => exact .finalTrivia hsep.last
  | cons w ws ih =>
    obtain ⟨hw, hws⟩ := List.forall_mem_cons.1 hws
    have hdetached : Detached (weave (fun i => sep (i + 1)) (ws.map (·.lexeme))) :=
      Separates.detached (by simpa using hsep)
    exact ((ih hws hsep.tail).word (hw _ hdetached)).trivia (hsep.trivia 0 (by simp))

/-! ## Sources set apart -/

/-- The texts of the tokens, the end of the input left out. -/
def lexemes (ts : List Token) : List String := (ts.filter (·.kind ≠ .eof)).map (·.lexeme)

/-- The error, told of another place. -/
def SyntaxError.SameButPlace (e e' : SyntaxError) : Prop := e' = { e with position := e'.position }

/-- Two readings of a source are the same up to places: equal programs, or syntax errors that differ
in their positions only. -/
def SameReading : Except SourceError Program → Except SourceError Program → Prop
  | .ok p, .ok p' => p = p'
  | .error (.syntactic e), .error (.syntactic e') => e.SameButPlace e'
  | _, _ => False

theorem sameButPlace_errorAt {s s' : Stream}
    (h : s.tokens.toList.map (·.toWord) = s'.tokens.toList.map (·.toWord)) (c : Cursor) (rule : Rule)
    (fault : SyntaxFault) :
    (Parse.errorAt s c rule fault).SameButPlace (Parse.errorAt s' c rule fault) := by
  have hget : (s.tokens[c.pos]?).map (·.toWord) = (s'.tokens[c.pos]?).map (·.toWord) := by
    rw [← Array.getElem?_toList, ← Array.getElem?_toList, ← List.getElem?_map, ← List.getElem?_map, h]
  unfold SyntaxError.SameButPlace Parse.errorAt Stream.kindAt
  cases ht : s.tokens[c.pos]? with
  | some t =>
    cases ht' : s'.tokens[c.pos]? with
    | some t' =>
      rw [ht, ht'] at hget
      have hw : t.toWord = t'.toWord := Option.some.inj hget
      simp [hw]
    | none =>
      rw [ht, ht'] at hget
      exact nomatch hget
  | none =>
    cases ht' : s'.tokens[c.pos]? with
    | some t' =>
      rw [ht, ht'] at hget
      exact nomatch hget
    | none =>
      cases s.tokens.back? <;> cases s'.tokens.back? <;> rfl

/-- The words alone decide how tokens are parsed. -/
theorem parseProgram_of_words {ts ts' : List Token} (h : ts.map (·.toWord) = ts'.map (·.toWord))
    (maxDepth : Nat) :
    (∃ p, parseProgram ts maxDepth = .ok p ∧ parseProgram ts' maxDepth = .ok p) ∨
    ∃ e e', parseProgram ts maxDepth = .error e ∧ parseProgram ts' maxDepth = .error e' ∧
      e.SameButPlace e' := by
  have hterminals : ts.map (·.terminal) = ts'.map (·.terminal) := by
    have := congrArg (List.map Word.terminal) h
    rwa [List.map_map, List.map_map] at this
  have halike : Stream.Alike ⟨ts.toArray, maxDepth⟩ ⟨ts'.toArray, maxDepth⟩ :=
    ⟨hterminals, Nat.le_refl _⟩
  cases Grammar.steady_program halike .start with
  | ok ha hb hv _ =>
    subst hv
    exact .inl ⟨_, ha, hb⟩
  | error ha hb => exact .inr ⟨_, _, ha, hb, sameButPlace_errorAt h _ _ _⟩
  | tooDeep hlt _ _ => exact absurd hlt (Nat.lt_irrefl _)

/-- The words of a source that is read into tokens, set apart in any other way, are read into tokens of
the same kinds, texts and values; and under every nesting limit both sources are parsed as the same
program, or fail with the same syntax error up to its place. -/
theorem parseSource_respaced {source : String} {ts : List Token} (hts : tokenize source = .ok ts)
    {sep : Nat → List Char} (hsep : Separates sep (lexemes ts).length) :
    (∃ ts', tokenize (String.ofList (weave sep (lexemes ts))) = .ok ts' ∧
      ts'.map (·.toWord) = ts.map (·.toWord)) ∧
    ∀ maxDepth, SameReading (parseSource source maxDepth)
      (parseSource (String.ofList (weave sep (lexemes ts))) maxDepth) := by
  obtain ⟨row, q, rfl, hrow⟩ :=
    tokensFrom_forall (P := fun w => w.kind ≠ .eof ∧ ∀ rest, Detached rest → w.Scans rest)
      (fun hs => ⟨(scan_printable hs).kind_ne_eof, fun _ hrest => scans_of_scan hs hrest⟩) hts
  have hlexemes : lexemes (row ++ [Token.eof q]) = (row.map (·.toWord)).map (·.lexeme) := by
    have hfilter : row.filter (fun t => decide (t.kind ≠ .eof)) = row :=
      List.filter_eq_self.2 fun t ht => decide_eq_true (hrow t ht).1
    rw [lexemes, List.filter_append, hfilter, List.map_map]
    simp
  rw [hlexemes] at hsep ⊢
  have hscans : ∀ w ∈ row.map (·.toWord), ∀ rest, Detached rest → w.Scans rest := by
    intro w hw
    obtain ⟨t, ht, rfl⟩ := List.mem_map.1 hw
    exact (hrow t ht).2
  obtain ⟨row', q', htokens, hwords⟩ := lexes_weave hscans (by simpa using hsep) .start
  have htokens : tokenize (String.ofList (weave sep ((row.map (·.toWord)).map (·.lexeme)))) =
      .ok (row' ++ [Token.eof q']) := by
    rw [tokenize, String.toList_ofList, htokens]
  have hsame : (row' ++ [Token.eof q']).map (·.toWord) = (row ++ [Token.eof q]).map (·.toWord) := by
    rw [List.map_append, List.map_append, hwords]
    rfl
  refine ⟨⟨_, htokens, hsame⟩, fun maxDepth => ?_⟩
  rw [parseSource_eq, parseSource_eq, hts, htokens]
  dsimp only
  rcases parseProgram_of_words hsame.symm maxDepth with ⟨p, hp, hp'⟩ | ⟨e, e', he, he', hee⟩
  · rw [hp, hp']
    rfl
  · rw [he, he']
    exact hee

/-! A source without blanks, in which each word is followed by a character that its scanner looks at. -/

/-- Nothing in front, a block comment after each word, and an open line comment after the last. -/
def commentSeparators : Nat → List Char
  | 0 => []
  | 6 => "/*/*/ // end".toList
  | _ => "/*/*/".toList

theorem separates_commentSeparators : Separates commentSeparators 6 where
  trivia
    | 0, _ => .nil
    | 1, _ | 2, _ | 3, _ | 4, _ | 5, _ => @Trivia.block ['/'] [] (by decide) .nil
  ne_nil
    | 1, _, _ | 2, _, _ | 3, _, _ | 4, _, _ | 5, _, _ => by decide
  last := @FinalTrivia.openLine "/*/*/ ".toList " end".toList
    (@Trivia.block ['/'] [' '] (by decide) (.blank rfl .nil)) (by decide)

theorem parseSource_respaced_tight :
    ∃ ts, tokenize "*a-b=1.c" = .ok ts ∧
      lexemes ts = ["*", "a-b", "=", "1", ".", "c"] ∧
      SameReading (parseSource "*a-b=1.c" 9)
        (parseSource "*/*/*/a-b/*/*/=/*/*/1/*/*/./*/*/c/*/*/ // end" 9) := by
  obtain ⟨ts, hts, hwords⟩ : ∃ ts, tokenize "*a-b=1.c" = .ok ts ∧
      lexemes ts = ["*", "a-b", "=", "1", ".", "c"] := by
    have hmap : (tokenize "*a-b=1.c").map lexemes = .ok ["*", "a-b", "=", "1", ".", "c"] := by
      decide +kernel
    cases hts : tokenize "*a-b=1.c" with
    | error e => rw [hts] at hmap; exact nomatch hmap
    | ok ts => rw [hts] at hmap; exact ⟨ts, rfl, Except.ok.inj hmap⟩
  refine ⟨ts, hts, hwords, ?_⟩
  have hsep : Separates commentSeparators (lexemes ts).length := by
    rw [hwords]
    exact separates_commentSeparators
  have h := (parseSource_respaced hts hsep).2 9
  rw [hwords] at h
  exact h

end TermLang
