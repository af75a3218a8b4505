import TermLang.Proofs.Respaced

/-!
# Both layouts say the same

Any program at all, parsed or put together by hand, is printed in both layouts as texts that are read
into the same words, if its names are names and its strings do not close with a backslash. These are
the words of its yield, so that the yield is found again among the tokens. What the parser makes of
the two texts is then the same, be it a program or an error.
-/

namespace TermLang

/-- A word with a spelled terminal has the terminal it is printed for. -/
theorem Word.terminal_of_spelled {w : Word} {y : Terminal} (hw : w = y.word)
    (h : w.terminal.Spelled) : w.terminal = y := by
  subst hw
  cases y with
  | name text => exact terminal_ident_word text
  | value l => exact terminal_word_value l
  | mark k =>
    by_cases hk : k = .ident
    · -- the kind of names has no spelling, and the empty text is no name
      subst hk
      obtain ⟨c, cs, htext, -⟩ := h.start
      exact nomatch htext
    · cases k <;> first | rfl | exact absurd rfl hk

/-- Two texts that are read into the same words are read in the same way. -/
theorem Lexes.sameReading {source source' : String} {ws : List Word} (h : Lexes source.toList ws)
    (h' : Lexes source'.toList ws) :
    ∃ ts ts', tokenize source = .ok ts ∧ tokenize source' = .ok ts' ∧
      ts.map (·.toWord) = ws ++ [.ofKind .eof] ∧ ts'.map (·.toWord) = ws ++ [.ofKind .eof] ∧
      ∀ maxDepth, SameReading (parseSource source maxDepth) (parseSource source' maxDepth) := by
  obtain ⟨row, q, hts, hrow⟩ := h .start
  obtain ⟨row', q', hts', hrow'⟩ := h' .start
  have hwords : (row ++ [Token.eof q]).map (·.toWord) = ws ++ [.ofKind .eof] := by
    rw [List.map_append, hrow]
    rfl
  have hwords' : (row' ++ [Token.eof q']).map (·.toWord) = ws ++ [.ofKind .eof] := by
    rw [List.map_append, hrow']
    rfl
  have hts : tokenize source = .ok (row ++ [Token.eof q]) := hts
  have hts' : tokenize source' = .ok (row' ++ [Token.eof q']) := hts'
  refine ⟨_, _, hts, hts', hwords, hwords', fun maxDepth => ?_⟩
  rw [parseSource_eq, parseSource_eq, hts, hts']
  dsimp only
  rcases parseProgram_of_words (hwords.trans hwords'.symm) maxDepth with
    ⟨p, hp, hp'⟩ | ⟨e, e', he, he', hee⟩
  · rw [hp, hp']
    rfl
  · rw [he, he']
    exact hee

/-- Words with spelled terminals have the terminals they are printed for. -/
theorem map_terminal_of_spelled {ws : List Word} {ys : List Terminal}
    (hws : ws = ys.map Terminal.word) (h : ∀ w ∈ ws, w.terminal.Spelled) :
    ws.map Word.terminal = ys := by
  subst hws
  rw [List.map_map]
  conv => rhs; rw [← List.map_id ys]
  exact List.map_congr_left fun y hy =>
    Word.terminal_of_spelled rfl (h y.word (List.mem_map_of_mem hy))

/-- A text that is read into the words printed for some terminals is read into tokens with these
terminals. -/
theorem terminals_of_tokenize {source : String} {ys : List Terminal} {ts : List Token}
    (hts : tokenize source = .ok ts)
    (hwords : ts.map (·.toWord) = ys.map Terminal.word ++ [.ofKind .eof]) :
    ts.map (·.terminal) = ys ++ [.mark .eof] := by
  obtain ⟨row, q, rfl, hrow⟩ := tokensFrom_printable hts
  rw [List.map_append] at hwords
  have hterminals : (row.map (·.toWord)).map Word.terminal = ys :=
    map_terminal_of_spelled (List.append_inj_left' hwords rfl)
      (List.forall_mem_map.2 fun t ht => (hrow t ht).spelled)
  rw [List.map_append, ← hterminals, List.map_map]
  rfl

/-- The compact text of a program and its pretty text at any width are read into tokens of the same
kinds, texts and values, whose terminals are the yield of the program and the end of the input; under
every nesting limit both are parsed as the same program, or fail with the same syntax error up to its
place. -/
theorem Program.layouts_agree (p : Program) (h : AllSpelled p.yield) (width : Nat) :
    (∃ ts ts', tokenize p.compact = .ok ts ∧ tokenize (p.pretty width) = .ok ts' ∧
      ts.map (·.toWord) = ts'.map (·.toWord) ∧
      ts.map (·.terminal) = p.yield ++ [.mark .eof] ∧
      ts'.map (·.terminal) = p.yield ++ [.mark .eof]) ∧
    ∀ maxDepth, SameReading (parseSource p.compact maxDepth)
      (parseSource (p.pretty width) maxDepth) := by
  obtain ⟨ts, ts', hts, hts', hwords, hwords', hsame⟩ :=
    (p.lexes_compact h).sameReading (p.lexes_pretty h width)
  exact ⟨⟨ts, ts', hts, hts', hwords.trans hwords'.symm, terminals_of_tokenize hts hwords,
    terminals_of_tokenize hts' hwords'⟩, hsame⟩

/-! A term that no source is parsed as: a selection from a binding, with marks, a negative number and a
line end in a string next to each other. -/

/-- A selection from a binding in a block, whose value is a spread of a spread. -/
def gnarledProgram : Program :=
  ⟨[.block [.select (.binding (.init "a" none (.spread .tuple (.spread .dict
      (.apply .positional (.literal (.int (-1))) [.positional (.literal (.string "\"\n "))])))))
      "b"]]⟩

theorem layouts_agree_gnarled :
    AllSpelled gnarledProgram.yield ∧
    gnarledProgram.compact = "block \x7b let a = * ** -1(\"\\\"\n \").b \x7d" ∧
    gnarledProgram.pretty 2 = "block \x7b\n  let a = * ** -1(\"\\\"\n \").b\n\x7d\n" ∧
    SameReading (parseSource gnarledProgram.compact 9) (parseSource (gnarledProgram.pretty 2) 9) := by
  have hname : ∀ c : Char, isIdentStart c = true → classify (String.ofList [c]) = (.ident, none) →
      Word.IsName (String.ofList [c]) := fun c hc hclass =>
    ⟨⟨c, [], String.toList_ofList, hc, List.forall_mem_nil _⟩, hclass⟩
  have hspelled : AllSpelled gnarledProgram.yield := by
    have ha : Word.IsName "a" := hname 'a' (by decide) (by decide)
    have hb : Word.IsName "b" := hname 'b' (by decide) (by decide)
    simp [gnarledProgram, Program.yield, termsYield, Term.yield, Binding.yield, argsYield, Arg.yield,
      annoYield, Terminal.Spelled, ha, hb]
  exact ⟨hspelled, rfl, rfl, (gnarledProgram.layouts_agree hspelled 2).2 9⟩

end TermLang
