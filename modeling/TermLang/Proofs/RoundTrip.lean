import TermLang.Command.Run
import TermLang.Proofs.JsonText
import TermLang.Proofs.Lossless
import TermLang.Proofs.PrintedTerms
import TermLang.Proofs.Scanned
import TermLang.Proofs.Steady

/-!
# Printing and parsing

A program that was parsed is parsed again from both of its printed texts. The printed text is read
into the words of the yield, and so into tokens with the terminals that the source had; the parser
tells such tokens apart only where it reports errors.
-/

namespace TermLang

/-- Tokens with the same terminals are parsed as the same program. -/
theorem parseProgram_congr {ts ts' : List Token} {maxDepth : Nat} {p : Program}
    (h : ts.map (·.terminal) = ts'.map (·.terminal)) (hp : parseProgram ts maxDepth = .ok p) :
    parseProgram ts' maxDepth = .ok p := by
  have halike : Stream.Alike ⟨ts.toArray, maxDepth⟩ ⟨ts'.toArray, maxDepth⟩ := ⟨h, Nat.le_refl _⟩
  cases Grammar.steady_program halike .start with
  | ok ha hb hv _ =>
    subst hv
    exact hb.trans (ha.symm.trans hp)
  | error ha _ => exact nomatch ha.symm.trans hp
  | tooDeep hlt _ _ => exact absurd hlt (Nat.lt_irrefl _)

/-- A source is parsed if it is read into tokens and these are. -/
theorem parseSource_eq_ok_iff {source : String} {maxDepth : Nat} {p : Program} :
    parseSource source maxDepth = .ok p ↔
      ∃ ts, tokenize source = .ok ts ∧ parseProgram ts maxDepth = .ok p := by
  rw [parseSource_eq]
  constructor
  · intro h
    split at h
    · exact nomatch h
    · rename_i ts hts
      split at h
      · exact nomatch h
      · rename_i q hq
        obtain rfl := Except.ok.inj h
        exact ⟨ts, hts, hq⟩
  · rintro ⟨ts, hts, hp⟩
    simp only [hts, hp]

/-- The tokens of a source that is parsed are the yield and the end of the input, and what is printed
for the yield has the same terminals. -/
theorem tokens_of_parse {source : String} {ts : List Token} {maxDepth : Nat} {p : Program}
    (hts : tokenize source = .ok ts) (hp : parseProgram ts maxDepth = .ok p) :
    ts.map (·.terminal) = p.yield ++ [.mark .eof] ∧ AllSpelled p.yield ∧
      (p.yield.map Terminal.word).map Word.terminal = p.yield := by
  obtain ⟨row, q, rfl, hrow⟩ := tokensFrom_printable hts
  have hyield : row.map (·.terminal) = p.yield := by
    have hne : ∀ t ∈ row, decide (t.kind ≠ .eof) = true := fun t ht =>
      decide_eq_true (hrow t ht).kind_ne_eof
    have h := (yield_of_parseProgram hp).1
    rwa [List.takeWhile_append_of_pos hne, List.takeWhile_cons_of_neg (by simp),
      List.append_nil] at h
  have hterminals : ∀ y ∈ p.yield, ∃ t ∈ row, t.terminal = y := by
    rw [← hyield]
    exact fun y hy => List.mem_map.1 hy
  refine ⟨?_, ?_, ?_⟩
  · rw [List.map_append, hyield]
    rfl
  · intro y hy
    obtain ⟨t, ht, rfl⟩ := hterminals y hy
    exact (hrow t ht).spelled
  · rw [List.map_map]
    conv => rhs; rw [← List.map_id p.yield]
    refine List.map_congr_left fun y hy => ?_
    obtain ⟨t, ht, rfl⟩ := hterminals y hy
    exact (hrow t ht).terminal_word

/-- Any text that is read into the words of the yield is parsed as the program. -/
theorem parseSource_of_lexes {source text : String} {maxDepth : Nat} {p : Program}
    (h : parseSource source maxDepth = .ok p)
    (htext : AllSpelled p.yield → Lexes text.toList (p.yield.map Terminal.word)) :
    parseSource text maxDepth = .ok p := by
  obtain ⟨ts, hts, hp⟩ := parseSource_eq_ok_iff.1 h
  obtain ⟨hyield, hspelled, hwords⟩ := tokens_of_parse hts hp
  obtain ⟨row, q, htokens, hrow⟩ := htext hspelled .start
  refine parseSource_eq_ok_iff.2 ⟨row ++ [Token.eof q], htokens, parseProgram_congr ?_ hp⟩
  have hterminals : row.map (·.terminal) = p.yield := by
    rw [← hwords, ← hrow, List.map_map]
    rfl
  rw [hyield, List.map_append, hterminals]
  rfl

/-! ## The command that prints -/

namespace Command

variable {file : SourceFile} {s : Settings} {p : Program}

theorem layOut_of_parse (h : parseSource file.content s.maxDepth = .ok p) (level : LogLevel) :
    (layOut file false s level).exitCode = 0 ∧ (layOut file false s level).output = p.pretty s.indent := by
  have h : (readProgram file.content s.maxDepth).result = .ok p := h
  simp only [layOut, finish, h, Outcome.exitCode_after, Outcome.output_after]
  exact ⟨rfl, rfl⟩

/-- Only the file that already is what would be printed is accepted as formatted. -/
theorem layOut_check_iff_of_parse (h : parseSource file.content s.maxDepth = .ok p)
    (level : LogLevel) :
    (layOut file true s level).exitCode = 0 ↔ file.content = p.pretty s.indent := by
  have h : (readProgram file.content s.maxDepth).result = .ok p := h
  simp only [layOut, finish, h, Outcome.exitCode_after]
  by_cases htext : p.pretty s.indent = file.content
  · simp [htext, Outcome.success]
  · simp [htext, Ne.symm htext, Outcome.failure]

/-- Only files that are parsed are printed. -/
theorem parse_of_layOut {level : LogLevel} (h : (layOut file false s level).exitCode = 0) :
    ∃ p, parseSource file.content s.maxDepth = .ok p := by
  cases hp : parseSource file.content s.maxDepth with
  | ok p => exact ⟨p, rfl⟩
  | error e =>
    have hp : (readProgram file.content s.maxDepth).result = .error e := hp
    simp only [layOut, finish, hp, Outcome.exitCode_after] at h
    exact nomatch h

end Command

/-- A program that was parsed is parsed from its compact text and from its pretty text at every width,
under the same nesting limit. The formatting command prints the pretty text of the program in a file, and
accepts a file as formatted only if that text is what it holds. So what it prints for a file, it prints
for that text again, and accepts as formatted. -/
theorem parseSource_printed :
    (∀ (source : String) (maxDepth : Nat) (p : Program), parseSource source maxDepth = .ok p →
      parseSource p.compact maxDepth = .ok p ∧
      ∀ width, parseSource (p.pretty width) maxDepth = .ok p) ∧
    (∀ (file : SourceFile) (s : Settings) (level : LogLevel) (p : Program),
      parseSource file.content s.maxDepth = .ok p →
      (Command.layOut file false s level).exitCode = 0 ∧
      (Command.layOut file false s level).output = p.pretty s.indent ∧
      ((Command.layOut file true s level).exitCode = 0 ↔ file.content = p.pretty s.indent)) ∧
    (∀ (file : SourceFile) (s : Settings) (level : LogLevel),
      (Command.layOut file false s level).exitCode = 0 →
      (∃ p, parseSource file.content s.maxDepth = .ok p ∧
        (Command.layOut file false s level).output = p.pretty s.indent) ∧
      ∀ (name : String) (level' : LogLevel),
        let printed : SourceFile := ⟨name, (Command.layOut file false s level).output⟩
        (Command.layOut printed false s level').exitCode = 0 ∧
        (Command.layOut printed false s level').output = printed.content ∧
        (Command.layOut printed true s level').exitCode = 0) := by
  have hpretty : ∀ (source : String) (maxDepth : Nat) (p : Program),
      parseSource source maxDepth = .ok p →
      ∀ width, parseSource (p.pretty width) maxDepth = .ok p := fun _ _ p h width =>
    parseSource_of_lexes h fun hspelled => p.lexes_pretty hspelled width
  refine ⟨fun source maxDepth p h => ?_, fun file s level p hp => ?_, fun file s level hcode => ?_⟩
  · exact ⟨parseSource_of_lexes h fun hspelled => p.lexes_compact hspelled,
      hpretty source maxDepth p h⟩
  · obtain ⟨hcode, houtput⟩ := Command.layOut_of_parse hp level
    exact ⟨hcode, houtput, Command.layOut_check_iff_of_parse hp level⟩
  · obtain ⟨p, hp⟩ := Command.parse_of_layOut hcode
    have hcontent := (Command.layOut_of_parse hp level).2
    refine ⟨⟨p, hp, hcontent⟩, ?_⟩
    intro name level' printed
    have hprinted : parseSource printed.content s.maxDepth = .ok p := by
      rw [show printed.content = p.pretty s.indent from hcontent]
      exact hpretty _ _ p hp s.indent
    obtain ⟨hcode', houtput⟩ := Command.layOut_of_parse hprinted level'
    exact ⟨hcode', houtput.trans hcontent.symm,
      (Command.layOut_check_iff_of_parse hprinted level').2 hcontent⟩

/-! Two marks that a comment keeps apart, a string with an escaped quote, and a list without spaces
after its items. -/

/-- `*/**/*f{a: **T = "\"" b}` -/
def crampedSource : String := "*/**/*f\x7ba: **T = \"\\\"\" b\x7d"

/-- The program in `crampedSource`. -/
def crampedProgram : Program :=
  ⟨[.spread .tuple (.spread .tuple (.applyNamed (.ident "f")
    [.given "a" (some (.mk (some .dict) (.ident "T"))) (.literal (.string "\"")), .shorthand "b"]))]⟩

theorem parseSource_crampedSource :
    parseSource crampedSource Settings.default.maxDepth = .ok crampedProgram := by decide +kernel

theorem parseSource_printed_cramped :
    parseSource crampedSource 5 = .ok crampedProgram ∧
    parseSource crampedProgram.compact 5 = .ok crampedProgram ∧
    parseSource (crampedProgram.pretty 2) 5 = .ok crampedProgram ∧
    (Command.layOut ⟨"a", crampedSource⟩ false .default .warn).exitCode = 0 ∧
    (Command.layOut ⟨"a", crampedSource⟩ false .default .warn).output = crampedProgram.pretty 4 ∧
    (Command.layOut ⟨"a", crampedSource⟩ true .default .warn).exitCode ≠ 0 ∧
    (Command.layOut ⟨"b", (Command.layOut ⟨"a", crampedSource⟩ false .default .warn).output⟩ true
      .default .warn).exitCode = 0 := by
  have h : parseSource crampedSource 5 = .ok crampedProgram := by decide +kernel
  have hparsed := parseSource_printed.1 _ _ _ h
  have hfile : parseSource (SourceFile.mk "a" crampedSource).content Settings.default.maxDepth =
      .ok crampedProgram := parseSource_crampedSource
  obtain ⟨hcode, houtput, hcheck⟩ := parseSource_printed.2.1 _ _ .warn _ hfile
  have hprinted := (parseSource_printed.2.2 _ _ _ hcode).2 "b" .warn
  have hcramped : crampedSource ≠ crampedProgram.pretty Settings.default.indent := by decide
  exact ⟨h, hparsed.1, hparsed.2 2, hcode, houtput, fun hzero => hcramped (hcheck.1 hzero),
    hprinted.2.2⟩

end TermLang
