import TermLang.Proofs.Detached
import TermLang.Proofs.ErrorPlaces
import TermLang.Proofs.Lines
import TermLang.Report.Emitter

/-!
# Marks under an error

A report shows the line in which an error stands and, below it, a row of marks. The row is as far from the
left as the first character that the error is about, counted from the beginning of the line, and it has a
mark for each character of an error on one line, or for each that is left of the line shown. In front of
the line its number is printed, in front of the marks always seven characters: so the marks stand under
what they are meant for only as long as the number has no more than four digits.
-/

namespace TermLang

/-! ## What errors begin with -/

/-- Behind trivia stands no blank. -/
theorem skipTrivia_head {mode : TriviaMode} {p q : Position} {cs rest : List Char} {c : Char}
    (h : skipTrivia mode p cs = .ok (q, c :: rest)) : isBlank c = false := by
  fun_induction skipTrivia mode p cs with
  | case1 | case6 => cases h
  | case5 _ _ _ _ _ hc =>
    obtain rfl := (List.cons_eq_cons.1 (Prod.mk.inj (Except.ok.inj h)).2).1
    exact Bool.eq_false_iff.2 hc
  | case8 => cases h
  | case2 _ _ ih | case3 _ _ ih | case9 _ _ _ ih => exact ih h
  | case4 _ _ _ _ _ _ ih | case7 _ _ _ ih | case10 _ _ _ _ _ ih => exact ih h

theorem tokensFrom_error_head {p : Position} {cs rest : List Char} {e : LexError} {c : Char}
    (h : tokensFrom p cs = .error e) (hfound : e.found.toList = c :: rest) : isBlank c = false := by
  fun_induction tokensFrom p cs with
  | case1 p cs e' hskip =>
    obtain rfl := Except.error.inj h
    rw [(skipTrivia_error hskip).1] at hfound
    obtain rfl := (List.cons_eq_cons.1 hfound).1
    rfl
  | case2 => cases h
  | case3 p cs q d tail hskip fault hscan =>
    obtain rfl := Except.error.inj h
    have hbegins := scan_error hscan
    rw [ScanFault.error, String.toList_ofList] at hfound
    rw [hfound, List.cons_prefix_cons] at hbegins
    rw [hbegins.1]
    exact skipTrivia_head hskip
  | case4 p cs q d tail hskip s hscan _ ih =>
    cases hrest : tokensFrom (q.advance s.lexeme) s.rest with
    | ok us =>
      rw [hrest] at h
      cases h
    | error e' =>
      rw [hrest] at h
      obtain rfl := Except.error.inj h
      exact ih hrest

theorem tokensFrom_head {p : Position} {cs rest : List Char} {ts : List Token} {t : Token} {c : Char}
    (h : tokensFrom p cs = .ok ts) (ht : t ∈ ts) (htext : t.lexeme.toList = c :: rest) :
    isBlank c = false := by
  obtain ⟨row, q, rfl, hrow⟩ :=
    tokensFrom_forall (P := fun w => w.Scans []) (fun hs => scans_of_scan hs .nil) h
  rcases List.mem_append.1 ht with hmem | hmem
  · obtain ⟨d, tail, hlexeme, -, hblank, -⟩ := hrow t hmem
    rw [List.append_nil] at hlexeme
    obtain rfl := (List.cons_eq_cons.1 (hlexeme.symm.trans htext)).1
    exact hblank
  · obtain rfl := List.mem_singleton.1 hmem
    exact nomatch htext

/-- The text of an error does not begin with a blank. -/
theorem sourceError_head {source : String} {maxDepth : Nat} {e : SourceError} {c : Char}
    {rest : List Char} (h : parseSource source maxDepth = .error e) (htext : e.text.toList = c :: rest) :
    isBlank c = false := by
  obtain ⟨e', rfl, hlex⟩ | ⟨ts, e', rfl, hts, hparse⟩ := sourceError_cases h
  · exact tokensFrom_error_head hlex htext
  · obtain ⟨t, ht, -, hlexeme, -⟩ := exists_token_of_syntaxError hts hparse
    have htext : e'.lexeme.toList = c :: rest := htext
    rw [hlexeme] at htext
    exact tokensFrom_head hts ht htext

/-! ## The report of an error -/

/-- The span of a text goes from where it stands to where reading it leads. -/
theorem Stands.spanOf {file : SourceFile} {part : List Char} {q : Position}
    (h : Stands .start file.chars part q) :
    file.spanOf q.offset (q.offset + Text.byteSize part) = ⟨q, q.advance part⟩ := by
  have hstart := (h.in_file).2.1
  obtain ⟨front, rest, htext, rfl⟩ := h
  have hoffset : (Position.start.advance front).offset + Text.byteSize part =
      Text.byteSize (front ++ part) := by
    rw [Position.offset_advance, Text.byteSize_append]
    exact congrArg (· + _) (Nat.zero_add _)
  rw [← List.append_assoc] at htext
  rw [SourceFile.spanOf, ← hstart, hoffset, SourceFile.positionAt_byteSize htext,
    Position.advance_append]

namespace Emitter

/-- What is printed in front of a row of marks. -/
def margin : String := "     | "

/-- The characters in front of the text at a position, in the printed line. -/
def textColumn (m : Emitter) (p : Position) : Nat := (m.gutter p.line).length + (p.column - 1)

/-- The characters in front of the marks for a position, in their row. -/
def markColumn (p : Position) : Nat := margin.length + (p.column - 1)

/-- The number of a line takes as much room as the margin if it has no more than four digits. -/
theorem textColumn_eq_markColumn_iff (m : Emitter) (p : Position) :
    m.textColumn p = markColumn p ↔ m.showLineNumbers = false ∨ p.line < 10000 := by
  have hmargin : margin.length = 7 := rfl
  have hdigits : (toString p.line).length ≤ 4 ↔ p.line < 10000 := by
    show (String.ofList (Nat.toDigits 10 p.line)).length ≤ 4 ↔ _
    rw [String.length_ofList]
    exact Nat.length_toDigits_le_iff (by decide) (by decide)
  rw [textColumn, markColumn, Nat.add_right_cancel_iff, hmargin, ← hdigits, gutter]
  split
  · rename_i hnumbers
    have hspaces : ("".pushn ' ' (4 - (toString p.line).length)).length = 4 - (toString p.line).length := by
      simp
    have hbar : " | ".length = 3 := rfl
    simp only [String.length_append, hspaces, hbar, hnumbers, Bool.true_eq_false, false_or]
    omega
  · rename_i hnumbers
    exact ⟨fun _ => .inl (Bool.eq_false_iff.2 hnumbers), fun _ => rfl⟩

/-- The lines shown of a span begin with the one that it begins in, and the marks under it. -/
theorem snippet_eq {m : Emitter} {file : SourceFile} {p : Position} {line : String} (q : Position)
    (hlines : 0 < m.maxLines) (hline : file.lineText? p.line = some line) :
    ∃ further, m.snippet file ⟨p, q⟩ = m.gutter p.line ++ line ++ "\n" ++
      m.markLine ⟨p, q⟩ (max q.line p.line) line ++ further := by
  unfold snippet
  dsimp only
  obtain ⟨count, hcount⟩ : ∃ count, min (max q.line p.line - p.line + 1) m.maxLines = count + 1 :=
    ⟨_, (Nat.sub_add_cancel (by omega)).symm⟩
  rw [hcount, hline]
  exact ⟨_, rfl⟩

/-- A text that is read without a line feed has a mark for each character, another one has marks up to
the end of the line that it begins in. -/
theorem markCount_advance {p : Position} {text : List Char} {line : String} {lead : Nat}
    (hcolumn : p.column = lead + 1) (hlead : lead < counterValues) :
    markCount ⟨p, p.advance text⟩ (max (p.advance text).line p.line) line =
      max (if '\n' ∈ text then line.length - lead else text.length) 1 := by
  have hstop := Position.line_advance p text
  unfold markCount
  dsimp only
  by_cases h : '\n' ∈ text
  · have hcount := List.count_pos_iff.2 h
    rw [if_neg (by omega), if_pos h, hcolumn, counterBefore_succ hlead]
  · rw [List.count_eq_zero.2 h] at hstop
    rw [if_pos (by omega), if_neg h, Position.column_advance p h, Nat.add_sub_cancel_left]

theorem render_ofSourceError (m : Emitter) (file : SourceFile) (e : SourceError) {span : Span}
    (hsource : m.showSource = true) (hspan : (Diagnostic.ofSourceError file e).span = some span)
    (hline : span.start.line ≠ 0) :
    ∃ help, m.render (some file) (.ofSourceError file e) = m.header (.ofSourceError file e) ++
      location (some file) span ++ m.snippet file span ++ help := by
  generalize hd : Diagnostic.ofSourceError file e = d at hspan ⊢
  have hrelated : d.related = [] := by
    rw [← hd]
    cases e <;> rfl
  obtain ⟨severity, code, message, help, span', related⟩ := d
  obtain rfl : span' = some span := hspan
  obtain rfl : related = [] := hrelated
  have hplace : (Diagnostic.mk severity code message help (some span) []).place? = some span := by
    simp [Diagnostic.place?, Diagnostic.span, Span.isNowhere, hline]
  refine ⟨if m.showHelp && !help.isEmpty then s!"help: {help}\n" else "", ?_⟩
  simp only [render, renderAll, ite_self, String.append_empty, alone, hplace, hsource, if_true,
    Diagnostic.help, String.append_assoc]

/-- In the printed line the character behind so many others of its line stands at its text column. -/
theorem textColumn_shows (m : Emitter) {p : Position} {lead tail : List Char} {c : Char}
    (hcolumn : p.column = lead.length + 1) (hc : isBlank c = false) :
    (m.gutter p.line ++ String.ofList (SourceFile.trimLineEnds (lead ++ c :: tail))).toList[m.textColumn p]? =
      some c := by
  have hend : SourceFile.isLineEnd c = false := by
    simp only [isBlank, Bool.or_eq_false_iff, decide_eq_false_iff_not] at hc
    simp [SourceFile.isLineEnd, hc]
  rw [SourceFile.trimLineEnds_append hend, String.toList_append, String.toList_ofList, textColumn, hcolumn,
    Nat.add_sub_cancel, ← String.length_toList, List.getElem?_append_right (Nat.le_add_right _ _),
    Nat.add_sub_cancel_left]
  simp

end Emitter

/-- No line is longer than its text. -/
theorem IsLine.length_le_byteSize {cs before line after : List Char} (h : IsLine cs before line after) :
    line.length ≤ Text.byteSize cs := by
  have hle := Text.length_le_byteSize line
  rw [h.text, Text.byteSize_append, Text.byteSize_append]
  omega

/-- The report of an error shows the line of the source in which the error stands, without the line ends it
closes with, right after the place; the text of the error begins in it where its column says. In the row
below, as many marks as that text has characters if it stays on one line, else as many as the shown line
has from there on, and always one at least, follow the margin and as many spaces as there are characters
in front of the text. They begin under the first character of the text if and only if no line numbers are
shown or that of the line has four digits at most. -/
theorem render_marks (file : SourceFile) (maxDepth : Nat) (e : SourceError) (m : Emitter)
    (h : parseSource file.content maxDepth = .error e) (hsource : m.showSource = true)
    (hlines : 0 < m.maxLines) (hsize : file.size < Emitter.counterValues) :
    ∃ before lead tail after further,
      IsLine file.chars before (lead ++ tail) after ∧
      e.position.line = before.count '\n' + 1 ∧ e.position.column = lead.length + 1 ∧
      let number := e.position.line
      let shown := SourceFile.trimLineEnds (lead ++ tail)
      let printed := m.gutter number ++ String.ofList shown
      let marks := max (if '\n' ∈ e.text.toList then shown.length - lead.length else e.text.length) 1
      let row := Emitter.margin ++ "".pushn ' ' lead.length ++ "".pushn m.indicator marks
      m.render (some file) (.ofSourceError file e) = m.header (.ofSourceError file e) ++
        s!" --> {file.name}:{number}:{lead.length + 1}\n" ++ (printed ++ "\n" ++ row ++ "\n") ++ further ∧
      (∀ c cs, e.text.toList = c :: cs → printed.toList[m.textColumn e.position]? = some c) ∧
      (m.textColumn e.position = Emitter.markColumn e.position ↔
        m.showLineNumbers = false ∨ number < 10000) := by
  have hstands : Stands .start file.chars e.text.toList e.position := (sourceError_stands h).1
  obtain ⟨before, lead, tail, after, rest, hline, htext, hnumber, hcolumn⟩ := hstands.in_line
  have hspan : (Diagnostic.ofSourceError file e).span =
      some ⟨e.position, e.position.advance e.text.toList⟩ := by
    rw [span_ofSourceError]
    exact congrArg some hstands.spanOf
  have hshown : file.lineText? e.position.line =
      some (String.ofList (SourceFile.trimLineEnds (lead ++ tail))) := by
    rw [hnumber]
    exact hline.lineText?
  have hlead : lead.length < Emitter.counterValues := by
    have hle := hline.length_le_byteSize
    have hbytes : file.size = Text.byteSize file.chars := rfl
    rw [List.length_append] at hle
    omega
  obtain ⟨help, hrender⟩ := Emitter.render_ofSourceError m file e hsource hspan (by
    show e.position.line ≠ 0
    omega)
  obtain ⟨further, hsnippet⟩ :=
    Emitter.snippet_eq (e.position.advance e.text.toList) hlines hshown
  refine ⟨before, lead, tail, after, further ++ help, hline, hnumber, hcolumn, ?_, ?_,
    m.textColumn_eq_markColumn_iff e.position⟩
  · rw [hrender, hsnippet, Emitter.location, Emitter.markLine,
      Emitter.markCount_advance hcolumn hlead]
    simp only [Option.map_some, Option.getD_some, hcolumn, Nat.add_sub_cancel, String.length_ofList,
      String.length_toList, Emitter.margin, String.append_assoc]
  · intro c cs hc
    have hblank := sourceError_head h hc
    obtain ⟨tail', rfl⟩ : ∃ tail', tail = c :: tail' := by
      rw [hc] at htext
      cases tail with
      | nil =>
        obtain rfl : c = '\n' := hline.closes c (by rw [List.nil_append] at htext; rw [htext]; rfl)
        exact nomatch hblank
      | cons d tail' => exact ⟨tail', by rw [(List.cons_eq_cons.1 htext).1]⟩
    exact m.textColumn_shows hcolumn hblank

/-- A string over two lines is marked up to the end of the first. -/
example :
    let file : SourceFile := ⟨"main.shll", "f(\nlet \"x\ny\""⟩
    let e : SyntaxError := ⟨.unexpected (.ofList [.ident]), .letRule, ⟨2, 5, 7⟩, .string, "\"x\ny\""⟩
    parseSource file.content 256 = .error (.syntactic e) ∧
      Emitter.snippet .default file (file.spanOf 7 12) =
        "   2 | let \"x\n     |     ^^\n   3 | y\"\n" := by
  constructor <;> decide +kernel

/-! A character that begins no token, behind so many empty lines. -/

/-- The sign `@` on a line of its own, with empty lines in front. -/
def lateFile (n : Nat) : SourceFile := ⟨"main.shll", String.ofList (List.replicate n '\n' ++ ['@'])⟩

/-- No token begins with `@`. -/
def lateError (n : Nat) : SourceError := .lexical ⟨.unexpectedChar, ⟨n + 1, 1, n⟩, "@"⟩

theorem tokensFrom_lineFeeds (n : Nat) (p : Position) (cs : List Char) :
    tokensFrom p (List.replicate n '\n' ++ cs) = tokensFrom (p.advance (List.replicate n '\n')) cs := by
  induction n generalizing p with
  | zero => rfl
  | succ n ih =>
    have hblank : isBlank '\n' = true := rfl
    rw [List.replicate_succ, List.cons_append, Position.advance_cons, ← ih, tokensFrom_eq,
      skipTrivia_cons (by decide), if_pos hblank, ← tokensFrom_eq]

theorem advance_lineFeeds (n : Nat) :
    Position.start.advance (List.replicate n '\n') = ⟨n + 1, 1, n⟩ := by
  induction n with
  | zero => rfl
  | succ n ih =>
    rw [List.replicate_succ', Position.advance_append, ih]
    rfl

theorem parseSource_lateFile (n maxDepth : Nat) :
    parseSource (lateFile n).content maxDepth = .error (lateError n) := by
  have h : tokenize (lateFile n).content = .error ⟨.unexpectedChar, ⟨n + 1, 1, n⟩, "@"⟩ := by
    rw [tokenize, lateFile, String.toList_ofList, tokensFrom_lineFeeds, advance_lineFeeds, tokensFrom_eq]
    rfl
  rw [parseSource_eq, h]
  rfl

/-- The ten-thousandth line is the first whose number is longer than the margin. -/
theorem render_marks_late :
    parseSource (lateFile 9999).content 256 = .error (lateError 9999) ∧
      (lateFile 9999).size < Emitter.counterValues ∧
      Emitter.default.textColumn (lateError 9999).position ≠ Emitter.markColumn (lateError 9999).position ∧
      Emitter.default.textColumn (lateError 9998).position =
        Emitter.markColumn (lateError 9998).position := by
  have hsize : ∀ n, (lateFile n).size = n + 1 := by
    intro n
    have hfeeds : Text.byteSize (List.replicate n '\n') = n := by
      induction n with
      | zero => rfl
      | succ n ih =>
        rw [List.replicate_succ, Text.byteSize_cons, ih]
        exact Nat.add_comm _ _
    rw [SourceFile.size, SourceFile.chars, lateFile, String.toList_ofList, Text.byteSize_append, hfeeds]
    rfl
  have hpoints : ∀ n, n < 10000 → (Emitter.default.textColumn (lateError n).position =
      Emitter.markColumn (lateError n).position ↔ n + 1 < 10000) := by
    intro n hn
    have hvalues : 10000 < Emitter.counterValues := by decide
    obtain ⟨-, -, -, -, -, -, -, -, -, -, hpoints⟩ := render_marks (lateFile n) 256 (lateError n) .default
      (parseSource_lateFile n 256) rfl (by decide) (by rw [hsize]; omega)
    exact hpoints.trans (or_iff_right (by decide))
  refine ⟨parseSource_lateFile 9999 256, ?_, ?_, ?_⟩
  · rw [hsize]
    decide
  · exact fun heq => absurd ((hpoints 9999 (by decide)).1 heq) (by decide)
  · exact (hpoints 9998 (by decide)).2 (by decide)

end TermLang
