import Mathlib.Data.List.DropRight
import TermLang.Proofs.Scanned
import TermLang.Source.File

/-!
# Places in a text

Reading counts lines and columns character by character; a source file computes them from the table
of its line starts. The two agree at every offset between characters. A part of a text `Stands` at a
position that reading reaches in front of it: every token stands at the start of its span, and what
a lexical error has found stands at its position.
-/

namespace TermLang

namespace Position

theorem offset_advance (p : Position) (cs : List Char) :
    (p.advance cs).offset = p.offset + Text.byteSize cs := by
  induction cs generalizing p with
  | nil => simp
  | cons c cs ih => rw [advance_cons, ih, offset_after, Text.byteSize_cons, Nat.add_assoc]

/-- From the beginning of a text, reading counts line feeds and the characters behind the last one. -/
theorem start_advance (cs : List Char) :
    start.advance cs =
      ⟨cs.count '\n' + 1, (cs.rtakeWhile (· ≠ '\n')).length + 1, Text.byteSize cs⟩ := by
  induction cs using List.reverseRecOn with
  | nil => rfl
  | append_singleton cs c ih =>
    rw [advance_append, ih, advance_cons, advance_nil, after]
    split
    · rename_i hc
      subst hc
      rw [List.rtakeWhile_concat_neg _ _ _ (by simp)]
      simp [Char.utf8Size]
    · rename_i hc
      rw [List.rtakeWhile_concat_pos _ _ _ (by simpa using hc)]
      simp [hc]

end Position

theorem Text.length_le_of_takeBytes? {n : Nat} {cs a : List Char} (h : takeBytes? n cs = some a) :
    a.length ≤ n := by
  fun_induction takeBytes? n cs generalizing a with
  | case1 =>
    obtain rfl := Option.some.inj h
    exact Nat.zero_le _
  | case2 | case4 => exact nomatch h
  | case3 n c cs hc ih =>
    obtain ⟨b, hb, rfl⟩ := Option.map_eq_some_iff.1 h
    have hle := ih hb
    have hpos := c.utf8Size_pos
    rw [List.length_cons]
    omega

/-! ## The table of line starts -/

namespace SourceFile

theorem lineStartsAfter_append (offset : Nat) (a b : List Char) :
    lineStartsAfter offset (a ++ b) =
      lineStartsAfter offset a ++ lineStartsAfter (offset + Text.byteSize a) b := by
  induction a generalizing offset with
  | nil => rfl
  | cons c a ih =>
    simp only [List.cons_append, lineStartsAfter, ih, Text.byteSize_cons, Nat.add_assoc]
    split <;> simp

theorem le_of_mem_lineStartsAfter {offset n : Nat} {cs : List Char}
    (h : n ∈ lineStartsAfter offset cs) : offset < n ∧ n ≤ offset + Text.byteSize cs := by
  induction cs generalizing offset with
  | nil => cases h
  | cons c cs ih =>
    have hc := c.utf8Size_pos
    have hrest : n ∈ lineStartsAfter (offset + c.utf8Size) cs →
        offset < n ∧ n ≤ offset + Text.byteSize (c :: cs) := by
      intro h
      have := ih h
      simp only [Text.byteSize_cons]
      omega
    rw [lineStartsAfter] at h
    split at h
    · rcases List.mem_cons.1 h with rfl | h
      · simp only [Text.byteSize_cons]
        omega
      · exact hrest h
    · exact hrest h

theorem length_lineStartsAfter (offset : Nat) (cs : List Char) :
    (lineStartsAfter offset cs).length = cs.count '\n' := by
  induction cs generalizing offset with
  | nil => rfl
  | cons c cs ih =>
    rw [lineStartsAfter, List.count_cons]
    by_cases hc : c = '\n'
    · simp [hc, ih]
    · simp [hc, ih]

/-- The last line of a text begins behind its last line feed. -/
theorem getLast?_lineStarts (cs : List Char) :
    (0 :: lineStartsAfter 0 cs).getLast? = some (Text.byteSize (cs.rdropWhile (· ≠ '\n'))) := by
  induction cs using List.reverseRecOn with
  | nil => rfl
  | append_singleton cs c ih =>
    rw [lineStartsAfter_append, Nat.zero_add, ← List.cons_append, List.getLast?_append, ih]
    by_cases hc : c = '\n'
    · rw [List.rdropWhile_concat_neg _ _ _ (by simpa using hc)]
      simp [hc, lineStartsAfter]
    · rw [List.rdropWhile_concat_pos _ _ _ (by simpa using hc)]
      simp [hc, lineStartsAfter]

section

variable {file : SourceFile} {a b : List Char} (h : file.chars = a ++ b)
include h

theorem lineStarts_of_append :
    file.lineStarts = (0 :: lineStartsAfter 0 a) ++ lineStartsAfter (Text.byteSize a) b := by
  rw [lineStarts, h, lineStartsAfter_append, Nat.zero_add, List.cons_append]

/-- The lines that begin up to the end of a first part of the content are those of that part. -/
theorem takeWhile_lineStarts :
    file.lineStarts.takeWhile (· ≤ Text.byteSize a) = 0 :: lineStartsAfter 0 a := by
  have hle : ∀ n ∈ 0 :: lineStartsAfter 0 a, decide (n ≤ Text.byteSize a) = true := by
    intro n hn
    rcases List.mem_cons.1 hn with rfl | hn
    · simp
    · have := le_of_mem_lineStartsAfter hn
      exact decide_eq_true (by omega)
  rw [lineStarts_of_append h, List.takeWhile_append_of_pos hle]
  cases hb : lineStartsAfter (Text.byteSize a) b with
  | nil => simp
  | cons n rest =>
    have hn : n ∈ lineStartsAfter (Text.byteSize a) b := hb ▸ List.mem_cons_self
    have := le_of_mem_lineStartsAfter hn
    rw [List.takeWhile_cons_of_neg (by simp; omega), List.append_nil]

/-- The last line to begin in a first part of the content. -/
theorem getElem?_lineStarts :
    file.lineStarts[a.count '\n']? = some (Text.byteSize (a.rdropWhile (· ≠ '\n'))) := by
  have hlast := getLast?_lineStarts a
  rw [List.getLast?_eq_getElem?, List.length_cons, Nat.add_sub_cancel, length_lineStartsAfter] at hlast
  rw [lineStarts_of_append h, List.getElem?_append_left (by simp [length_lineStartsAfter]), hlast]

/-- The position of the offset that a first part of the content ends at is the one that reading
reaches behind it. -/
theorem positionAt_byteSize : file.positionAt (Text.byteSize a) = Position.start.advance a := by
  have hsize : min (Text.byteSize a) file.size = Text.byteSize a := by
    rw [size, h, Text.byteSize_append]
    omega
  have hparts : a.rdropWhile (· ≠ '\n') ++ (a.rtakeWhile (· ≠ '\n') ++ b) = file.chars := by
    rw [← List.append_assoc, List.rdropWhile_append_rtakeWhile, h]
  have hslice : Text.slice? (Text.byteSize (a.rdropWhile (· ≠ '\n'))) (Text.byteSize a) file.chars =
      some (a.rtakeWhile (· ≠ '\n')) := by
    rw [← hparts, ← Text.slice?_append, ← Text.byteSize_append, List.rdropWhile_append_rtakeWhile]
  rw [positionAt, Position.start_advance]
  simp only [hsize, takeWhile_lineStarts h, List.length_cons, length_lineStartsAfter, Nat.add_sub_cancel,
    List.getD_eq_getElem?_getD, getElem?_lineStarts h, Option.getD_some, hslice, Option.map_some]

end

theorem lineCount_eq (file : SourceFile) : file.lineCount = file.chars.count '\n' + 1 := by
  rw [lineCount, lineStarts, List.length_cons, length_lineStartsAfter]

theorem lineCount_le (file : SourceFile) : file.lineCount ≤ file.size + 1 := by
  rw [lineCount_eq]
  exact Nat.succ_le_succ (List.count_le_length.trans (Text.length_le_byteSize _))

/-- Positions in a file have a column, and no line or column far beyond its size. -/
theorem positionAt_bounds (file : SourceFile) (offset : Nat) :
    0 < (file.positionAt offset).column ∧ (file.positionAt offset).column ≤ file.size + 1 ∧
      (file.positionAt offset).line ≤ file.size + 1 := by
  refine ⟨Nat.succ_pos _, Nat.succ_le_succ ?_,
    (List.takeWhile_sublist _).length_le.trans file.lineCount_le⟩
  generalize file.lineStarts.getD _ 0 = lineStart
  cases hlead : Text.slice? lineStart (min offset file.size) file.chars with
  | none => exact Nat.zero_le _
  | some lead =>
    obtain ⟨-, hlead⟩ := Option.ite_none_right_eq_some.1 hlead
    obtain ⟨rest, -, hlead⟩ := Option.bind_eq_some_iff.1 hlead
    have hle := Text.length_le_of_takeBytes? hlead
    show lead.length ≤ file.size
    omega

end SourceFile

/-! ## Parts of a text -/

/-- In a text that begins at `p`, the part stands at `q`: reading what is in front of it leads from
`p` to `q`. -/
def Stands (p : Position) (cs part : List Char) (q : Position) : Prop :=
  ∃ before after, cs = before ++ (part ++ after) ∧ q = p.advance before

namespace Stands

variable {p q : Position} {cs part : List Char}

theorem here (h : part <+: cs) : Stands p cs part p := by
  obtain ⟨after, rfl⟩ := h
  exact ⟨[], after, rfl, rfl⟩

theorem append (before : List Char) (h : Stands (p.advance before) cs part q) :
    Stands p (before ++ cs) part q := by
  obtain ⟨a, b, rfl, rfl⟩ := h
  exact ⟨before ++ a, b, by simp, by rw [Position.advance_append]⟩

/-- What stands at a position of a source file is the slice there, the position is the one of its
offset, and the slice is covered by the span from there to its end. -/
theorem in_file {file : SourceFile} (h : Stands .start file.chars part q) :
    Text.slice? q.offset (q.offset + Text.byteSize part) file.chars = some part ∧
      q = file.positionAt q.offset ∧
      file.textOf? (file.spanOf q.offset (q.offset + Text.byteSize part)) =
        some (String.ofList part) := by
  obtain ⟨before, after, htext, rfl⟩ := h
  have hoffset : (Position.start.advance before).offset = Text.byteSize before := by
    rw [Position.offset_advance]
    exact Nat.zero_add _
  have hslice : Text.slice? (Text.byteSize before) (Text.byteSize before + Text.byteSize part)
      file.chars = some part := by
    rw [htext]
    exact Text.slice?_append before part after
  have hsize : Text.byteSize before + Text.byteSize part ≤ file.size := by
    rw [SourceFile.size, htext, Text.byteSize_append, Text.byteSize_append]
    omega
  rw [hoffset]
  refine ⟨hslice, (SourceFile.positionAt_byteSize htext).symm, ?_⟩
  rw [SourceFile.textOf?, SourceFile.spanOf, SourceFile.positionAt_offset,
    SourceFile.positionAt_offset, Nat.min_eq_left (by omega), Nat.min_eq_left hsize, hslice]
  rfl

end Stands

/-! ## Lexical errors -/

theorem closeChar_error {seen cs : List Char} {value : Char} {f : ScanFault}
    (h : closeChar seen value cs = .error f) : f.found <+: seen ++ cs := by
  unfold closeChar at h
  split at h
  · obtain rfl := Except.error.inj h
    simp
  · split at h
    · cases h
    · obtain rfl := Except.error.inj h
      simp

theorem scanChar_error {cs : List Char} {f : ScanFault} (h : scanChar cs = .error f) :
    f.found <+: '\'' :: cs := by
  unfold scanChar at h
  split at h
  · obtain rfl := Except.error.inj h
    exact List.prefix_rfl
  · split at h
    · rename_i hquote
      obtain rfl := Except.error.inj h
      simp [hquote]
    · split at h
      · rename_i hescape
        subst hescape
        unfold scanEscaped at h
        split at h
        · obtain rfl := Except.error.inj h
          exact List.prefix_rfl
        · simpa using closeChar_error h
      · simpa using closeChar_error h

theorem integerScan_error {sign lexeme rest : List Char} {magnitude : Nat} {f : ScanFault}
    (h : integerScan sign magnitude lexeme rest = .error f) : f.found = lexeme := by
  unfold integerScan at h
  split at h
  · cases h
  · obtain rfl := Except.error.inj h
    rfl

theorem decimalScan_error {sign whole fraction rest : List Char} {f : ScanFault}
    (h : decimalScan sign whole fraction rest = .error f) :
    f.found = sign ++ whole ++ '.' :: fraction := by
  unfold decimalScan at h
  dsimp only at h
  split at h
  · cases h
  · obtain rfl := Except.error.inj h
    rfl

theorem scanBased_error {lead sign cs : List Char} {base : Nat} {f : ScanFault}
    (h : scanBased lead sign base cs = .error f) : f.found <+: lead ++ cs := by
  unfold scanBased at h
  split at h
  · obtain rfl := Except.error.inj h
    exact List.prefix_append lead cs
  · rename_i d ds hdigits
    rw [integerScan_error h, List.prefix_append_right_inj, ← hdigits]
    exact List.takeWhile_prefix _

theorem scanPlain_error {sign cs : List Char} {f : ScanFault} (h : scanPlain sign cs = .error f) :
    f.found <+: sign ++ cs := by
  have hcs : cs.takeWhile Char.isDigit ++ cs.dropWhile Char.isDigit = cs :=
    List.takeWhile_append_dropWhile
  have hwhole : sign ++ cs.takeWhile Char.isDigit <+: sign ++ cs :=
    (List.prefix_append_right_inj sign).2 (List.takeWhile_prefix _)
  unfold scanPlain at h
  dsimp only at h
  split at h
  · rename_i d rest hrest
    split at h
    · rw [decimalScan_error h, List.append_assoc, List.prefix_append_right_inj]
      conv => rhs; rw [← hcs, hrest]
      rw [List.prefix_append_right_inj, List.cons_prefix_cons, List.cons_prefix_cons]
      exact ⟨rfl, rfl, List.takeWhile_prefix _⟩
    · rw [integerScan_error h]
      exact hwhole
  · rw [integerScan_error h]
    exact hwhole

theorem scanNumber_error {sign cs : List Char} {f : ScanFault} (h : scanNumber sign cs = .error f) :
    f.found <+: sign ++ cs := by
  unfold scanNumber at h
  split at h
  · split at h
    · simpa using scanBased_error h
    · exact scanPlain_error h
  · exact scanPlain_error h

/-- What a scan has found when it fails is a first part of the text. -/
theorem scan_error {c : Char} {cs : List Char} {f : ScanFault} (h : scan c cs = .error f) :
    f.found <+: c :: cs := by
  unfold scan at h
  split at h
  · cases h
  split at h
  · exact scanNumber_error h
  split at h
  · exact scanNumber_error h
  split at h
  · rename_i hquote
    unfold scanString at h
    split at h
    · cases h
    · subst hquote
      obtain rfl := Except.error.inj h
      exact List.prefix_rfl
  split at h
  · rename_i hquote
    rw [hquote]
    exact scanChar_error h
  · unfold scanMark at h
    split at h
    · cases h
    · obtain rfl := Except.error.inj h
      simp

/-- Trivia fails in a block comment only, and tells where that was opened. -/
theorem skipTrivia_error {mode : TriviaMode} {p : Position} {cs : List Char} {e : LexError}
    (h : skipTrivia mode p cs = .error e) :
    e.found = "/*" ∧ (Stands p cs "/*".toList e.position ∨ mode = .blockComment e.position) := by
  fun_induction skipTrivia mode p cs with
  | case1 | case5 | case6 => cases h
  | case2 p cs ih =>
    obtain ⟨hfound, hstands⟩ := ih h
    exact ⟨hfound, .inl ((hstands.resolve_right (by simp)).append ['/', '/'])⟩
  | case3 p cs ih =>
    obtain ⟨hfound, hstands | hmode⟩ := ih h
    · exact ⟨hfound, .inl (hstands.append ['/', '*'])⟩
    · rw [← TriviaMode.blockComment.inj hmode]
      exact ⟨hfound, .inl (.here ⟨cs, rfl⟩)⟩
  | case4 p c cs _ _ _ ih =>
    obtain ⟨hfound, hstands⟩ := ih h
    exact ⟨hfound, .inl ((hstands.resolve_right (by simp)).append [c])⟩
  | case7 p c cs ih =>
    obtain ⟨hfound, hstands⟩ := ih h
    refine ⟨hfound, .inl ((hstands.resolve_right ?_).append [c])⟩
    split <;> simp
  | case8 =>
    obtain rfl := Except.error.inj h
    exact ⟨rfl, .inr rfl⟩
  | case9 _ p cs ih =>
    obtain ⟨hfound, hstands⟩ := ih h
    exact ⟨hfound, .inl ((hstands.resolve_right (by simp)).append ['*', '/'])⟩
  | case10 _ p c cs _ ih =>
    obtain ⟨hfound, hstands | hmode⟩ := ih h
    · exact ⟨hfound, .inl (hstands.append [c])⟩
    · exact ⟨hfound, .inr hmode⟩

/-- What a lexical error has found stands at its position. -/
theorem tokensFrom_error {p : Position} {cs : List Char} {e : LexError}
    (h : tokensFrom p cs = .error e) : Stands p cs e.found.toList e.position := by
  fun_induction tokensFrom p cs with
  | case1 p cs e' hskip =>
    obtain rfl := Except.error.inj h
    obtain ⟨hfound, hstands⟩ := skipTrivia_error hskip
    rw [hfound]
    exact hstands.resolve_right (by simp)
  | case2 => cases h
  | case3 p cs q c rest hskip fault hscan =>
    obtain rfl := Except.error.inj h
    obtain ⟨t, rfl, rfl⟩ := skipTrivia_ok hskip
    refine .append t (.here ?_)
    rw [ScanFault.error, String.toList_ofList]
    exact scan_error hscan
  | case4 p cs q c rest hskip s hscan _ ih =>
    obtain ⟨t, rfl, rfl⟩ := skipTrivia_ok hskip
    cases hrest : tokensFrom ((p.advance t).advance s.lexeme) s.rest with
    | ok us =>
      rw [hrest] at h
      cases h
    | error e' =>
      rw [hrest] at h
      obtain rfl := Except.error.inj h
      rw [← scan_append hscan]
      exact ((ih hrest).append s.lexeme).append t

/-! ## Tokens -/

/-- Every token stands at the start of its span, which ends where the token does. -/
theorem tokensFrom_stands {p : Position} {cs : List Char} {ts : List Token}
    (h : tokensFrom p cs = .ok ts) :
    ∀ t ∈ ts, Stands p cs t.lexeme.toList t.span.start ∧
      t.span.stop = t.span.start.advance t.lexeme.toList := by
  fun_induction tokensFrom p cs generalizing ts with
  | case1 => cases h
  | case2 p cs q hskip =>
    obtain rfl := Except.ok.inj h
    obtain ⟨t, rfl, rfl⟩ := skipTrivia_ok hskip
    intro u hu
    obtain rfl := List.mem_singleton.1 hu
    exact ⟨.append t (.here List.prefix_rfl), rfl⟩
  | case3 => cases h
  | case4 p cs q c rest hskip s hscan _ ih =>
    obtain ⟨t, rfl, rfl⟩ := skipTrivia_ok hskip
    cases hrest : tokensFrom ((p.advance t).advance s.lexeme) s.rest with
    | error e =>
      rw [hrest] at h
      cases h
    | ok us =>
      rw [hrest] at h
      obtain rfl := Except.ok.inj h
      have htext := scan_append hscan
      refine List.forall_mem_cons.2 ⟨⟨.append t (.here ?_), ?_⟩, fun u hu => ?_⟩
      · exact ⟨s.rest, by simp [Scan.token, htext]⟩
      · simp [Scan.token]
      · obtain ⟨hstands, hstop⟩ := ih hrest u hu
        rw [← htext]
        exact ⟨(hstands.append s.lexeme).append t, hstop⟩

/-- The end of the input is the last token, at the end of the text; every other token has a text. -/
theorem tokensFrom_last {p : Position} {cs : List Char} {ts : List Token}
    (h : tokensFrom p cs = .ok ts) :
    ∃ row, ts = row ++ [Token.eof (p.advance cs)] ∧ ∀ t ∈ row, t.kind ≠ .eof ∧ t.lexeme ≠ "" := by
  fun_induction tokensFrom p cs generalizing ts with
  | case1 => cases h
  | case2 p cs q hskip =>
    obtain rfl := Except.ok.inj h
    obtain ⟨t, rfl, rfl⟩ := skipTrivia_ok hskip
    exact ⟨[], by simp, List.forall_mem_nil _⟩
  | case3 => cases h
  | case4 p cs q c rest hskip s hscan _ ih =>
    obtain ⟨t, rfl, rfl⟩ := skipTrivia_ok hskip
    cases hrest : tokensFrom ((p.advance t).advance s.lexeme) s.rest with
    | error e =>
      rw [hrest] at h
      cases h
    | ok us =>
      rw [hrest] at h
      obtain rfl := Except.ok.inj h
      obtain ⟨row, rfl, hrow⟩ := ih hrest
      refine ⟨s.token (p.advance t) :: row, ?_, List.forall_mem_cons.2 ⟨⟨?_, ?_⟩, hrow⟩⟩
      · rw [← scan_append hscan, Position.advance_append, Position.advance_append]
        rfl
      · exact (scan_printable hscan).kind_ne_eof
      · intro hempty
        have := congrArg String.toList hempty
        rw [Scan.token, String.toList_ofList] at this
        exact scan_ne_nil hscan this

end TermLang
