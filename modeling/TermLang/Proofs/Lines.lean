import TermLang.Proofs.Places

/-!
# Lines of a text

A line stands between two line feeds, or between one and an end of the text. The number of a line is told
by the line feeds in front of it, and by that number a source file finds its text. Whatever stands in a
text begins in the line that its position names, as many characters behind the beginning of the line as
its column tells.
-/

namespace TermLang

/-- A line of a text, with what is in front of it and what is behind it. -/
structure IsLine (cs before line after : List Char) : Prop where
  text : cs = before ++ (line ++ after)
  opens : ∀ c ∈ before.getLast?, c = '\n'
  whole : '\n' ∉ line
  closes : ∀ c ∈ after.head?, c = '\n'

/-! ## Line feeds and positions -/

namespace Position

theorem line_advance (p : Position) (cs : List Char) :
    (p.advance cs).line = p.line + cs.count '\n' := by
  induction cs generalizing p with
  | nil => rfl
  | cons c cs ih =>
    rw [advance_cons, ih, after, List.count_cons]
    by_cases hc : c = '\n'
    · subst hc
      simp [Nat.add_comm, Nat.add_left_comm]
    · simp [hc]

/-- Where no line feed is read, columns are counted. -/
theorem column_advance (p : Position) {cs : List Char} (h : '\n' ∉ cs) :
    (p.advance cs).column = p.column + cs.length := by
  induction cs generalizing p with
  | nil => rfl
  | cons c cs ih =>
    obtain ⟨hc, hcs⟩ := not_or.1 (List.mem_cons.not.1 h)
    rw [advance_cons, ih _ hcs, after, if_neg (Ne.symm hc), List.length_cons]
    show p.column + 1 + cs.length = _
    omega

end Position

/-- A place in a text is in the line from the last line feed in front of it to the next one. -/
theorem IsLine.around (before after : List Char) :
    IsLine (before ++ after) (before.rdropWhile (· ≠ '\n'))
      (before.rtakeWhile (· ≠ '\n') ++ after.takeWhile (· ≠ '\n')) (after.dropWhile (· ≠ '\n')) where
  text := by
    rw [List.append_assoc, List.takeWhile_append_dropWhile, ← List.append_assoc,
      List.rdropWhile_append_rtakeWhile]
  opens := by
    intro c hc
    obtain ⟨hne, rfl⟩ := List.mem_getLast?_eq_getLast hc
    simpa using List.rdropWhile_last_not _ _ hne
  whole := by
    rw [List.mem_append, not_or]
    exact ⟨fun h => by simpa using List.mem_rtakeWhile_imp h,
      fun h => by simpa using List.mem_takeWhile_imp h⟩
  closes := by
    intro c hc
    have hhead := List.head?_dropWhile_not (· ≠ '\n') after
    rw [Option.mem_def.1 hc] at hhead
    simpa using hhead

theorem count_rdropWhile_lineFeed (cs : List Char) :
    (cs.rdropWhile (· ≠ '\n')).count '\n' = cs.count '\n' := by
  have hlead : (cs.rtakeWhile (· ≠ '\n')).count '\n' = 0 :=
    List.count_eq_zero.2 fun h => by simpa using List.mem_rtakeWhile_imp h
  have hparts := congrArg (List.count '\n') (List.rdropWhile_append_rtakeWhile (p := (· ≠ '\n')) (l := cs))
  rwa [List.count_append, hlead] at hparts

/-- What stands in a text stands in a line of it, behind as many characters as its column tells. -/
theorem Stands.in_line {cs part : List Char} {q : Position} (h : Stands .start cs part q) :
    ∃ before lead tail after rest, IsLine cs before (lead ++ tail) after ∧
      tail ++ after = part ++ rest ∧ q.line = before.count '\n' + 1 ∧ q.column = lead.length + 1 := by
  obtain ⟨front, rest, rfl, rfl⟩ := h
  refine ⟨_, _, _, _, rest, IsLine.around front (part ++ rest), List.takeWhile_append_dropWhile, ?_, ?_⟩
  · rw [Position.start_advance, count_rdropWhile_lineFeed]
  · rw [Position.start_advance]

/-! ## The table of line starts -/

namespace SourceFile

theorem lineStartsAfter_of_not_mem (offset : Nat) {cs : List Char} (h : '\n' ∉ cs) :
    lineStartsAfter offset cs = [] := by
  induction cs generalizing offset with
  | nil => rfl
  | cons c cs ih =>
    obtain ⟨hc, hcs⟩ := not_or.1 (List.mem_cons.not.1 h)
    rw [lineStartsAfter, if_neg (Ne.symm hc), ih _ hcs]

/-- The line ends that a text closes with are trimmed no further than a character that is none. -/
theorem trimLineEnds_append {c : Char} (hc : isLineEnd c = false) (a b : List Char) :
    trimLineEnds (a ++ c :: b) = a ++ c :: trimLineEnds b := by
  unfold trimLineEnds
  rw [List.reverse_append, List.reverse_cons, List.append_assoc, List.dropWhile_append]
  split
  · rename_i hnil
    rw [List.isEmpty_iff.1 hnil, List.singleton_append, List.dropWhile_cons_of_neg (by simp [hc])]
    simp
  · simp

theorem trimLineEnds_append_of_forall {b : List Char} (h : ∀ c ∈ b, isLineEnd c = true) (a : List Char) :
    trimLineEnds (a ++ b) = trimLineEnds a := by
  unfold trimLineEnds
  rw [List.reverse_append, List.dropWhile_append_of_pos fun c hc => h c (List.mem_reverse.1 hc)]

end SourceFile

/-- A source file finds the text of a line by the number of line feeds in front of it. -/
theorem IsLine.lineText? {file : SourceFile} {before line after : List Char}
    (h : IsLine file.chars before line after) :
    file.lineText? (before.count '\n' + 1) = some (String.ofList (SourceFile.trimLineEnds line)) := by
  have hopens : before.rdropWhile (· ≠ '\n') = before :=
    List.rdropWhile_eq_self_iff.2 fun hne => by simpa using h.opens _ (List.getLast_mem_getLast? hne)
  have hstart : file.lineStarts[before.count '\n']? = some (Text.byteSize before) := by
    rw [SourceFile.getElem?_lineStarts h.text, hopens]
  have hnext : file.lineStarts[before.count '\n' + 1]? =
      (SourceFile.lineStartsAfter (Text.byteSize before + Text.byteSize line) after)[0]? := by
    have hlength : (0 :: SourceFile.lineStartsAfter 0 before).length = before.count '\n' + 1 := by
      rw [List.length_cons, SourceFile.length_lineStartsAfter]
    rw [SourceFile.lineStarts_of_append h.text, SourceFile.lineStartsAfter_append,
      SourceFile.lineStartsAfter_of_not_mem _ h.whole, List.nil_append,
      List.getElem?_append_right (by omega), hlength, Nat.sub_self]
  rw [SourceFile.lineText?, hstart, Option.bind_some, List.getD_eq_getElem?_getD, hnext]
  cases after with
  | nil =>
    have hsize : file.size = Text.byteSize before + Text.byteSize line := by
      rw [SourceFile.size, h.text]
      simp
    have hslice := Text.slice?_append before line []
    rw [← h.text] at hslice
    simp only [SourceFile.lineStartsAfter, List.getElem?_nil, Option.getD_none, hsize, hslice,
      Option.map_some]
  | cons c after =>
    obtain rfl : c = '\n' := h.closes c rfl
    have hfeed : Char.utf8Size '\n' = 1 := rfl
    have hslice := Text.slice?_append before (line ++ ['\n']) after
    rw [List.append_assoc, List.singleton_append, ← h.text] at hslice
    simp only [SourceFile.lineStartsAfter, if_true, List.getElem?_cons_zero, Option.getD_some]
    rw [Text.byteSize_append, Text.byteSize_cons, Text.byteSize_nil, Nat.add_zero, ← Nat.add_assoc]
      at hslice
    rw [hslice, Option.map_some, SourceFile.trimLineEnds_append_of_forall (by simp [SourceFile.isLineEnd])]

end TermLang
