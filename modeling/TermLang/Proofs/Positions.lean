import Mathlib.Data.Prod.Lex
import TermLang.Proofs.Lines

/-!
# Positions by counting

A source file computes the position of an offset from the table of its line starts. Between characters that
position is told by counting alone: the line by the line feeds in front of the offset, the column by the
characters behind the last of them. So positions are ordered as the offsets are, and no two offsets between
characters share one. Every position is in a line that the file has a text for, and at its column that text
has the character which stands at the offset, unless the character belongs to the end of the line.
-/

namespace TermLang

namespace Position

/-- Where a position is to be found: its line first, then its column. -/
def place (p : Position) : Nat ×ₗ Nat := toLex (p.line, p.column)

theorem place_lt_after (p : Position) (c : Char) : p.place < (p.after c).place := by
  rw [place, place, Prod.Lex.toLex_lt_toLex, after]
  split
  · exact .inl (Nat.lt_succ_self _)
  · exact .inr ⟨rfl, Nat.lt_succ_self _⟩

/-- Reading leads to a later place. -/
theorem place_lt_advance (p : Position) {cs : List Char} (h : cs ≠ []) :
    p.place < (p.advance cs).place := by
  induction cs generalizing p with
  | nil => exact absurd rfl h
  | cons c cs ih =>
    rw [advance_cons]
    rcases eq_or_ne cs [] with rfl | hcs
    · exact p.place_lt_after c
    · exact (p.place_lt_after c).trans (ih _ hcs)

end Position

/-! ## The table ascends -/

/-- In a row that ascends, the entries up to a number are those in front of the first one beyond it. -/
theorem lt_length_takeWhile_iff {l : List Nat} (h : l.Pairwise (· < ·)) {i start : Nat} (offset : Nat)
    (hi : l[i]? = some start) : i < (l.takeWhile (· ≤ offset)).length ↔ start ≤ offset := by
  induction l generalizing i with
  | nil => exact nomatch hi
  | cons first l ih =>
    obtain ⟨hfirst, hl⟩ := List.pairwise_cons.1 h
    by_cases hle : first ≤ offset
    · rw [List.takeWhile_cons_of_pos (by simpa using hle), List.length_cons]
      cases i with
      | zero =>
        obtain rfl : first = start := Option.some.inj hi
        exact iff_of_true (Nat.succ_pos _) hle
      | succ i => exact Nat.succ_lt_succ_iff.trans (ih hl hi)
    · rw [List.takeWhile_cons_of_neg (by simpa using hle)]
      have hstart : first ≤ start := by
        rcases List.mem_cons.1 (List.mem_of_getElem? hi) with rfl | hmem
        · exact Nat.le_refl _
        · exact (hfirst _ hmem).le
      exact iff_of_false (Nat.not_lt_zero _) (by omega)

namespace SourceFile

theorem pairwise_lineStartsAfter (offset : Nat) (cs : List Char) :
    (lineStartsAfter offset cs).Pairwise (· < ·) := by
  induction cs generalizing offset with
  | nil => exact .nil
  | cons c cs ih =>
    unfold lineStartsAfter
    dsimp only
    split
    · exact .cons (fun _ hmem => (le_of_mem_lineStartsAfter hmem).1) (ih _)
    · exact ih _

variable (file : SourceFile)

theorem pairwise_lineStarts : file.lineStarts.Pairwise (· < ·) :=
  .cons (fun _ hmem => (le_of_mem_lineStartsAfter hmem).1) (pairwise_lineStartsAfter 0 file.chars)

/-- The lines that begin up to an offset are those up to its own, which is what a bisection of the table
asks for. -/
theorem lt_line_iff (offset : Nat) {i start : Nat} (h : file.lineStarts[i]? = some start) :
    i < (file.positionAt offset).line ↔ start ≤ min offset file.size :=
  lt_length_takeWhile_iff file.pairwise_lineStarts _ h

/-- The first line begins in front of every offset. -/
theorem one_le_line (offset : Nat) : 1 ≤ (file.positionAt offset).line :=
  (file.lt_line_iff offset (i := 0) rfl).2 (Nat.zero_le _)

theorem line_le_lineCount (offset : Nat) : (file.positionAt offset).line ≤ file.lineCount :=
  (List.takeWhile_sublist _).length_le

/-! ## Offsets between characters -/

/-- The offset is that of a place between two characters, or at an end of the content. -/
def IsBoundary (offset : Nat) : Prop :=
  ∃ before after, file.chars = before ++ after ∧ offset = Text.byteSize before

variable {file}

theorem positionAt_of_append {before after : List Char} (h : file.chars = before ++ after) :
    file.positionAt (Text.byteSize before) =
      ⟨before.count '\n' + 1, (before.rtakeWhile (· ≠ '\n')).length + 1, Text.byteSize before⟩ :=
  (positionAt_byteSize h).trans (Position.start_advance before)

theorem positionAt_of_size_le {offset : Nat} (h : file.size ≤ offset) :
    file.positionAt offset = file.positionAt file.size := by
  unfold positionAt
  rw [Nat.min_eq_right h, Nat.min_self]

theorem strictMonoOn_place (file : SourceFile) :
    StrictMonoOn (fun offset => (file.positionAt offset).place) {offset | file.IsBoundary offset} := by
  rintro _ ⟨a, aAfter, ha, rfl⟩ _ ⟨b, bAfter, hb, rfl⟩ hlt
  -- the smaller of the two offsets is the end of a first part of what the other one is the end of
  have hprefix : a <+: b := by
    refine (List.prefix_or_prefix_of_prefix ⟨aAfter, ha.symm⟩ ⟨bAfter, hb.symm⟩).resolve_right ?_
    rintro ⟨more, rfl⟩
    rw [Text.byteSize_append] at hlt
    omega
  obtain ⟨more, rfl⟩ := hprefix
  have hmore : more ≠ [] := by
    rintro rfl
    simp at hlt
  show (file.positionAt _).place < (file.positionAt _).place
  rw [positionAt_byteSize ha, positionAt_byteSize hb, Position.advance_append]
  exact Position.place_lt_advance _ hmore

end SourceFile

/-! ## The end of a line -/

/-- Carriage returns, if any, up to a line feed or to the end of the text. -/
def ClosesLine (cs : List Char) : Prop :=
  ∃ n after, cs = List.replicate n '\r' ++ after ∧ ∀ c ∈ after.head?, c = '\n'

@[simp] theorem closesLine_nil : ClosesLine [] := ⟨0, [], rfl, nofun⟩

@[simp] theorem closesLine_cons (c : Char) (cs : List Char) :
    ClosesLine (c :: cs) ↔ c = '\n' ∨ c = '\r' ∧ ClosesLine cs := by
  constructor
  · rintro ⟨n, after, htext, hafter⟩
    cases n with
    | zero =>
      obtain rfl : c :: cs = after := htext
      exact .inl (hafter c rfl)
    | succ n =>
      obtain ⟨rfl, rfl⟩ := List.cons_eq_cons.1 htext
      exact .inr ⟨rfl, n, after, rfl, hafter⟩
  · rintro (rfl | ⟨rfl, n, after, rfl, hafter⟩)
    · exact ⟨0, '\n' :: cs, rfl, by simp⟩
    · exact ⟨n + 1, after, rfl, hafter⟩

namespace SourceFile

theorem length_trimLineEnds_le (cs : List Char) : (trimLineEnds cs).length ≤ cs.length := by
  have hle := (List.dropWhile_sublist isLineEnd (l := cs.reverse)).length_le
  rwa [List.length_reverse, ← List.length_reverse] at hle

/-- What closes a line is trimmed from it. -/
theorem trimLineEnds_of_closesLine {after : List Char} (h : ClosesLine after) (lead : List Char) :
    trimLineEnds (lead ++ after.takeWhile (· ≠ '\n')) = trimLineEnds lead := by
  obtain ⟨n, rest, rfl, hrest⟩ := h
  refine trimLineEnds_append_of_forall (fun c hc => ?_) lead
  have hstop : rest.takeWhile (· ≠ '\n') = [] := by
    cases rest with
    | nil => rfl
    | cons d rest => rw [List.takeWhile_cons_of_neg (by simpa using hrest d rfl)]
  rw [List.takeWhile_append_of_pos (by simp), hstop, List.append_nil] at hc
  rw [List.eq_of_mem_replicate hc]
  rfl

/-- In what does not close a line, some other character comes before any line feed. -/
theorem exists_of_not_closesLine {cs : List Char} (h : ¬ ClosesLine cs) :
    ∃ a c b, cs = a ++ c :: b ∧ '\n' ∉ a ∧ isLineEnd c = false := by
  induction cs with
  | nil => exact absurd closesLine_nil h
  | cons c cs ih =>
    obtain ⟨hfeed, hreturn⟩ := not_or.1 ((closesLine_cons c cs).not.1 h)
    by_cases hc : c = '\r'
    · obtain ⟨a, d, b, rfl, ha, hd⟩ := ih fun hcs => hreturn ⟨hc, hcs⟩
      exact ⟨c :: a, d, b, rfl, by simp [hc, ha], hd⟩
    · exact ⟨[], c, cs, rfl, List.not_mem_nil, by simp [isLineEnd, hfeed, hc]⟩

/-- What does not close a line is kept from its first character on. -/
theorem trimLineEnds_of_not_closesLine {c : Char} {after : List Char} (h : ¬ ClosesLine (c :: after))
    (lead : List Char) :
    ∃ tail, trimLineEnds (lead ++ (c :: after).takeWhile (· ≠ '\n')) = lead ++ c :: tail := by
  obtain ⟨a, d, b, htext, ha, hd⟩ := exists_of_not_closesLine h
  have hfeed : d ≠ '\n' := by
    rintro rfl
    exact nomatch hd
  have hkept : (a ++ d :: b).takeWhile (· ≠ '\n') = a ++ d :: b.takeWhile (· ≠ '\n') := by
    rw [List.takeWhile_append_of_pos fun x hx => by simpa using ne_of_mem_of_not_mem hx ha,
      List.takeWhile_cons_of_pos (by simpa using hfeed)]
  rw [htext, hkept, ← List.append_assoc, trimLineEnds_append hd, List.append_assoc]
  -- the first character is the one that stops the trimming, or a carriage return in front of it
  cases a with
  | nil =>
    obtain ⟨rfl, -⟩ := List.cons_eq_cons.1 htext
    exact ⟨_, rfl⟩
  | cons x a =>
    obtain ⟨rfl, -⟩ := List.cons_eq_cons.1 htext
    exact ⟨_, rfl⟩

/-- A character is left in its line just if it does not belong to the end of it. -/
theorem getElem?_trimLineEnds_iff (lead : List Char) (c : Char) (after : List Char) :
    (trimLineEnds (lead ++ (c :: after).takeWhile (· ≠ '\n')))[lead.length]? = some c ↔
      ¬ ClosesLine (c :: after) := by
  constructor
  · intro hshown hcloses
    rw [trimLineEnds_of_closesLine hcloses,
      List.getElem?_eq_none (length_trimLineEnds_le lead)] at hshown
    exact nomatch hshown
  · intro h
    obtain ⟨tail, htail⟩ := trimLineEnds_of_not_closesLine h lead
    rw [htail, List.getElem?_append_right (Nat.le_refl _), Nat.sub_self, List.getElem?_cons_zero]

/-! ## The text of a line -/

variable {file : SourceFile}

theorem lineText?_of_append {before after : List Char} (h : file.chars = before ++ after) :
    file.lineText? (before.count '\n' + 1) = some (String.ofList (trimLineEnds
      (before.rtakeWhile (· ≠ '\n') ++ after.takeWhile (· ≠ '\n')))) := by
  have hline := IsLine.around before after
  rw [← h] at hline
  rw [← count_rdropWhile_lineFeed]
  exact hline.lineText?

/-- Some place in a text has as many line feeds in front of it as one likes, up to all there are. -/
theorem exists_count_lineFeed {cs : List Char} {n : Nat} (h : n ≤ cs.count '\n') :
    ∃ before after, cs = before ++ after ∧ before.count '\n' = n := by
  -- from the end of the text on: its last character adds one line feed at most
  induction cs using List.reverseRecOn with
  | nil => exact ⟨[], [], rfl, (Nat.le_zero.1 h).symm⟩
  | append_singleton cs c ih =>
    by_cases hn : n ≤ cs.count '\n'
    · obtain ⟨before, after, rfl, hcount⟩ := ih hn
      exact ⟨before, after ++ [c], by simp, hcount⟩
    · have hone : [c].count '\n' ≤ 1 := List.count_le_length
      refine ⟨cs ++ [c], [], by simp, ?_⟩
      rw [List.count_append] at h ⊢
      omega

theorem exists_boundary_in_line {n : Nat} (hn : 1 ≤ n) (hcount : n ≤ file.lineCount) :
    ∃ before after, file.chars = before ++ after ∧ before.count '\n' + 1 = n := by
  rw [lineCount_eq] at hcount
  obtain ⟨before, after, htext, hbefore⟩ : ∃ before after, file.chars = before ++ after ∧
      before.count '\n' = n - 1 := exists_count_lineFeed (by omega)
  exact ⟨before, after, htext, by omega⟩

theorem isSome_lineText?_iff (file : SourceFile) (n : Nat) :
    (file.lineText? n).isSome ↔ 1 ≤ n ∧ n ≤ file.lineCount := by
  constructor
  · intro h
    cases n with
    | zero => exact nomatch h
    | succ n =>
      obtain ⟨text, htext⟩ := Option.isSome_iff_exists.1 h
      obtain ⟨start, hstart, -⟩ := Option.bind_eq_some_iff.1 htext
      exact ⟨Nat.succ_pos n, (List.getElem?_eq_some_iff.1 hstart).1⟩
  · rintro ⟨hn, hcount⟩
    obtain ⟨before, after, htext, rfl⟩ := exists_boundary_in_line hn hcount
    rw [lineText?_of_append htext]
    rfl

end SourceFile

open SourceFile

/-- The position of an offset between characters counts the line feeds in front of it and the characters
behind the last of them; an offset past the end is read as the end. So places come in the order of such
offsets, and no two of these have the same place. Every line that an offset is in is a line of the file, and
the last one in its table to begin up to the offset; the file has a text for just its lines, and these are
those that some offset between characters is in. A character is found in the text of its line, behind as
many others as its column tells, if and only if it does not belong to the end of the line. -/
theorem positions_counted (file : SourceFile) :
    (∀ before after, file.chars = before ++ after →
      file.positionAt (Text.byteSize before) =
        ⟨before.count '\n' + 1, (before.rtakeWhile (· ≠ '\n')).length + 1, Text.byteSize before⟩) ∧
    (∀ offset, file.size ≤ offset → file.positionAt offset = file.positionAt file.size) ∧
    StrictMonoOn (fun offset => (file.positionAt offset).place) {offset | file.IsBoundary offset} ∧
    Set.InjOn (fun offset => (file.positionAt offset).place) {offset | file.IsBoundary offset} ∧
    (∀ offset, 1 ≤ (file.positionAt offset).line ∧ (file.positionAt offset).line ≤ file.lineCount ∧
      ∀ i start, file.lineStarts[i]? = some start →
        (i < (file.positionAt offset).line ↔ start ≤ min offset file.size)) ∧
    (∀ n, ((file.lineText? n).isSome ↔ 1 ≤ n ∧ n ≤ file.lineCount) ∧
      ((file.lineText? n).isSome ↔
        ∃ offset, file.IsBoundary offset ∧ (file.positionAt offset).line = n)) ∧
    ∀ before c after, file.chars = before ++ c :: after →
      ∃ text, file.lineText? (file.positionAt (Text.byteSize before)).line = some text ∧
        (text.toList[(file.positionAt (Text.byteSize before)).column - 1]? = some c ↔
          ¬ ClosesLine (c :: after)) := by
  refine ⟨fun _ _ h => positionAt_of_append h, fun _ h => positionAt_of_size_le h,
    file.strictMonoOn_place, file.strictMonoOn_place.injOn, fun offset => ⟨file.one_le_line offset,
      file.line_le_lineCount offset, fun _ _ h => file.lt_line_iff offset h⟩,
    fun n => ⟨file.isSome_lineText?_iff n, ?_⟩, ?_⟩
  · rw [file.isSome_lineText?_iff n]
    constructor
    · rintro ⟨hn, hcount⟩
      obtain ⟨before, after, htext, rfl⟩ := exists_boundary_in_line hn hcount
      exact ⟨_, ⟨before, after, htext, rfl⟩, by rw [positionAt_of_append htext]⟩
    · rintro ⟨offset, -, rfl⟩
      exact ⟨file.one_le_line offset, file.line_le_lineCount offset⟩
  · intro before c after htext
    rw [positionAt_of_append htext]
    refine ⟨_, lineText?_of_append htext, ?_⟩
    rw [String.toList_ofList, Nat.add_sub_cancel]
    exact getElem?_trimLineEnds_iff _ c after

/-! Wide characters, an empty line, and carriage returns in front of a line feed and of the end. -/

/-- Three lines in eleven bytes. -/
def mixedFile : SourceFile := ⟨"a", "é\r\r\n\n€x\r"⟩

theorem positions_counted_mixed :
    mixedFile.positionAt 9 = ⟨3, 2, 9⟩ ∧
    mixedFile.size ≤ 99 ∧ mixedFile.positionAt 99 = mixedFile.positionAt mixedFile.size ∧
    (mixedFile.positionAt 5).place < (mixedFile.positionAt 9).place ∧
    (mixedFile.lineText? 3).isSome ∧ ¬ (mixedFile.lineText? 4).isSome ∧
    (∃ text, mixedFile.lineText? 3 = some text ∧ text.toList[1]? = some 'x') ∧
    ∃ text, mixedFile.lineText? 1 = some text ∧ text.toList[1]? ≠ some '\r' := by
  obtain ⟨hcount, hpast, hmono, -, -, htexts, hshown⟩ := positions_counted mixedFile
  have hsize : mixedFile.size = 11 := by decide
  have hlines : mixedFile.lineCount = 3 := by decide
  have hx : mixedFile.positionAt 9 = ⟨3, 2, 9⟩ := hcount "é\r\r\n\n€".toList "x\r".toList rfl
  have hreturn : mixedFile.positionAt 2 = ⟨1, 2, 2⟩ := hcount "é".toList "\r\r\n\n€x\r".toList rfl
  have hplaces : (mixedFile.positionAt 5).place < (mixedFile.positionAt 9).place :=
    hmono ⟨"é\r\r\n".toList, "\n€x\r".toList, rfl, rfl⟩ ⟨"é\r\r\n\n€".toList, "x\r".toList, rfl, rfl⟩
      (by decide)
  refine ⟨hx, by omega, hpast 99 (by omega), hplaces, ?_, ?_, ?_, ?_⟩
  · rw [(htexts 3).1, hlines]
    decide
  · rw [(htexts 4).1, hlines]
    decide
  · obtain ⟨text, htext, hkept⟩ := hshown "é\r\r\n\n€".toList 'x' ['\r'] rfl
    have hthird : mixedFile.lineText? (mixedFile.positionAt 9).line = some text := htext
    rw [hx] at hthird
    exact ⟨text, hthird, hkept.2 (by simp)⟩
  · obtain ⟨text, htext, hkept⟩ := hshown "é".toList '\r' "\r\n\n€x\r".toList rfl
    have hfirst : mixedFile.lineText? (mixedFile.positionAt 2).line = some text := htext
    rw [hreturn] at hfirst
    exact ⟨text, hfirst, fun h => hkept.1 h (by simp)⟩

end TermLang
