import TermLang.Proofs.ErrorPlaces
import TermLang.Report.Emitter

/-!
# Reports whose counters stay in range

The lines shown of a span and the marks under the first of them are found by arithmetic on 64-bit counters.
Here the same reports are made with sums and differences that fail where they leave the range of a counter.
A report that is made without a failure is the one that is printed. One step alone can fail: under a span of
several lines the column before its first is needed, and a span may begin in column zero.
-/

namespace TermLang

/-- The ways to leave the range of a counter. -/
inductive RangeFault
  | below
  | above
deriving DecidableEq, Repr

/-- What is found with counters that are kept in range. -/
abbrev Ranged := Except RangeFault

namespace Ranged

/-! ## Arithmetic in range -/

/-- The sum of two counters. -/
def sum (a b : Nat) : Ranged Nat :=
  if a + b < Emitter.counterValues then .ok (a + b) else .error .above

/-- The difference of two counters. -/
def difference (a b : Nat) : Ranged Nat := if b ≤ a then .ok (a - b) else .error .below

@[simp] theorem ok_bind {α β : Type} (v : α) (f : α → Ranged β) : (Except.ok v >>= f) = f v := rfl

@[simp] theorem pure_eq {α : Type} (v : α) : (pure v : Ranged α) = .ok v := rfl

theorem sum_eq {a b : Nat} (h : a + b < Emitter.counterValues) : sum a b = .ok (a + b) := if_pos h

theorem difference_eq {a b : Nat} (h : b ≤ a) : difference a b = .ok (a - b) := if_pos h

/-! ## The parts of a report -/

/-- The number of marks under the first line of a span. -/
def markCount (span : Span) (lastLine : Nat) (line : String) : Ranged Nat :=
  if span.start.line = lastLine then pure (max (span.stop.column - span.start.column) 1)
  else do
    let lead ← difference span.start.column 1
    pure (max (line.length - lead) 1)

/-- The row of marks under the first line of a span. -/
def markLine (m : Emitter) (span : Span) (lastLine : Nat) (line : String) : Ranged String := do
  let count ← markCount span lastLine line
  pure ("     | " ++ "".pushn ' ' (span.start.column - 1) ++ "".pushn m.indicator count ++ "\n")

/-- At most so many source lines of a span, from the one behind so many others on. -/
def linesBehind (m : Emitter) (file : SourceFile) (span : Span) (lastLine lead : Nat) :
    Nat → Ranged String
  | 0 => pure ""
  | count + 1 => do
    let number ← sum span.start.line lead
    match file.lineText? number with
    | none => pure ""
    | some line => do
      let marks ← (if lead = 0 then markLine m span lastLine line else pure "")
      let further ← linesBehind m file span lastLine (lead + 1) count
      pure (m.gutter number ++ line ++ "\n" ++ marks ++ further)

/-- The source lines of a span, with the marks under the first. -/
def snippet (m : Emitter) (file : SourceFile) (span : Span) : Ranged String := do
  let lastLine := max span.stop.line span.start.line
  let apart ← difference lastLine span.start.line
  let count ← sum apart 1
  linesBehind m file span lastLine 0 (min count m.maxLines)

/-- The source lines of a span, if there is a file and they are shown. -/
def lines (m : Emitter) (span : Span) : Option SourceFile → Ranged String
  | none => pure ""
  | some file => if m.showSource then snippet m file span else pure ""

/-- The place of a report and the source lines below it. -/
def place (m : Emitter) (file : Option SourceFile) : Option Span → Ranged String
  | none => pure ""
  | some span => do
    let shown ← lines m span file
    pure (Emitter.location file span ++ shown)

/-- A report without the notes that follow it. -/
def alone (m : Emitter) (file : Option SourceFile) (d : Diagnostic) : Ranged String := do
  let place ← place m file d.place?
  let help := if m.showHelp && !d.help.isEmpty then s!"help: {d.help}\n" else ""
  pure (m.header d ++ place ++ help)

mutual

/-- A report and the notes that follow it. -/
def render (m : Emitter) (file : Option SourceFile) : Diagnostic → Ranged String
  | .mk severity code message help span related => do
    let report ← alone m file (.mk severity code message help span [])
    let notes ← (if m.showRelated then renderAll m file related else pure "")
    pure (report ++ notes)

/-- Reports one after another. -/
def renderAll (m : Emitter) (file : Option SourceFile) : List Diagnostic → Ranged String
  | [] => pure ""
  | d :: ds => do
    let report ← render m file d
    let reports ← renderAll m file ds
    pure (report ++ reports)

end

/-! ## Values that a slip takes away -/

variable {α β : Type} {P Q : Prop} {x : Ranged α} {v : α}

/-- This value is found, but for one slip: then a difference is below the range. -/
structure Unless (P : Prop) (x : Ranged α) (v : α) : Prop where
  below : P → x = .error .below
  found : ¬P → x = .ok v

namespace Unless

theorem ok (v : α) : Unless False (.ok v) v := ⟨False.elim, fun _ => rfl⟩

theorem congr (h : Unless P x v) (hiff : P ↔ Q) : Unless Q x v :=
  ⟨fun hq => h.below (hiff.2 hq), fun hq => h.found (mt hiff.1 hq)⟩

/-- What is found from a value slips where one of the two does. -/
theorem bind {f : α → Ranged β} {w : β} (hx : Unless P x v) (hf : Unless Q (f v) w) :
    Unless (P ∨ Q) (x >>= f) w := by
  constructor
  · intro hslip
    by_cases hp : P
    · rw [hx.below hp]
      rfl
    · rw [hx.found hp]
      exact hf.below (hslip.resolve_left hp)
  · intro hslip
    rw [hx.found fun hp => hslip (.inl hp)]
    exact hf.found fun hq => hslip (.inr hq)

theorem map {w : β} {f : α → β} (hx : Unless P x v) (hw : f v = w) :
    Unless P (x >>= fun a => .ok (f a)) w :=
  (hx.bind (hw ▸ ok (f v))).congr (or_iff_left id)

/-- A part that is only made under a condition. -/
theorem ite {c : Prop} [Decidable c] {w : α} (hx : c → Unless P x v) :
    Unless (c ∧ P) (if c then x else .ok w) (if c then v else w) := by
  by_cases h : c
  · rw [if_pos h, if_pos h]
    exact (hx h).congr (and_iff_right h).symm
  · rw [if_neg h, if_neg h]
    exact (ok w).congr (iff_of_false id fun hc => h hc.1)

theorem eq_below_iff (h : Unless P x v) : x = .error .below ↔ P := by
  refine ⟨fun hx => ?_, h.below⟩
  by_contra hp
  rw [h.found hp] at hx
  exact nomatch hx

theorem eq_ok_iff (h : Unless P x v) : x = .ok v ↔ ¬P := by
  refine ⟨fun hx hp => ?_, h.found⟩
  rw [h.below hp] at hx
  exact nomatch hx

end Unless

end Ranged

/-! ## Slips -/

/-- Lines and columns of a span are 64-bit counters. -/
structure Span.Counters (span : Span) : Prop where
  firstLine : span.start.line < Emitter.counterValues
  lastLine : span.stop.line < Emitter.counterValues
  column : span.start.column < Emitter.counterValues

namespace Emitter

/-- The report of this diagnostic is part of that one. -/
inductive Shows (m : Emitter) : Diagnostic → Diagnostic → Prop
  | report (d : Diagnostic) : m.Shows d d
  | note {d e n : Diagnostic} (hrelated : m.showRelated = true) (hmem : e ∈ d.related)
      (hshows : m.Shows e n) : m.Shows d n

/-- Marks are wanted under a span of several lines that begins in column zero. -/
structure Slips (m : Emitter) (file : Option SourceFile) (span : Span) : Prop where
  source : m.showSource = true
  lines : 0 < m.maxLines
  shown : ∃ f ∈ file, f.lineText? span.start.line ≠ none
  several : span.start.line < span.stop.line
  column : span.start.column = 0

end Emitter

namespace Ranged

variable {m : Emitter} {file : SourceFile} {span : Span}

/-! ## Where a report slips -/

theorem markCount_unless (hcolumn : span.start.column < Emitter.counterValues) (lastLine : Nat)
    (line : String) :
    Unless (span.start.line ≠ lastLine ∧ span.start.column = 0) (markCount span lastLine line)
      (Emitter.markCount span lastLine line) := by
  unfold markCount Emitter.markCount
  by_cases hline : span.start.line = lastLine
  · rw [if_pos hline, if_pos hline]
    exact (Unless.ok _).congr (iff_of_false id fun h => h.1 hline)
  rw [if_neg hline, if_neg hline]
  -- from the first column on, the wrapped difference of the run is the one in range
  cases hlead : span.start.column with
  | zero => exact ⟨fun _ => rfl, fun h => absurd ⟨hline, rfl⟩ h⟩
  | succ lead =>
    rw [Emitter.counterBefore_succ (by omega), difference_eq (Nat.succ_pos lead)]
    exact (Unless.ok _).congr (iff_of_false id fun h => nomatch h.2)

theorem markLine_unless (hcolumn : span.start.column < Emitter.counterValues) (lastLine : Nat)
    (line : String) :
    Unless (span.start.line ≠ lastLine ∧ span.start.column = 0) (markLine m span lastLine line)
      (m.markLine span lastLine line) :=
  (markCount_unless hcolumn lastLine line).map rfl

/-- The lines behind the first are shown without a slip, as far as their numbers are counters. -/
theorem linesBehind_eq {lastLine count lead : Nat} (hlead : 0 < lead)
    (hlines : span.start.line + lead + count ≤ Emitter.counterValues) :
    linesBehind m file span lastLine lead count =
      .ok (m.linesFrom file (span.start.line + lead) count) := by
  induction count generalizing lead with
  | zero => rfl
  | succ count ih =>
    rw [linesBehind, sum_eq (by omega), ok_bind, Emitter.linesFrom]
    cases file.lineText? (span.start.line + lead) with
    | none => rfl
    | some line =>
      have hfurther := ih (Nat.succ_pos lead) (by omega)
      simp only [if_neg hlead.ne', pure_eq, ok_bind, hfurther, String.append_empty]
      rfl

theorem snippet_unless (m : Emitter) (file : SourceFile) (hspan : span.Counters)
    (hplace : span.start.line ≠ 0) :
    Unless (0 < m.maxLines ∧ file.lineText? span.start.line ≠ none ∧
        span.start.line < span.stop.line ∧ span.start.column = 0)
      (snippet m file span) (m.snippet file span) := by
  obtain ⟨hfirst, hlast, hcolumn⟩ := hspan
  have hrange : max span.stop.line span.start.line < Emitter.counterValues := max_lt hlast hfirst
  have hle : span.start.line ≤ max span.stop.line span.start.line := Nat.le_max_right ..
  have hseveral : span.start.line ≠ max span.stop.line span.start.line ↔
      span.start.line < span.stop.line := by omega
  unfold snippet Emitter.snippet
  dsimp only
  rw [difference_eq hle, ok_bind, sum_eq (by omega), ok_bind]
  cases hcount : min (max span.stop.line span.start.line - span.start.line + 1) m.maxLines with
  | zero => exact (Unless.ok _).congr (iff_of_false id fun h => by omega)
  | succ further =>
    -- only the first line has marks; behind it nothing slips
    rw [linesBehind, sum_eq (by omega), ok_bind, Nat.add_zero]
    cases file.lineText? span.start.line with
    | none => exact (Unless.ok _).congr (iff_of_false id fun h => h.2.1 rfl)
    | some line =>
      have hbehind : linesBehind m file span (max span.stop.line span.start.line) 1 further =
          .ok (m.linesFrom file (span.start.line + 1) further) :=
        linesBehind_eq Nat.one_pos (by omega)
      simp only [if_pos, hbehind, ok_bind, pure_eq]
      refine ((markLine_unless hcolumn _ line).map rfl).congr ?_
      rw [hseveral]
      exact ⟨fun h => ⟨by omega, nofun, h⟩, fun h => h.2.2⟩

theorem lines_unless (m : Emitter) (file : Option SourceFile) (hspan : span.Counters)
    (hplace : span.start.line ≠ 0) :
    Unless (m.Slips file span) (lines m span file)
      (match file with
        | some f => if m.showSource then m.snippet f span else ""
        | none => "") := by
  cases file with
  | none => exact (Unless.ok _).congr (iff_of_false id fun h => nomatch h.shown)
  | some f =>
    have hsnippet := Unless.ite (c := m.showSource = true) (w := "") fun _ =>
      snippet_unless m f hspan hplace
    refine hsnippet.congr ⟨fun h => ?_, fun h => ?_⟩
    · obtain ⟨hsource, hlines, hshown, hseveral, hcolumn⟩ := h
      exact ⟨hsource, hlines, ⟨f, rfl, hshown⟩, hseveral, hcolumn⟩
    · obtain ⟨hsource, hlines, ⟨_, hfile, hshown⟩, hseveral, hcolumn⟩ := h
      obtain rfl := Option.some.inj hfile
      exact ⟨hsource, hlines, hshown, hseveral, hcolumn⟩

theorem alone_unless (m : Emitter) (file : Option SourceFile) {d : Diagnostic}
    (hspans : ∀ span, d.place? = some span → span.Counters) :
    Unless (∃ span, d.place? = some span ∧ m.Slips file span) (alone m file d) (m.alone file d) := by
  unfold alone Emitter.alone
  cases hplace : d.place? with
  | none => exact (Unless.ok _).congr (iff_of_false id fun ⟨_, h, _⟩ => nomatch h)
  | some span =>
    have hline : span.start.line ≠ 0 := by
      have := (Option.filter_eq_some_iff.1 hplace).2
      simpa [Span.isNowhere] using this
    have hlines := lines_unless m file (hspans span hplace) hline
    refine ((hlines.map (f := (Emitter.location file span ++ ·)) rfl).map rfl).congr ?_
    exact ⟨fun h => ⟨span, rfl, h⟩, fun ⟨_, rfl, h⟩ => h⟩

end Ranged

namespace Emitter

/-- The spans that are shown, in a report and in the notes that follow it, are made of counters. -/
def InRange (m : Emitter) (d : Diagnostic) : Prop :=
  ∀ n span, m.Shows d n → n.place? = some span → span.Counters

/-- Some span that is shown slips. -/
def SomeSlips (m : Emitter) (file : Option SourceFile) (d : Diagnostic) : Prop :=
  ∃ n span, m.Shows d n ∧ n.place? = some span ∧ m.Slips file span

theorem shows_iff {m : Emitter} {d n : Diagnostic} :
    m.Shows d n ↔ n = d ∨ m.showRelated = true ∧ ∃ e ∈ d.related, m.Shows e n := by
  constructor
  · intro h
    cases h with
    | report => exact .inl rfl
    | note hrelated hmem hshows => exact .inr ⟨hrelated, _, hmem, hshows⟩
  · rintro (rfl | ⟨hrelated, e, hmem, hshows⟩)
    · exact .report _
    · exact .note hrelated hmem hshows

theorem someSlips_iff {m : Emitter} {file : Option SourceFile} {d : Diagnostic} :
    m.SomeSlips file d ↔ (∃ span, d.place? = some span ∧ m.Slips file span) ∨
      m.showRelated = true ∧ ∃ e ∈ d.related, m.SomeSlips file e := by
  constructor
  · rintro ⟨n, span, hshows, hplace, hslips⟩
    rcases shows_iff.1 hshows with rfl | ⟨hrelated, e, hmem, hshows⟩
    · exact .inl ⟨span, hplace, hslips⟩
    · exact .inr ⟨hrelated, e, hmem, n, span, hshows, hplace, hslips⟩
  · rintro (⟨span, hplace, hslips⟩ | ⟨hrelated, e, hmem, n, span, hshows, hplace, hslips⟩)
    · exact ⟨d, span, .report d, hplace, hslips⟩
    · exact ⟨n, span, .note hrelated hmem hshows, hplace, hslips⟩

end Emitter

namespace Ranged

variable {m : Emitter} {file : Option SourceFile}

mutual

/-- The report slips where a span that it shows does. -/
theorem render_unless : ∀ {d : Diagnostic}, m.InRange d →
    Unless (m.SomeSlips file d) (render m file d) (m.render file d)
  | .mk severity code message help span related, hspans => by
    have halone := alone_unless m file (d := .mk severity code message help span [])
      fun place hplace => hspans _ place (.report _) hplace
    have hnotes (hrelated : m.showRelated = true) : Unless (∃ e ∈ related, m.SomeSlips file e)
        (renderAll m file related) (m.renderAll file related) :=
      renderAll_unless fun e hmem n place hshows => hspans n place (.note hrelated hmem hshows)
    rw [render, Emitter.render]
    exact (halone.bind ((Unless.ite (w := "") hnotes).map rfl)).congr
      (Emitter.someSlips_iff (d := .mk severity code message help span related)).symm

/-- Reports one after another slip where one of them does. -/
theorem renderAll_unless : ∀ {ds : List Diagnostic}, (∀ d ∈ ds, m.InRange d) →
    Unless (∃ d ∈ ds, m.SomeSlips file d) (renderAll m file ds) (m.renderAll file ds)
  | [], _ => (Unless.ok _).congr (iff_of_false id fun ⟨_, hmem, _⟩ => nomatch hmem)
  | d :: ds, hspans => by
    have hd := render_unless (hspans d (List.mem_cons_self ..))
    have hds := renderAll_unless fun e hmem => hspans e (List.mem_cons_of_mem _ hmem)
    exact (hd.bind (hds.map rfl)).congr (List.exists_mem_cons_iff ..).symm

end

end Ranged

/-! ## Reports in range -/

/-- Sums and differences stay in range, for a report and the notes that follow it, unless some span that is
shown goes over several lines, begins in column zero and has its marks shown. Then a difference is below
the range; no sum is ever above it. A report made in range is the one that is printed. -/
theorem report_in_range_iff (m : Emitter) (file : Option SourceFile) (d : Diagnostic)
    (hspans : m.InRange d) :
    (Ranged.render m file d = .ok (m.render file d) ↔ ¬m.SomeSlips file d) ∧
      (Ranged.render m file d = .error .below ↔ m.SomeSlips file d) :=
  have h := Ranged.render_unless hspans
  ⟨h.eq_ok_iff, h.eq_below_iff⟩

/-- A note on both lines of a file, from column zero. -/
def columnZero : Diagnostic := .mk .hint "" "both lines" "" (some ⟨⟨1, 0, 0⟩, ⟨2, 3, 0⟩⟩) []

/-- The difference that the report of a note needs is below the range; what is printed has one mark under
the two characters of the first line. -/
theorem report_in_range_iff_note :
    let m : Emitter := { Emitter.default with useColors := false }
    let file : SourceFile := ⟨"main.shll", "ab\ncd"⟩
    let d : Diagnostic := .mk .error "" "see below" "" none [columnZero]
    m.InRange d ∧ Ranged.render m (some file) d = .error .below ∧
      m.render (some file) d = "error: see below\nhint: both lines\n --> main.shll:1:0\n" ++
        "   1 | ab\n     | ^\n   2 | cd\n" := by
  intro m file d
  have hspans : m.InRange d := by
    intro n span hshows hplace
    rcases Emitter.shows_iff.1 hshows with rfl | ⟨-, e, hmem, hshows⟩
    · exact nomatch hplace
    obtain rfl := List.mem_singleton.1 hmem
    rcases Emitter.shows_iff.1 hshows with rfl | ⟨-, e, hmem, -⟩
    · obtain rfl := Option.some.inj hplace
      constructor <;> decide
    · exact nomatch hmem
  have hnote : m.Shows d columnZero := .note rfl (List.mem_singleton_self _) (.report _)
  refine ⟨hspans, ?_, by decide +kernel⟩
  exact (report_in_range_iff m (some file) d hspans).2.2
    ⟨columnZero, _, hnote, rfl, rfl, by decide, ⟨file, rfl, by decide +kernel⟩, by decide, rfl⟩

/-- Where the column before the first is needed and there is none, the largest counter is taken for it: one
character is marked, however long the line is. -/
theorem markCount_of_slip {span : Span} {lastLine : Nat} {line : String}
    (hline : span.start.line ≠ lastLine) (hcolumn : span.start.column = 0)
    (hlength : line.length < Emitter.counterValues) : Emitter.markCount span lastLine line = 1 := by
  have hbefore : Emitter.counterBefore 0 = Emitter.counterValues - 1 := by decide
  rw [Emitter.markCount, if_neg hline, hcolumn, hbefore]
  omega

/-! ## Reports of the front end -/

/-- The report of an error in a source is made in range. -/
theorem sourceError_in_range (m : Emitter) (file : SourceFile) (e : SourceError)
    (hsize : file.size + 1 < Emitter.counterValues) :
    Ranged.render m (some file) (.ofSourceError file e) =
      .ok (m.render (some file) (.ofSourceError file e)) := by
  have hshown : ∀ n span, m.Shows (.ofSourceError file e) n → n.place? = some span →
      span = file.spanOf e.position.offset (e.position.offset + Text.byteSize e.text.toList) := by
    intro n span hshows hplace
    have hrelated : (Diagnostic.ofSourceError file e).related = [] := by cases e <;> rfl
    rcases Emitter.shows_iff.1 hshows with rfl | ⟨-, e', hmem, -⟩
    · have hspan := (Option.filter_eq_some_iff.1 hplace).1
      rw [span_ofSourceError] at hspan
      exact (Option.some.inj hspan).symm
    · rw [hrelated] at hmem
      exact nomatch hmem
  have hspans : m.InRange (.ofSourceError file e) := by
    intro n span hshows hplace
    obtain rfl := hshown n span hshows hplace
    have hstart := file.positionAt_bounds e.position.offset
    have hstop := file.positionAt_bounds (e.position.offset + Text.byteSize e.text.toList)
    exact ⟨hstart.2.2.trans_lt hsize, hstop.2.2.trans_lt hsize, hstart.2.1.trans_lt hsize⟩
  refine (Ranged.render_unless hspans).found ?_
  rintro ⟨n, span, hshows, hplace, hslips⟩
  obtain rfl := hshown n span hshows hplace
  exact absurd hslips.column (file.positionAt_bounds e.position.offset).1.ne'

end TermLang
