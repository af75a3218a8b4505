import TermLang.Dump.Format
import TermLang.Dump.JsonReader
import TermLang.Dump.Reading
import TermLang.Proofs.JsonText

/-!
# Dumps lose nothing

Both texts of a program denote its JSON value and no other, and the value describes the program and no
other. So whatever reads the tagged form reads a program back from either text, unless the value is
deeper than its limit, and a dump tells a program apart from all others.
-/

namespace TermLang

theorem Json.denotes_compact_iff {i j : Json} : Json.Denotes j.compact i ↔ i = j :=
  ⟨fun h => h.unique j.denotes_compact, fun h => h ▸ j.denotes_compact⟩

theorem Json.denotes_pretty_iff {i j : Json} : Json.Denotes j.pretty i ↔ i = j :=
  ⟨fun h => h.unique j.denotes_pretty, fun h => h ▸ j.denotes_pretty⟩

/-! ## Readers -/

/-- What a reader reads from a text of a program is the program, and it reads it just if the limit
lets the value pass. -/
theorem DumpReader.Documented.program_eq_some_iff {r : DumpReader} (h : r.Documented) {p q : Program}
    {text : String} (htext : Json.Denotes text p.json) :
    r.program text = some q ↔ q = p ∧ r.Admits p.json := by
  by_cases hadmits : r.Admits p.json
  · rw [h.within p text htext hadmits, h.tagged.program_eq, Option.some.injEq]
    exact ⟨fun hq => ⟨hq.symm, hadmits⟩, fun hq => hq.1.symm⟩
  · rw [h.beyond p text htext hadmits]
    exact ⟨nofun, fun hq => absurd hq.2 hadmits⟩

/-! ## Dumps -/

/-- The compact text and the dump of a program denote one JSON value, that of the program. A documented
reader of dumps reads the program and nothing else from both, if no more arrays and objects are open
inside one another than it allows, and it reads nothing otherwise; a reader without a limit reads every
program back. No other program has either text. -/
theorem Program.json_dumps_lossless (r : DumpReader) (h : r.Documented) (p : Program)
    (width : Nat) :
    ∃ text, p.render .json width = .ok text ∧
      (∀ j, (Json.Denotes p.json.compact j ↔ j = p.json) ∧ (Json.Denotes text j ↔ j = p.json)) ∧
      ∀ q : Program,
        (r.program p.json.compact = some q ↔ q = p ∧ r.Admits p.json) ∧
        (r.program text = some q ↔ q = p ∧ r.Admits p.json) ∧
        (q.json.compact = p.json.compact ↔ q = p) ∧ (q.render .json width = .ok text ↔ q = p) := by
  refine ⟨p.json.pretty, rfl, fun j => ⟨Json.denotes_compact_iff, Json.denotes_pretty_iff⟩,
    fun q => ⟨h.program_eq_some_iff p.json.denotes_compact,
      h.program_eq_some_iff p.json.denotes_pretty, compact_json_eq_iff, ?_⟩⟩
  show Except.ok q.json.pretty = Except.ok p.json.pretty ↔ q = p
  rw [Except.ok.injEq, pretty_json_eq_iff]

/-! ## A reader with a limit -/

/-- The reader that takes a text apart and describes its value, up to a limit. -/
def DumpReader.upTo (limit : Option Nat) : DumpReader where
  limit
  program text := do
    let j ← Json.read? text
    if ∀ n ∈ limit, j.openings ≤ n then Program.ofJson? j else none
  term := Term.ofJson?

theorem DumpReader.documented_upTo (limit : Option Nat) : (upTo limit).Documented where
  within p text htext hadmits := by
    have hlimit : ∀ n ∈ limit, p.json.openings ≤ n := hadmits
    have hterms := Decode.tagged_ofJson?.program_eq p
    simp only [upTo, htext.read?_eq, Option.bind_eq_bind, Option.bind_some, if_pos hlimit,
      p.ofJson?_json, hterms]
  beyond p text htext hadmits := by
    have hlimit : ¬∀ n ∈ limit, p.json.openings ≤ n := hadmits
    simp only [upTo, htext.read?_eq, Option.bind_eq_bind, Option.bind_some, if_neg hlimit]
  tagged := Decode.tagged_ofJson?

/-- A name in so many blocks. -/
def Term.blocks : Nat → Term
  | 0 => .ident "a"
  | n + 1 => .block [blocks n]

/-- A block is an object with an array in it. -/
theorem Term.openings_blocks (n : Nat) : (blocks n).json.openings = 2 * n + 1 := by
  induction n with
  | zero => rfl
  | succ n ih =>
    rw [json] at ih
    simp only [blocks, json, tree, termsTree, Json.ofTree, Json.ofItems, Json.openings,
      Json.itemsOpenings, Json.entriesOpenings, ih]
    omega

/-- A program of a name in so many blocks. -/
def blocksProgram (n : Nat) : Program := ⟨[.blocks n]⟩

theorem openings_blocksProgram (n : Nat) : (blocksProgram n).json.openings = 2 * n + 3 := by
  have h := Term.openings_blocks n
  rw [Term.json] at h
  simp only [blocksProgram, Program.json, Program.tree, termsTree, Json.ofTree, Json.ofEntries,
    Json.ofItems, Json.openings, Json.itemsOpenings, Json.entriesOpenings, h]
  omega

/-- A reader that lets 127 arrays and objects be open inside one another reads 62 blocks back, and one
block more only a reader without a limit. -/
theorem Program.json_dumps_lossless_blocks :
    (DumpReader.upTo (some 127)).Documented ∧ (DumpReader.upTo none).Documented ∧
    (DumpReader.upTo (some 127)).program (blocksProgram 62).json.compact =
      some (blocksProgram 62) ∧
    (DumpReader.upTo (some 127)).program (blocksProgram 63).json.compact = none ∧
    (DumpReader.upTo none).program (blocksProgram 63).json.compact = some (blocksProgram 63) := by
  have limited := DumpReader.documented_upTo (some 127)
  have unlimited := DumpReader.documented_upTo none
  obtain ⟨_, -, -, h62⟩ := json_dumps_lossless _ limited (blocksProgram 62) 0
  obtain ⟨_, -, -, h63⟩ := json_dumps_lossless _ limited (blocksProgram 63) 0
  obtain ⟨_, -, -, hfree⟩ := json_dumps_lossless _ unlimited (blocksProgram 63) 0
  refine ⟨limited, unlimited, (h62 _).1.2 ⟨rfl, ?_⟩,
    Option.eq_none_iff_forall_ne_some.2 fun q hq => ?_, (hfree _).1.2 ⟨rfl, nofun⟩⟩
  · rintro _ ⟨⟩
    exact Nat.le_of_eq (openings_blocksProgram 62)
  · have hadmits := ((h63 q).1.1 hq).2 127 rfl
    rw [openings_blocksProgram] at hadmits
    exact absurd hadmits (by decide)

/-- Every alternative is an object with its label as the only name. -/
example : (Term.forever [.ident "a"]).json =
    .object [("For", .object [("Loop", .object [("body",
      .array [.object [("Ident", .string "a")]])])])] := rfl

end TermLang
