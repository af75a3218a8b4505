import TermLang.Proofs.Decoded
import TermLang.Proofs.JsonNumbers

/-!
# JSON text and its value

Both layouts of a value are texts that denote it (`denotes_compact`, `denotes_pretty`). A text that
denotes a value is read as that value whatever blanks and escapes it has (`Denotes.read?_eq`), so it
denotes no other (`Denotes.unique`). The texts of a program therefore tell it apart from all others
(`Program.same_iff`).
-/

namespace TermLang

namespace Json

open Text (ofDigits)

/-! ## Blanks -/

theorem blank_nil : Blank [] := List.forall_mem_nil _

theorem dropBlanks_append {bs : List Char} (h : Blank bs) (cs : List Char) :
    dropBlanks (bs ++ cs) = dropBlanks cs := List.dropWhile_append_of_pos h

theorem dropBlanks_cons {c : Char} (h : isBlank c = false) (cs : List Char) :
    dropBlanks (c :: cs) = c :: cs := by
  rw [dropBlanks, List.dropWhile_cons_of_neg (by simp [h])]

theorem readWithin_blanks {bs : List Char} (h : Blank bs) (levels : Nat) (cs : List Char) :
    readWithin levels (bs ++ cs) = readWithin levels cs := by
  cases levels with
  | zero => rfl
  | succ levels => rw [readWithin, readValue, readValue, dropBlanks_append h]

theorem readEntry_blanks {bs : List Char} (h : Blank bs) (value : Reader Json) (cs : List Char) :
    readEntry value (bs ++ cs) = readEntry value cs := by
  rw [readEntry, readEntry, dropBlanks_append h]

/-- The rest starts with a mark that may stand behind a value, or there is no rest. -/
def AtMark (rest : List Char) : Prop := ∀ c ∈ rest.head?, c ∈ [',', ']', '\x7d']

theorem atMark_nil : AtMark [] := by simp [AtMark]

theorem atMark_cons {c : Char} (h : c ∈ [',', ']', '\x7d']) (rest : List Char) :
    AtMark (c :: rest) := by
  rintro d ⟨⟩
  exact h

theorem AtMark.dropBlanks_eq {rest : List Char} (h : AtMark rest) : dropBlanks rest = rest := by
  cases rest with
  | nil => rfl
  | cons c rest =>
    have hc := h c rfl
    simp only [List.mem_cons, List.not_mem_nil, or_false] at hc
    rcases hc with rfl | rfl | rfl <;> exact dropBlanks_cons rfl rest

theorem AtMark.endsNumber {rest : List Char} (h : AtMark rest) : EndsNumber rest := by
  intro c hc
  have hmark := h c hc
  simp only [List.mem_cons, List.not_mem_nil, or_false] at hmark
  rcases hmark with rfl | rfl | rfl <;> decide

/-- A number ends at a blank and at a mark. -/
theorem AtMark.endsNumber_blanks {rest : List Char} (h : AtMark rest) {bs : List Char}
    (hbs : Blank bs) : EndsNumber (bs ++ rest) := by
  cases bs with
  | nil => exact h.endsNumber
  | cons b bs =>
    rintro c ⟨⟩
    have hb := hbs b (List.mem_cons_self ..)
    simp only [isBlank, Bool.or_eq_true, decide_eq_true_eq] at hb
    rcases hb with ((rfl | rfl) | rfl) | rfl <;> decide

/-! ## Strings -/

section

variable {text rest : List Char} {c : Char} {bound : Nat}

theorem IsHex.readHex_eq {digits : List Char} {n : Nat} (h : IsHex digits n) (rest : List Char) :
    readHex (digits ++ rest) = some (n, rest) := by
  match digits, h with
  | [a, b, c, d], ⟨_, hdigits, hvalue⟩ =>
    simp only [List.cons_append, List.nil_append, readHex, hdigits, hvalue, if_true]

/-- No code unit of a character is one of a pair. -/
theorem readCodePoint_unit {digits : List Char} (h : IsHex digits c.toNat) (rest : List Char) :
    readCodePoint (digits ++ rest) = some (c, rest) := by
  have hvalid : c.toNat < 0xd800 ∨ 0xdfff < c.toNat ∧ c.toNat < 0x110000 := c.valid
  have hhigh : ¬ (0xd800 ≤ c.toNat ∧ c.toNat < 0xdc00) := by omega
  have hlow : ¬ (0xdc00 ≤ c.toNat ∧ c.toNat < 0xe000) := by omega
  simp [readCodePoint, h.readHex_eq, hhigh, hlow, Char.ofNat_toNat]

theorem readCodePoint_pair {high low : List Char} {m n : Nat} (hhigh : IsHex high (0xd800 + m))
    (hlow : IsHex low (0xdc00 + n)) (hm : m < 0x400) (hn : n < 0x400)
    (hc : c.toNat = 0x10000 + m * 0x400 + n) (rest : List Char) :
    readCodePoint (high ++ '\\' :: 'u' :: (low ++ rest)) = some (c, rest) := by
  have hm' : 0xd800 ≤ 0xd800 + m ∧ 0xd800 + m < 0xdc00 := by omega
  have hn' : 0xdc00 ≤ 0xdc00 + n ∧ 0xdc00 + n < 0xe000 := by omega
  have hvalue : 0x10000 + (0xd800 + m - 0xd800) * 0x400 + (0xdc00 + n - 0xdc00) = c.toNat := by
    rw [hc, Nat.add_sub_cancel_left, Nat.add_sub_cancel_left]
  simp only [readCodePoint, hhigh.readHex_eq, hlow.readHex_eq, Option.bind_eq_bind,
    Option.bind_some, if_pos hm', if_pos hn', hvalue, Char.ofNat_toNat, Option.pure_def]

theorem readCharsWithin_escape {cs tail chars : List Char}
    (hescape : readEscape tail = some (c, cs)) (hcs : readCharsWithin bound cs = some (chars, rest)) :
    readCharsWithin (bound + 1) ('\\' :: tail) = some (c :: chars, rest) := by
  simp [readCharsWithin, hescape, hcs]

/-- A character counts as one towards the bound, however it is spelled. -/
theorem SpellsChar.readCharsWithin_eq {cs chars : List Char} (hc : SpellsChar cs c)
    (htext : readCharsWithin bound text = some (chars, rest)) :
    readCharsWithin (bound + 1) (cs ++ text) = some (c :: chars, rest) := by
  cases hc with
  | plain hquote hbackslash hcontrol =>
    simp [readCharsWithin, hquote, hbackslash, hcontrol, htext]
  | named h =>
    simp only [escapes, List.mem_cons, Prod.mk.injEq, List.not_mem_nil, or_false] at h
    rcases h with ⟨rfl, rfl⟩ | ⟨rfl, rfl⟩ | ⟨rfl, rfl⟩ | ⟨rfl, rfl⟩ | ⟨rfl, rfl⟩ | ⟨rfl, rfl⟩ |
      ⟨rfl, rfl⟩ | ⟨rfl, rfl⟩ <;> exact readCharsWithin_escape rfl htext
  | unit h => exact readCharsWithin_escape (readCodePoint_unit h text) htext
  | @pair high low m n _ hhigh hlow hm hn hvalue =>
    have hread := readCodePoint_pair hhigh hlow hm hn hvalue text
    rw [← List.cons_append, ← List.cons_append, ← List.append_assoc] at hread
    exact readCharsWithin_escape hread htext

theorem SpellsChars.readCharsWithin_eq {chars : List Char} (h : SpellsChars text chars rest)
    (hbound : chars.length < bound) : readCharsWithin bound text = some (chars, rest) := by
  induction h generalizing bound with
  | close rest =>
    obtain ⟨bound, rfl⟩ := Nat.exists_eq_add_of_lt hbound
    simp [readCharsWithin]
  | cons hc _ ih =>
    obtain ⟨bound, rfl⟩ := Nat.exists_eq_add_of_le' (Nat.one_le_of_lt hbound)
    exact hc.readCharsWithin_eq (ih (Nat.lt_of_succ_lt_succ hbound))

theorem SpellsChar.ne_nil {cs : List Char} (h : SpellsChar cs c) : cs ≠ [] := by
  cases h <;> exact List.cons_ne_nil _ _

/-- Every character and the closing quote take a character of the text. -/
theorem SpellsChars.length_add_lt {chars : List Char} (h : SpellsChars text chars rest) :
    chars.length + rest.length < text.length := by
  induction h with
  | close rest =>
    rw [List.length_nil, List.length_cons]
    omega
  | cons hc _ ih =>
    have := List.length_pos_iff.2 hc.ne_nil
    rw [List.length_append, List.length_cons]
    omega

/-- A string behind its opening quote. -/
theorem SpellsChars.readString_eq {s : String} (h : SpellsChars text s.toList rest) :
    readString text = some (s, rest) := by
  have hlength := h.length_add_lt
  have hchars := h.readCharsWithin_eq (show s.toList.length < text.length + 1 by omega)
  simp [readString, hchars, String.ofList_toList]

end

/-! ### Escaped strings -/

/-- The two hexadecimal digits that tell the control characters apart. -/
def controlDigits (n : Nat) : List Char :=
  ['0', '0', Nat.digitChar (n / 16), Nat.digitChar (n % 16)]

theorem controlEscape_eq : ∀ n < 0x20,
    controlEscape (Char.ofNat n) = '\\' :: 'u' :: controlDigits n := by decide

theorem isDigitOf_controlDigits : ∀ n < 0x20,
    (controlDigits n).all (Text.isDigitOf 16) = true := by decide

theorem ofDigits_controlDigits : ∀ n < 0x20, ofDigits 16 (controlDigits n) = n := by decide

theorem spellsChar_controlEscape {c : Char} (h : c.toNat < 0x20) :
    SpellsChar (controlEscape c) c := by
  have htext := controlEscape_eq c.toNat h
  rw [Char.ofNat_toNat] at htext
  rw [htext]
  exact .unit ⟨rfl, isDigitOf_controlDigits c.toNat h, ofDigits_controlDigits c.toNat h⟩

theorem spellsChar_escapeChar (c : Char) : SpellsChar (escapeChar c) c := by
  unfold escapeChar
  split_ifs with hquote hbackslash hb hf hn hr ht hcontrol
  · exact .named (by rw [hquote]; decide)
  · exact .named (by rw [hbackslash]; decide)
  · exact .named (by rw [hb]; decide)
  · exact .named (by rw [hf]; decide)
  · exact .named (by rw [hn]; decide)
  · exact .named (by rw [hr]; decide)
  · exact .named (by rw [ht]; decide)
  · exact spellsChar_controlEscape hcontrol
  · exact .plain hquote hbackslash hcontrol

theorem spellsChars_flatMap (chars rest : List Char) :
    SpellsChars (chars.flatMap escapeChar ++ '"' :: rest) chars rest := by
  induction chars with
  | nil => exact .close rest
  | cons c chars ih =>
    rw [List.flatMap_cons, List.append_assoc]
    exact .cons (spellsChar_escapeChar c) ih

/-! ## Texts of values -/

section

variable {text rest : List Char} {j : Json} {levels : Nat}

/-- A value starts with a character that neither is a blank nor closes a bracket. -/
def StartsValue (cs : List Char) : Prop :=
  ∃ c tail, cs = c :: tail ∧ isBlank c = false ∧ c ≠ ']' ∧ c ≠ '\x7d'

theorem startsValue_of_digit {d : Char} (hd : d.isDigit = true) (tail : List Char) :
    StartsValue (d :: tail) := by
  refine ⟨d, tail, rfl, ?_, ?_, ?_⟩
  · by_contra hb
    simp only [isBlank, Bool.or_eq_true, decide_eq_true_eq, Bool.not_eq_false] at hb
    rcases hb with ((rfl | rfl) | rfl) | rfl <;> exact absurd hd (by decide)
  · rintro rfl
    exact absurd hd (by decide)
  · rintro rfl
    exact absurd hd (by decide)

theorem startsValue_of_readNumber {cs : List Char} {r : Json × List Char}
    (h : readNumber cs = some r) : StartsValue cs := by
  unfold readNumber at h
  split at h
  · exact ⟨'-', _, rfl, by decide⟩
  · obtain ⟨d, tail, rfl, hd⟩ := digit_of_readMagnitude h
    exact startsValue_of_digit hd tail

theorem Spells.startsValue (h : Spells text j rest) (hrest : EndsNumber rest) :
    StartsValue text := by
  cases h with
  | null => exact ⟨'n', _, rfl, by decide⟩
  | bool b => cases b <;> exact ⟨_, _, rfl, by decide⟩
  | int n => exact startsValue_of_readNumber (readNumber_int n hrest)
  | decimal x => exact startsValue_of_readNumber (readNumber_decimal x hrest)
  | string => exact ⟨'"', _, rfl, by decide⟩
  | emptyArray | array => exact ⟨'[', _, rfl, by decide⟩
  | emptyObject | object => exact ⟨'\x7b', _, rfl, by decide⟩

/-- Blanks in front of a value are no part of it. -/
theorem SpellsPadded.exists_start (h : SpellsPadded text j rest) (hrest : AtMark rest) :
    ∃ before tail, text = before ++ tail ∧ Blank before ∧ StartsValue tail ∧
      SpellsPadded tail j rest := by
  obtain ⟨hbefore, hj, hafter⟩ := h
  exact ⟨_, _, rfl, hbefore, hj.startsValue (hrest.endsNumber_blanks hafter),
    .mk blank_nil hj hafter⟩

theorem SpellsItems.exists_start {js : List Json} (h : SpellsItems text js rest) :
    ∃ before tail, text = before ++ tail ∧ Blank before ∧ StartsValue tail ∧
      SpellsItems tail js rest := by
  cases h with
  | last hj =>
    obtain ⟨before, tail, rfl, hbefore, hstart, hj⟩ := hj.exists_start (atMark_cons (by simp) _)
    exact ⟨before, tail, rfl, hbefore, hstart, .last hj⟩
  | cons hj hjs =>
    obtain ⟨before, tail, rfl, hbefore, hstart, hj⟩ := hj.exists_start (atMark_cons (by simp) _)
    exact ⟨before, tail, rfl, hbefore, hstart, .cons hj hjs⟩

theorem SpellsEntry.exists_start {e : String × Json} (h : SpellsEntry text e rest) :
    ∃ before tail, text = before ++ '"' :: tail ∧ Blank before ∧ SpellsEntry ('"' :: tail) e rest := by
  obtain ⟨hbefore, hname, hafter, hj⟩ := h
  exact ⟨_, _, rfl, hbefore, .mk blank_nil hname hafter hj⟩

theorem SpellsEntries.exists_start {es : List (String × Json)} (h : SpellsEntries text es rest) :
    ∃ before tail, text = before ++ '"' :: tail ∧ Blank before ∧
      SpellsEntries ('"' :: tail) es rest := by
  cases h with
  | last he =>
    obtain ⟨before, tail, rfl, hbefore, he⟩ := he.exists_start
    exact ⟨before, tail, rfl, hbefore, .last he⟩
  | cons he hes =>
    obtain ⟨before, tail, rfl, hbefore, he⟩ := he.exists_start
    exact ⟨before, tail, rfl, hbefore, .cons he hes⟩

/-! ### Bounds -/

mutual

/-- Every value takes a character of its own, so the text is no shorter than the value is deep. -/
theorem Spells.depth_add_length_le {text rest : List Char} {j : Json} :
    Spells text j rest → j.depth + rest.length ≤ text.length
  | .null rest => by
    simp only [depth, List.length_append]
    exact Nat.add_le_add_right (by decide) _
  | .bool b rest => by
    simp only [depth, putBool, List.length_append]
    cases b <;> exact Nat.add_le_add_right (by decide) _
  | .int n rest => by
    have := List.length_pos_iff.2 (Text.decimalDigits_ne_nil n.natAbs)
    simp only [depth, putInt, List.length_append]
    omega
  | .decimal x rest => by
    obtain ⟨c, tail, htext, -⟩ := startsValue_of_readNumber (readNumber_decimal x endsNumber_nil)
    have := congrArg List.length htext
    simp only [depth, List.length_append, List.length_cons, List.length_nil] at this ⊢
    omega
  | .string hs => by
    have := hs.length_add_lt
    simp only [depth, List.length_cons]
    omega
  | .emptyArray _ rest => by
    simp only [depth, itemsDepth, List.length_append, List.length_cons]
    omega
  | .array hjs => by
    have := hjs.depth_add_length_le
    simp only [depth, List.length_cons]
    omega
  | .emptyObject _ rest => by
    simp only [depth, entriesDepth, List.length_append, List.length_cons]
    omega
  | .object hes => by
    have := hes.depth_add_length_le
    simp only [depth, List.length_cons]
    omega

theorem SpellsPadded.depth_add_length_le {text rest : List Char} {j : Json} :
    SpellsPadded text j rest → j.depth + rest.length ≤ text.length
  | .mk _ hj _ => by
    have := hj.depth_add_length_le
    simp only [List.length_append] at this ⊢
    omega

theorem SpellsItems.depth_add_length_le {text rest : List Char} {js : List Json} :
    SpellsItems text js rest → max js.length (itemsDepth js) + rest.length ≤ text.length
  | .last hj => by
    have := hj.depth_add_length_le
    simp only [itemsDepth, List.length_cons, List.length_nil] at this ⊢
    omega
  | .cons hj hjs => by
    have := hj.depth_add_length_le
    have := hjs.depth_add_length_le
    simp only [itemsDepth, List.length_cons] at *
    omega

theorem SpellsEntry.depth_add_length_le {text rest : List Char} {e : String × Json} :
    SpellsEntry text e rest → e.2.depth + rest.length ≤ text.length
  | .mk _ hname _ hj => by
    have := hname.length_add_lt
    have := hj.depth_add_length_le
    simp only [List.length_append, List.length_cons] at *
    omega

theorem SpellsEntries.depth_add_length_le {text rest : List Char} {es : List (String × Json)} :
    SpellsEntries text es rest → max es.length (entriesDepth es) + rest.length ≤ text.length
  | .last he => by
    have := he.depth_add_length_le
    simp only [entriesDepth, List.length_cons, List.length_nil] at this ⊢
    omega
  | .cons he hes => by
    have := he.depth_add_length_le
    have := hes.depth_add_length_le
    simp only [entriesDepth, List.length_cons] at *
    omega

end

/-! ### Arrays and objects -/

theorem readValue_of_readNumber {value : Reader Json} {cs : List Char} {r : Json × List Char}
    (h : readNumber cs = some r) : readValue value cs = some r := by
  obtain ⟨c, tail, hcs, hb, -⟩ := startsValue_of_readNumber h
  have hdrop : dropBlanks cs = cs := by rw [hcs, dropBlanks_cons hb]
  unfold readValue
  rw [hdrop]
  split <;> first | exact h | exact absurd h (Option.some_ne_none r).symm

theorem readValue_string {value : Reader Json} {s : String} (hs : SpellsChars text s.toList rest) :
    readValue value ('"' :: text) = some (.string s, rest) := by
  have h : readValue value ('"' :: text) = (readString text).map fun r => (.string r.1, r.2) := rfl
  rw [h, hs.readString_eq]
  rfl

end

section

variable {value : Reader Json} {bs cs rest : List Char}

theorem readValue_array (cs : List Char) :
    readValue value ('[' :: cs) =
      match dropBlanks cs with
      | ']' :: rest => some (.array [], rest)
      | rest => (readItemsWithin value rest.length rest).map fun r => (.array r.1, r.2) := rfl

theorem readValue_object (cs : List Char) :
    readValue value ('\x7b' :: cs) =
      match dropBlanks cs with
      | '\x7d' :: rest => some (.object [], rest)
      | rest => (readEntriesWithin value rest.length rest).map fun r => (.object r.1, r.2) := rfl

theorem readValue_emptyArray (hbs : Blank bs) :
    readValue value ('[' :: (bs ++ ']' :: rest)) = some (.array [], rest) := by
  rw [readValue_array, dropBlanks_append hbs, dropBlanks_cons rfl]
  rfl

theorem readValue_emptyObject (hbs : Blank bs) :
    readValue value ('\x7b' :: (bs ++ '\x7d' :: rest)) = some (.object [], rest) := by
  rw [readValue_object, dropBlanks_append hbs, dropBlanks_cons rfl]
  rfl

theorem readValue_items (hbs : Blank bs) (hcs : StartsValue cs) :
    readValue value ('[' :: (bs ++ cs)) =
      (readItemsWithin value cs.length cs).map fun r => (.array r.1, r.2) := by
  obtain ⟨c, tail, rfl, hb, hclose, -⟩ := hcs
  rw [readValue_array, dropBlanks_append hbs, dropBlanks_cons hb]
  split
  · rename_i heq
    exact absurd (List.cons.inj heq).1 hclose
  · rfl

theorem readValue_entries (hbs : Blank bs) (cs : List Char) :
    readValue value ('\x7b' :: (bs ++ '"' :: cs)) =
      (readEntriesWithin value ('"' :: cs).length ('"' :: cs)).map
        fun r => (.object r.1, r.2) := by
  rw [readValue_object, dropBlanks_append hbs]
  rfl

theorem readEntry_of_value {before chars after : List Char} {name : String}
    (hbefore : Blank before) (hname : SpellsChars chars name.toList (after ++ ':' :: cs))
    (hafter : Blank after) {j : Json} (hj : value cs = some (j, rest)) :
    readEntry value (before ++ '"' :: chars) = some ((name, j), rest) := by
  have hquote : dropBlanks (before ++ '"' :: chars) = '"' :: chars := dropBlanks_append hbefore _
  have hcolon : dropBlanks (after ++ ':' :: cs) = ':' :: cs := dropBlanks_append hafter _
  simp only [readEntry, hquote, hname.readString_eq, hcolon, hj, Option.bind_eq_bind,
    Option.bind_some, Option.pure_def]

variable {bound : Nat} {mid tail : List Char}

theorem readItemsWithin_last {j : Json} (hj : value cs = some (j, mid))
    (hclose : dropBlanks mid = ']' :: rest) :
    readItemsWithin value (bound + 1) cs = some ([j], rest) := by
  simp only [readItemsWithin, hj, hclose, Option.bind_eq_bind, Option.bind_some, Option.pure_def]

theorem readItemsWithin_cons {j : Json} {js : List Json} (hj : value cs = some (j, mid))
    (hcomma : dropBlanks mid = ',' :: tail)
    (hjs : readItemsWithin value bound tail = some (js, rest)) :
    readItemsWithin value (bound + 1) cs = some (j :: js, rest) := by
  simp only [readItemsWithin, hj, hcomma, hjs, Option.bind_eq_bind, Option.bind_some,
    Option.pure_def]

theorem readEntriesWithin_last {e : String × Json} (he : readEntry value cs = some (e, mid))
    (hclose : dropBlanks mid = '\x7d' :: rest) :
    readEntriesWithin value (bound + 1) cs = some ([e], rest) := by
  simp only [readEntriesWithin, he, hclose, Option.bind_eq_bind, Option.bind_some, Option.pure_def]

theorem readEntriesWithin_cons {e : String × Json} {es : List (String × Json)}
    (he : readEntry value cs = some (e, mid)) (hcomma : dropBlanks mid = ',' :: tail)
    (hes : readEntriesWithin value bound tail = some (es, rest)) :
    readEntriesWithin value (bound + 1) cs = some (e :: es, rest) := by
  simp only [readEntriesWithin, he, hcomma, hes, Option.bind_eq_bind, Option.bind_some,
    Option.pure_def]

end

theorem readItemsWithin_blanks {bs : List Char} (hbs : Blank bs) (levels bound : Nat)
    (cs : List Char) :
    readItemsWithin (readWithin levels) bound (bs ++ cs) =
      readItemsWithin (readWithin levels) bound cs := by
  cases bound with
  | zero => rfl
  | succ bound => rw [readItemsWithin, readItemsWithin, readWithin_blanks hbs]

theorem readEntriesWithin_blanks {bs : List Char} (hbs : Blank bs) (value : Reader Json)
    (bound : Nat) (cs : List Char) :
    readEntriesWithin value bound (bs ++ cs) = readEntriesWithin value bound cs := by
  cases bound with
  | zero => rfl
  | succ bound => rw [readEntriesWithin, readEntriesWithin, readEntry_blanks hbs]

/-! ## Values read -/

/-- Whatever the levels, one is left for the value itself. -/
theorem readWithin_of_readValue {text rest : List Char} {j : Json} {levels : Nat}
    (hdepth : j.depth ≤ levels)
    (h : ∀ n, levels = n + 1 → readValue (readWithin n) text = some (j, rest)) :
    readWithin levels text = some (j, rest) := by
  have hpos := j.depth_pos
  obtain ⟨n, rfl⟩ : ∃ n, levels = n + 1 := ⟨levels - 1, by omega⟩
  exact h n rfl

/-- The bound on items is the length of their text, and so never runs out. -/
theorem readValue_array_of_items {text rest : List Char} {js : List Json} {levels : Nat}
    (hjs : SpellsItems text js rest)
    (hread : ∀ bound, js.length ≤ bound →
      readItemsWithin (readWithin levels) bound text = some (js, rest)) :
    readValue (readWithin levels) ('[' :: text) = some (.array js, rest) := by
  obtain ⟨before, tail, rfl, hbefore, hstart, htail⟩ := hjs.exists_start
  have hlength := htail.depth_add_length_le
  have hitems := hread tail.length (by omega)
  rw [readItemsWithin_blanks hbefore] at hitems
  rw [readValue_items hbefore hstart, hitems]
  rfl

theorem readValue_object_of_entries {text rest : List Char} {es : List (String × Json)}
    {value : Reader Json} (hes : SpellsEntries text es rest)
    (hread : ∀ bound, es.length ≤ bound →
      readEntriesWithin value bound text = some (es, rest)) :
    readValue value ('\x7b' :: text) = some (.object es, rest) := by
  obtain ⟨before, tail, rfl, hbefore, htail⟩ := hes.exists_start
  have hlength := htail.depth_add_length_le
  have hentries := hread ('"' :: tail).length (by omega)
  rw [readEntriesWithin_blanks hbefore] at hentries
  rw [readValue_entries hbefore, hentries]
  rfl

mutual

-- The induction is on how the text is made up; the depth of a value bounds the levels it takes.
theorem Spells.readWithin_eq {text rest : List Char} {j : Json} {levels : Nat} :
    Spells text j rest → j.depth ≤ levels → EndsNumber rest →
      readWithin levels text = some (j, rest)
  | .null _, hdepth, _ => readWithin_of_readValue hdepth fun _ _ => rfl
  | .bool true _, hdepth, _ => readWithin_of_readValue hdepth fun _ _ => rfl
  | .bool false _, hdepth, _ => readWithin_of_readValue hdepth fun _ _ => rfl
  | .int n _, hdepth, hrest =>
    readWithin_of_readValue hdepth fun _ _ => readValue_of_readNumber (readNumber_int n hrest)
  | .decimal x _, hdepth, hrest =>
    readWithin_of_readValue hdepth fun _ _ => readValue_of_readNumber (readNumber_decimal x hrest)
  | .string hs, hdepth, _ => readWithin_of_readValue hdepth fun _ _ => readValue_string hs
  | .emptyArray hbs _, hdepth, _ =>
    readWithin_of_readValue hdepth fun _ _ => readValue_emptyArray hbs
  | .array hjs, hdepth, _ => by
    refine readWithin_of_readValue hdepth fun n hlevels => readValue_array_of_items hjs ?_
    rw [depth] at hdepth
    exact fun bound hbound => hjs.readItemsWithin_eq (by omega) hbound
  | .emptyObject hbs _, hdepth, _ =>
    readWithin_of_readValue hdepth fun _ _ => readValue_emptyObject hbs
  | .object hes, hdepth, _ => by
    refine readWithin_of_readValue hdepth fun n hlevels => readValue_object_of_entries hes ?_
    rw [depth] at hdepth
    exact fun bound hbound => hes.readEntriesWithin_eq (by omega) hbound

theorem SpellsPadded.readWithin_eq {text rest : List Char} {j : Json} {levels : Nat} :
    SpellsPadded text j rest → j.depth ≤ levels → AtMark rest →
      ∃ mid, readWithin levels text = some (j, mid) ∧ dropBlanks mid = rest
  | .mk hbefore hj hafter, hdepth, hrest => by
    refine ⟨_, ?_, (dropBlanks_append hafter rest).trans hrest.dropBlanks_eq⟩
    rw [readWithin_blanks hbefore]
    exact hj.readWithin_eq hdepth (hrest.endsNumber_blanks hafter)

theorem SpellsItems.readItemsWithin_eq {text rest : List Char} {js : List Json}
    {levels bound : Nat} :
    SpellsItems text js rest → itemsDepth js ≤ levels → js.length ≤ bound →
      readItemsWithin (readWithin levels) bound text = some (js, rest)
  | .last hj, hdepth, hbound => by
    obtain ⟨bound, rfl⟩ := Nat.exists_eq_add_of_le' hbound
    obtain ⟨mid, hmid, hclose⟩ :=
      hj.readWithin_eq (Nat.max_le.1 hdepth).1 (atMark_cons (by simp) rest)
    exact readItemsWithin_last hmid hclose
  | .cons hj hjs, hdepth, hbound => by
    obtain ⟨bound, rfl⟩ := Nat.exists_eq_add_of_le' (Nat.one_le_of_lt hbound)
    obtain ⟨hhead, htail⟩ := Nat.max_le.1 hdepth
    obtain ⟨mid, hmid, hcomma⟩ := hj.readWithin_eq hhead (atMark_cons (by simp) _)
    exact readItemsWithin_cons hmid hcomma
      (hjs.readItemsWithin_eq htail (Nat.le_of_succ_le_succ hbound))

theorem SpellsEntry.readEntry_eq {text rest : List Char} {e : String × Json} {levels : Nat} :
    SpellsEntry text e rest → e.2.depth ≤ levels → AtMark rest →
      ∃ mid, readEntry (readWithin levels) text = some (e, mid) ∧ dropBlanks mid = rest
  | .mk hbefore hname hafter hj, hdepth, hrest => by
    obtain ⟨mid, hmid, hdrop⟩ := hj.readWithin_eq hdepth hrest
    exact ⟨mid, readEntry_of_value hbefore hname hafter hmid, hdrop⟩

theorem SpellsEntries.readEntriesWithin_eq {text rest : List Char} {es : List (String × Json)}
    {levels bound : Nat} :
    SpellsEntries text es rest → entriesDepth es ≤ levels → es.length ≤ bound →
      readEntriesWithin (readWithin levels) bound text = some (es, rest)
  | .last he, hdepth, hbound => by
    obtain ⟨bound, rfl⟩ := Nat.exists_eq_add_of_le' hbound
    obtain ⟨mid, hmid, hclose⟩ :=
      he.readEntry_eq (Nat.max_le.1 hdepth).1 (atMark_cons (by simp) rest)
    exact readEntriesWithin_last hmid hclose
  | .cons he hes, hdepth, hbound => by
    obtain ⟨bound, rfl⟩ := Nat.exists_eq_add_of_le' (Nat.one_le_of_lt hbound)
    obtain ⟨hhead, htail⟩ := Nat.max_le.1 hdepth
    obtain ⟨mid, hmid, hcomma⟩ := he.readEntry_eq hhead (atMark_cons (by simp) _)
    exact readEntriesWithin_cons hmid hcomma
      (hes.readEntriesWithin_eq htail (Nat.le_of_succ_le_succ hbound))

end

/-- A text is read as the value it denotes. -/
theorem Denotes.read?_eq {text : String} {j : Json} (h : Denotes text j) : read? text = some j := by
  have hdepth : j.depth ≤ text.toList.length + 1 :=
    Nat.le_succ_of_le (SpellsPadded.depth_add_length_le h)
  obtain ⟨mid, hmid, hdrop⟩ := SpellsPadded.readWithin_eq h hdepth atMark_nil
  rw [read?]
  dsimp only
  rw [hmid]
  simp [hdrop]

/-- A text denotes one value. -/
theorem Denotes.unique {text : String} {i j : Json} (hi : Denotes text i) (hj : Denotes text j) :
    i = j :=
  Option.some.inj (hi.read?_eq.symm.trans hj.read?_eq)

/-! ## Both layouts -/

theorem spells_putString (s : String) (rest : List Char) : Spells (putString s rest) (.string s) rest :=
  .string (spellsChars_flatMap s.toList rest)

theorem spellsEntry_putString {before text rest : List Char} (hbefore : Blank before) (name : String)
    {j : Json} (hj : SpellsPadded text j rest) :
    SpellsEntry (before ++ putString name (':' :: text)) (name, j) rest :=
  .mk hbefore (spellsChars_flatMap name.toList (':' :: text)) blank_nil hj

mutual

theorem spells_put : ∀ (j : Json) (rest : List Char), Spells (j.put rest) j rest
  | .null, rest => .null rest
  | .bool b, rest => .bool b rest
  | .int n, rest => .int n rest
  | .decimal x, rest => .decimal x rest
  | .string s, rest => spells_putString s rest
  | .array [], rest => .emptyArray blank_nil rest
  | .array (j :: js), _ => .array (spellsItems_put js (spells_put j _))
  | .object [], rest => .emptyObject blank_nil rest
  | .object ((name, j) :: es), _ => .object (spellsEntries_put es name (spells_put j _))

/-- The items of an array on one line, the first one given apart. -/
theorem spellsItems_put {text rest : List Char} {j : Json} : ∀ js : List Json,
    Spells text j (putItems js (']' :: rest)) → SpellsItems text (j :: js) rest
  | [], hj => .last (.mk blank_nil hj blank_nil)
  | j' :: js, hj =>
    .cons (.mk blank_nil hj blank_nil) (spellsItems_put js (spells_put j' _))

/-- The entries of an object on one line, the first one given apart. -/
theorem spellsEntries_put {text rest : List Char} {j : Json} :
    ∀ (es : List (String × Json)) (name : String), Spells text j (putEntries es ('\x7d' :: rest)) →
      SpellsEntries (putString name (':' :: text)) ((name, j) :: es) rest
  | [], name, hj => .last (spellsEntry_putString blank_nil name (.mk blank_nil hj blank_nil))
  | (name', j') :: es, name, hj =>
    .cons (spellsEntry_putString blank_nil name (.mk blank_nil hj blank_nil))
      (spellsEntries_put es name' (spells_put j' _))

end

/-- A new line and the indentation of a level. -/
def line (level : Nat) : List Char := '\n' :: List.replicate (2 * level) ' '

theorem blank_line (level : Nat) : Blank (line level) := by
  refine List.forall_mem_cons.2 ⟨rfl, fun c hc => ?_⟩
  rw [List.eq_of_mem_replicate hc]
  rfl

theorem blank_space : Blank [' '] := List.forall_mem_singleton.2 rfl

mutual

theorem spells_putPretty : ∀ (j : Json) (level : Nat) (rest : List Char),
    Spells (putPretty level j rest) j rest
  | .null, _, rest => .null rest
  | .bool b, _, rest => .bool b rest
  | .int n, _, rest => .int n rest
  | .decimal x, _, rest => .decimal x rest
  | .string s, _, rest => spells_putString s rest
  | .array [], _, rest => .emptyArray blank_nil rest
  | .array (j :: js), level, _ =>
    .array (spellsItems_putPretty js (level + 1) (blank_line level) (spells_putPretty j _ _))
  | .object [], _, rest => .emptyObject blank_nil rest
  | .object ((name, j) :: es), level, _ =>
    .object (spellsEntries_putPretty es (level + 1) (blank_line level) name
      (spells_putPretty j _ _))

/-- The items of an array over lines, the first one given apart. -/
theorem spellsItems_putPretty {text bs rest : List Char} {j : Json} :
    ∀ (js : List Json) (level : Nat), Blank bs →
      Spells text j (putPrettyItems level js (bs ++ ']' :: rest)) →
      SpellsItems (line level ++ text) (j :: js) rest
  | [], level, hbs, hj => .last (.mk (blank_line level) hj hbs)
  | j' :: js, level, hbs, hj =>
    .cons (.mk (blank_line level) hj blank_nil)
      (spellsItems_putPretty js level hbs (spells_putPretty j' level _))

/-- The entries of an object over lines, the first one given apart. -/
theorem spellsEntries_putPretty {text bs rest : List Char} {j : Json} :
    ∀ (es : List (String × Json)) (level : Nat), Blank bs → ∀ name : String,
      Spells text j (putPrettyEntries level es (bs ++ '\x7d' :: rest)) →
      SpellsEntries (line level ++ putString name (':' :: ' ' :: text)) ((name, j) :: es) rest
  | [], level, hbs, name, hj =>
    .last (spellsEntry_putString (blank_line level) name (.mk blank_space hj hbs))
  | (name', j') :: es, level, hbs, name, hj =>
    .cons (spellsEntry_putString (blank_line level) name (.mk blank_space hj blank_nil))
      (spellsEntries_putPretty es level hbs name' (spells_putPretty j' level _))

end

theorem denotes_compact (j : Json) : Denotes j.compact j := by
  rw [Denotes, compact, String.toList_ofList]
  exact .mk blank_nil (spells_put j []) blank_nil

theorem denotes_pretty (j : Json) : Denotes j.pretty j := by
  rw [Denotes, pretty, String.toList_ofList]
  exact .mk blank_nil (spells_putPretty j 0 []) blank_nil

theorem compact_injective : Function.Injective compact := fun i j h =>
  (h ▸ i.denotes_compact).unique j.denotes_compact

theorem pretty_injective : Function.Injective pretty := fun i j h =>
  (h ▸ i.denotes_pretty).unique j.denotes_pretty

end Json

/-! ## Programs told apart -/

namespace Program

theorem json_injective : Function.Injective json := fun p q h =>
  Option.some.inj (p.ofJson?_json.symm.trans ((congrArg ofJson? h).trans q.ofJson?_json))

theorem compact_json_eq_iff {p q : Program} : p.json.compact = q.json.compact ↔ p = q := by
  rw [Json.compact_injective.eq_iff, json_injective.eq_iff]

theorem pretty_json_eq_iff {p q : Program} : p.json.pretty = q.json.pretty ↔ p = q := by
  rw [Json.pretty_injective.eq_iff, json_injective.eq_iff]

theorem same_iff {p q : Program} : p.same q = true ↔ p = q := by
  rw [same, beq_iff_eq, compact_json_eq_iff]

/-- Equality of programs is decided by their dumps. -/
instance : DecidableEq Program := fun p q => decidable_of_iff (p.same q = true) same_iff

end Program

end TermLang
