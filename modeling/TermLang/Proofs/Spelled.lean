import TermLang.Proofs.DecimalText
import TermLang.Proofs.Yield
import TermLang.Token.Lexer

/-!
# Printed words read back

A printed word is scanned as itself if the text after it ends it. Brackets, colons and points, and
what is quoted, end by themselves. All other words are ended by `Apart` text: by the end of the text,
a blank, a bracket, a colon, or a point in front of a name. A name must be one, and a string must not
close with a backslash, which would take the closing quote with it; no scanned string does.
-/

namespace TermLang

/-! ## Text that ends a word -/

/-- The brackets and the colon. -/
def isDelimiter (c : Char) : Bool :=
  c = '(' || c = ')' || c = '[' || c = ']' || c = '\x7b' || c = '\x7d' || c = ':'

/-- The text ends any word in front of it. -/
inductive Apart : List Char → Prop
  | nil : Apart []
  | blank {c : Char} {cs : List Char} : isBlank c = true → Apart (c :: cs)
  | delimiter {c : Char} {cs : List Char} : isDelimiter c = true → Apart (c :: cs)
  | name {c : Char} {cs : List Char} : isIdentStart c = true → Apart ('.' :: c :: cs)

theorem eq_of_isBlank {c : Char} (h : isBlank c = true) :
    c = ' ' ∨ c = '\t' ∨ c = '\r' ∨ c = '\n' := by
  simpa [isBlank, or_assoc] using h

theorem eq_of_isDelimiter {c : Char} (h : isDelimiter c = true) :
    c = '(' ∨ c = ')' ∨ c = '[' ∨ c = ']' ∨ c = '\x7b' ∨ c = '\x7d' ∨ c = ':' := by
  simpa [isDelimiter, or_assoc] using h

namespace Apart

/-- What holds of all characters that can begin such a text. -/
theorem head {p : Char → Prop} {cs : List Char} (h : Apart cs) (hblank : ∀ c, isBlank c = true → p c)
    (hdelimiter : ∀ c, isDelimiter c = true → p c) (hdot : p '.') : ∀ c ∈ cs.head?, p c := by
  intro c hc
  cases h with
  | nil => simp at hc
  | blank hb =>
    obtain rfl := Option.some.inj hc
    exact hblank _ hb
  | delimiter hd =>
    obtain rfl := Option.some.inj hc
    exact hdelimiter _ hd
  | name =>
    obtain rfl := Option.some.inj hc
    exact hdot

theorem not_identChar {cs : List Char} (h : Apart cs) : ∀ c ∈ cs.head?, isIdentChar c = false := by
  refine h.head (fun c hc => ?_) (fun c hc => ?_) rfl
  · rcases eq_of_isBlank hc with rfl | rfl | rfl | rfl <;> rfl
  · rcases eq_of_isDelimiter hc with rfl | rfl | rfl | rfl | rfl | rfl | rfl <;> rfl

/-- It begins with none of the characters that can follow the first one of a mark. -/
theorem not_second {cs : List Char} (h : Apart cs) : ∀ c ∈ cs.head?, c ≠ '>' ∧ c ≠ '*' := by
  refine h.head (fun c hc => ?_) (fun c hc => ?_) (by decide)
  · rcases eq_of_isBlank hc with rfl | rfl | rfl | rfl <;> decide
  · rcases eq_of_isDelimiter hc with rfl | rfl | rfl | rfl | rfl | rfl | rfl <;> decide

end Apart

/-! ## Classes of characters -/

theorem isIdentChar_of_isDigit {c : Char} (h : c.isDigit = true) : isIdentChar c = true := by
  simp [isIdentChar, Char.isAlphanum, h]

theorem not_isAlpha_of_not_isIdentChar {c : Char} (h : isIdentChar c = false) :
    c.isAlpha = false := by
  simp only [isIdentChar, Char.isAlphanum, Bool.or_eq_false_iff] at h
  exact h.1.1.1

theorem Apart.not_digit {cs : List Char} (h : Apart cs) : ∀ c ∈ cs.head?, c.isDigit = false := by
  intro c hc
  cases hd : c.isDigit with
  | false => rfl
  | true =>
    have := h.not_identChar c hc
    rw [isIdentChar_of_isDigit hd] at this
    exact nomatch this

theorem not_isAlpha_of_isDigit {c : Char} (h : c.isDigit = true) : c.isAlpha = false := by
  have hdigit : c.val ≤ '9'.val := by
    simp only [Char.isDigit, Bool.and_eq_true, decide_eq_true_eq] at h
    exact h.2
  have hupper : ¬ (c.val ≥ 'A'.val ∧ c.val ≤ 'Z'.val) := fun hc =>
    absurd (UInt32.le_trans hc.1 hdigit) (by decide)
  have hlower : ¬ c.val ≥ 'a'.val := fun hc => absurd (UInt32.le_trans hc hdigit) (by decide)
  show (decide (c.val ≥ 'A'.val ∧ c.val ≤ 'Z'.val) ||
    decide (c.val ≥ 'a'.val) && decide (c.val ≤ 'z'.val)) = false
  rw [decide_eq_false hupper, decide_eq_false hlower]
  rfl

theorem not_isIdentStart_of_isDigit {c : Char} (h : c.isDigit = true) : isIdentStart c = false := by
  have hne : c ≠ '_' := by
    rintro rfl
    exact nomatch h
  simp [isIdentStart, not_isAlpha_of_isDigit h, hne]

theorem not_isDigit_of_isIdentStart {c : Char} (h : isIdentStart c = true) : c.isDigit = false := by
  cases hd : c.isDigit with
  | false => rfl
  | true =>
    rw [not_isIdentStart_of_isDigit hd] at h
    exact nomatch h

theorem basePrefix?_eq_none {c : Char} (h : c.isAlpha = false) : basePrefix? c = none := by
  unfold basePrefix?
  split
  · rename_i hc
    rcases hc with rfl | rfl <;> exact nomatch h
  · split
    · rename_i hc
      rcases hc with rfl | rfl <;> exact nomatch h
    · split
      · rename_i hc
        rcases hc with rfl | rfl <;> exact nomatch h
      · rfl

/-! ## Words in front of a text -/

/-- In front of the text the word is scanned as itself, and is no trivia. -/
def Word.Scans (w : Word) (rest : List Char) : Prop :=
  ∃ c cs, w.lexeme.toList ++ rest = c :: cs ∧ c ≠ '/' ∧ isBlank c = false ∧
    scan c cs = .ok ⟨w.kind, w.literal, w.lexeme.toList, rest⟩

/-- The word is scanned in front of any text. -/
def Word.Solid (w : Word) : Prop := ∀ rest, w.Scans rest

/-- The word is scanned in front of text that ends it. -/
def Word.Legible (w : Word) : Prop := ∀ rest, Apart rest → w.Scans rest

theorem Word.Solid.legible {w : Word} (h : w.Solid) : w.Legible := fun rest _ => h rest

namespace Word

theorem solid_ofKind {k : Kind}
    (h : k ∈ [.braceOpen, .braceClose, .parenOpen, .parenClose, .bracketOpen, .bracketClose,
      .colon, .dot]) : (ofKind k).Solid := by
  intro rest
  simp only [List.mem_cons, List.not_mem_nil, or_false] at h
  rcases h with rfl | rfl | rfl | rfl | rfl | rfl | rfl | rfl <;>
    exact ⟨_, rest, rfl, by decide, rfl, rfl⟩

/-! ### Names and keywords -/

/-- The text is an identifier: it is made of the characters of one and is no keyword. -/
structure IsName (text : String) : Prop where
  start : ∃ c cs, text.toList = c :: cs ∧ isIdentStart c = true ∧ ∀ d ∈ cs, isIdentChar d = true
  classify_eq : classify text = (.ident, none)

theorem legible_of_classify {w : Word}
    (hstart : ∃ c cs, w.lexeme.toList = c :: cs ∧ isIdentStart c = true ∧
      ∀ d ∈ cs, isIdentChar d = true)
    (hclass : classify w.lexeme = (w.kind, w.literal)) : w.Legible := by
  intro rest hrest
  obtain ⟨c, cs, htext, hc, hcs⟩ := hstart
  obtain ⟨htake, hdrop⟩ := takeWhile_append_of_head hcs hrest.not_identChar
  refine ⟨c, cs ++ rest, by rw [htext]; rfl, ?_, ?_, ?_⟩
  · rintro rfl
    exact nomatch hc
  · cases hb : isBlank c with
    | false => rfl
    | true => rcases eq_of_isBlank hb with rfl | rfl | rfl | rfl <;> exact nomatch hc
  · rw [scan, if_pos hc, scanName]
    dsimp only
    rw [htake, hdrop, ← htext, String.ofList_toList, hclass]

theorem IsName.legible {text : String} (h : IsName text) : (ident text).Legible :=
  legible_of_classify h.start h.classify_eq

theorem legible_keyword {k : Kind} (h : k ∈ Kind.keywords) : (ofKind k).Legible := by
  have hclass : classify k.spelling = (k, none) := by
    have htrue : k.spelling ≠ "true" := by revert h; cases k <;> decide
    have hfalse : k.spelling ≠ "false" := by revert h; cases k <;> decide
    rw [classify, if_neg htrue, if_neg hfalse, Kind.keyword?_spelling h, Option.getD_some]
  refine legible_of_classify ?_ hclass
  simp only [Kind.keywords, List.mem_cons, List.not_mem_nil, or_false] at h
  rcases h with rfl | rfl | rfl | rfl | rfl | rfl | rfl | rfl | rfl | rfl | rfl | rfl | rfl | rfl <;>
    exact ⟨_, _, rfl, rfl, List.all_eq_true.1 rfl⟩

/-- A mark that could begin a longer one is ended by what does not go on with it. -/
theorem legible_ofKind {k : Kind} (h : k.text?.isSome = true) : (ofKind k).Legible := by
  intro rest hrest
  have hsecond := hrest.not_second
  by_cases hword : k ∈ Kind.keywords
  · exact legible_keyword hword rest hrest
  · cases k with
    | arrow | fatArrow | starStar => exact ⟨_, _, rfl, by decide, rfl, rfl⟩
    | star =>
      refine ⟨'*', rest, rfl, by decide, rfl, ?_⟩
      have hmark : mark? '*' rest = some (.star, [], rest) := by
        cases rest with
        | nil => rfl
        | cons c cs => simp [mark?, (hsecond c rfl).2]
      show scanMark '*' rest = _
      rw [scanMark, hmark]
      rfl
    | equals =>
      refine ⟨'=', rest, rfl, by decide, rfl, ?_⟩
      have hmark : mark? '=' rest = some (.equals, [], rest) := by
        cases rest with
        | nil => rfl
        | cons c cs => simp [mark?, (hsecond c rfl).1]
      show scanMark '=' rest = _
      rw [scanMark, hmark]
      rfl
    | _ =>
      first
      | exact solid_ofKind (by decide) rest
      | exact absurd (by decide) hword
      | exact nomatch h

/-! ### Numbers -/

/-- The sign that is written in front of a number. -/
theorem isNegative_sign (negative : Bool) :
    isNegative (if negative then ['-'] else []) = negative := by
  cases negative <;> rfl

/-- A sign, or none, and a digit begin a number. -/
theorem scan_number {sign : List Char} (hsign : sign ∈ [[], ['+'], ['-']]) {d : Char}
    (hd : d.isDigit = true) (cs : List Char) :
    ∃ c tail, sign ++ d :: cs = c :: tail ∧ c ≠ '/' ∧ isBlank c = false ∧
      scan c tail = scanNumber sign (d :: cs) := by
  have signed : ∀ c, isIdentStart c = false → c.isDigit = false → isSign c = true →
      scan c (d :: cs) = scanNumber [c] (d :: cs) := by
    intro c hstart hdigit hc
    rw [scan, hstart, hdigit, hc, List.head?_cons, Option.any_some, hd]
    rfl
  simp only [List.mem_cons, List.not_mem_nil, or_false] at hsign
  rcases hsign with rfl | rfl | rfl
  · refine ⟨d, cs, rfl, ?_, ?_, ?_⟩
    · rintro rfl
      exact nomatch hd
    · cases hb : isBlank d with
      | false => rfl
      | true => rcases eq_of_isBlank hb with rfl | rfl | rfl | rfl <;> exact nomatch hd
    · rw [scan, not_isIdentStart_of_isDigit hd, if_neg Bool.false_ne_true, if_pos hd]
  · exact ⟨'+', d :: cs, rfl, by decide, rfl, signed '+' rfl rfl rfl⟩
  · exact ⟨'-', d :: cs, rfl, by decide, rfl, signed '-' rfl rfl rfl⟩

/-- Only a letter after a zero begins a number in another base. -/
theorem scanNumber_plain {sign cs : List Char} {d : Char}
    (h : d = '0' → ∀ c ∈ cs.head?, basePrefix? c = none) :
    scanNumber sign (d :: cs) = scanPlain sign (d :: cs) := by
  unfold scanNumber
  split
  · rename_i letter digits heq
    obtain ⟨hd, rfl⟩ := List.cons_eq_cons.1 heq
    rw [h hd letter rfl]
  · rfl

/-- The text goes on with no digit, and not with a point in front of one. -/
structure EndsNumber (rest : List Char) : Prop where
  not_digit : ∀ c ∈ rest.head?, c.isDigit = false
  not_fraction : ∀ c tail, rest = '.' :: c :: tail → c.isDigit = false

theorem endsNumber_of_apart {rest : List Char} (h : Apart rest) : EndsNumber rest := by
  refine ⟨h.not_digit, ?_⟩
  rintro c tail rfl
  cases h with
  | blank hb => exact nomatch hb
  | delimiter hd => exact nomatch hd
  | name hn => exact not_isDigit_of_isIdentStart hn

theorem scanPlain_integer (sign : List Char) {ds rest : List Char} (hds : ∀ c ∈ ds, c.isDigit = true)
    (hrest : EndsNumber rest) :
    scanPlain sign (ds ++ rest) = integerScan sign (Text.ofDigits 10 ds) (sign ++ ds) rest := by
  obtain ⟨htake, hdrop⟩ := takeWhile_append_of_head hds hrest.not_digit
  unfold scanPlain
  dsimp only
  rw [htake, hdrop]
  split
  · rename_i d tail
    rw [hrest.not_fraction d tail rfl, if_neg Bool.false_ne_true]
  · rfl

theorem scanPlain_decimal {sign whole fraction rest : List Char}
    (hdigit : ∀ c ∈ whole ++ fraction, c.isDigit = true) (hne : fraction ≠ [])
    (hrest : ∀ c ∈ rest.head?, c.isDigit = false) :
    scanPlain sign (whole ++ '.' :: (fraction ++ rest)) = decimalScan sign whole fraction rest := by
  obtain ⟨d, ds, rfl⟩ := List.exists_cons_of_ne_nil hne
  obtain ⟨hwhole, hfraction⟩ := List.forall_mem_append.1 hdigit
  obtain ⟨hd, hds⟩ := List.forall_mem_cons.1 hfraction
  have hdot : ∀ c ∈ ('.' :: (d :: ds ++ rest)).head?, c.isDigit = false := by
    intro c hc
    obtain rfl := Option.some.inj hc
    rfl
  obtain ⟨htake, hdrop⟩ := takeWhile_append_of_head hwhole hdot
  obtain ⟨htake', hdrop'⟩ := takeWhile_append_of_head hds hrest
  unfold scanPlain
  dsimp only
  rw [htake, hdrop]
  simp only [List.cons_append, hd, if_true, htake', hdrop']

/-- A number in front of a text is scanned, if what follows its first digit is no letter. -/
theorem scans_number {w : Word} {negative : Bool} {d : Char} {cs rest : List Char}
    (hw : w.lexeme.toList ++ rest = (if negative then ['-'] else []) ++ d :: cs)
    (hd : d.isDigit = true) (hcs : ∀ c ∈ cs.head?, c.isAlpha = false)
    (hscan : scanPlain (if negative then ['-'] else []) (d :: cs) =
      .ok ⟨w.kind, w.literal, w.lexeme.toList, rest⟩) : w.Scans rest := by
  have hsign : (if negative then ['-'] else []) ∈ [[], ['+'], ['-']] := by cases negative <;> decide
  obtain ⟨c, tail, htext, hslash, hblank, heq⟩ := scan_number hsign hd cs
  refine ⟨c, tail, hw.trans htext, hslash, hblank, ?_⟩
  rw [heq, scanNumber_plain fun _ c hc => basePrefix?_eq_none (hcs c hc), hscan]

/-- After the first of some digits comes no letter. -/
theorem not_isAlpha_of_digits {ds rest : List Char} (hds : ∀ c ∈ ds, c.isDigit = true)
    (hrest : ∀ c ∈ rest.head?, c.isAlpha = false) : ∀ c ∈ (ds ++ rest).head?, c.isAlpha = false := by
  intro c hc
  cases ds with
  | nil => exact hrest c hc
  | cons d ds =>
    obtain rfl := Option.some.inj hc
    exact not_isAlpha_of_isDigit (hds _ List.mem_cons_self)

theorem legible_int (n : Int64) : (Literal.int n).word.Legible := by
  intro rest hrest
  have hdigits : ∀ c ∈ Text.decimalDigits n.toInt.natAbs, c.isDigit = true := fun c hc =>
    Text.isDigit_of_mem_decimalDigits hc
  obtain ⟨d, ds, hds⟩ := List.exists_cons_of_ne_nil (Text.decimalDigits_ne_nil n.toInt.natAbs)
  have hlexeme : (Literal.int n).word.lexeme.toList =
      (if decide (n.toInt < 0) then ['-'] else []) ++ Text.decimalDigits n.toInt.natAbs := by
    simp only [Literal.word, String.toList_ofList, spellInt, decide_eq_true_eq]
  have hvalue : integer? (decide (n.toInt < 0)) n.toInt.natAbs = some n := by
    simpa only [integer?, decide_eq_true_eq] using int64?_sign_natAbs n
  have hscan := scanPlain_integer (if decide (n.toInt < 0) then ['-'] else []) hdigits
    (endsNumber_of_apart hrest)
  rw [integerScan, isNegative_sign, Text.ofDigits_decimalDigits, hvalue, ← hlexeme, hds,
    List.cons_append] at hscan
  refine scans_number ?_ (hdigits d (by simp [hds])) ?_ hscan
  · rw [hlexeme, List.append_assoc, hds, List.cons_append]
  · refine not_isAlpha_of_digits (fun c hc => hdigits c (by simp [hds, hc])) fun c hc => ?_
    exact not_isAlpha_of_not_isIdentChar (hrest.not_identChar c hc)

theorem decimalScan_eq {sign whole fraction rest : List Char} {x : Double}
    (h : Double.ofPointed? (isNegative sign) whole fraction = some x) :
    decimalScan sign whole fraction rest =
      .ok ⟨.decimal, some (.decimal x), sign ++ whole ++ '.' :: fraction, rest⟩ := by
  unfold decimalScan
  simp only [h]

theorem legible_decimal (x : Double) : (Literal.decimal x).word.Legible := by
  intro rest hrest
  obtain ⟨whole, fraction, htext, hne, hfraction, hdigit, hvalue⟩ := x.write_source
  have hlexeme : (Literal.decimal x).word.lexeme.toList =
      (if x.negative then ['-'] else []) ++ whole ++ '.' :: fraction := by
    rw [List.append_assoc]
    exact htext
  obtain ⟨d, ds, rfl⟩ := List.exists_cons_of_ne_nil hne
  rw [← isNegative_sign x.negative] at hvalue
  have hscan := (scanPlain_decimal hdigit hfraction hrest.not_digit).trans (decimalScan_eq hvalue)
  rw [← hlexeme] at hscan
  refine scans_number ?_ (hdigit d (by simp)) ?_ hscan
  · rw [hlexeme]
    simp only [List.append_assoc, List.cons_append]
    rfl
  · refine not_isAlpha_of_digits (fun c hc => hdigit c (by simp [hc])) fun c hc => ?_
    obtain rfl := Option.some.inj hc
    rfl

/-! ### Quoted words -/

/-- A character other than a quote, and no backslash in front of one, stands for itself. -/
theorem stringBody_cons {c : Char} {cs : List Char} (hc : c ≠ '"')
    (h : ∀ tail, ¬ (c = '\\' ∧ cs = '"' :: tail)) :
    stringBody (c :: cs) =
      (stringBody cs).map fun (value, raw, rest) => (c :: value, c :: raw, rest) := by
  rw [stringBody]
  · exact hc
  · rintro tail rfl rfl
    exact h tail ⟨rfl, rfl⟩

/-- The escaped text of a string, and the quote after it, are read back, unless the string closes
with a backslash. -/
theorem stringBody_spell {cs : List Char} (h : cs.getLast? ≠ some '\\') (rest : List Char) :
    stringBody (spellStringBody cs ++ '"' :: rest) =
      some (cs, spellStringBody cs ++ ['"'], rest) := by
  induction cs with
  | nil => rfl
  | cons c cs ih =>
    have hlast : cs.getLast? ≠ some '\\' := by
      intro hl
      refine h ?_
      cases cs with
      | nil => exact nomatch hl
      | cons => rw [List.getLast?_cons_cons]; exact hl
    have ih := ih hlast
    have hspell : spellStringBody (c :: cs) =
        (if c = '"' then ['\\', '"'] else [c]) ++ spellStringBody cs := rfl
    by_cases hquote : c = '"'
    · rw [hspell, if_pos hquote, hquote]
      simp [stringBody, ih]
    · rw [hspell, if_neg hquote]
      have hnext : ∀ tail, ¬ (c = '\\' ∧ spellStringBody cs ++ '"' :: rest = '"' :: tail) := by
        rintro tail ⟨rfl, htail⟩
        cases cs with
        | nil => exact h rfl
        | cons d ds =>
          by_cases hd : d = '"' <;> simp [spellStringBody, hd] at htail
      show stringBody (c :: (spellStringBody cs ++ '"' :: rest)) = _
      rw [stringBody_cons hquote hnext, ih]
      rfl

theorem solid_string {text : String} (h : text.toList.getLast? ≠ some '\\') :
    (Literal.string text).word.Solid := by
  intro rest
  have hlexeme : (Literal.string text).word.lexeme.toList =
      '"' :: (spellStringBody text.toList ++ ['"']) := String.toList_ofList
  refine ⟨'"', spellStringBody text.toList ++ '"' :: rest, ?_, by decide, rfl, ?_⟩
  · rw [hlexeme]
    simp
  · show scanString _ = _
    rw [scanString, stringBody_spell h, hlexeme]
    dsimp only
    rw [String.ofList_toList]
    rfl

/-- A character is written with an escape for it, or stands for itself. -/
theorem spellCharBody_cases (c : Char) :
    (∃ e, unescape e = c ∧ spellCharBody c = ['\\', e]) ∨
      c ≠ '\'' ∧ c ≠ '\\' ∧ spellCharBody c = [c] := by
  by_cases hn : c = '\n'
  · exact .inl ⟨'n', hn.symm, by rw [hn]; rfl⟩
  by_cases ht : c = '\t'
  · exact .inl ⟨'t', ht.symm, by rw [ht]; rfl⟩
  by_cases hr : c = '\r'
  · exact .inl ⟨'r', hr.symm, by rw [hr]; rfl⟩
  by_cases h0 : c = '\x00'
  · exact .inl ⟨'0', h0.symm, by rw [h0]; rfl⟩
  by_cases hb : c = '\\'
  · exact .inl ⟨'\\', hb.symm, by rw [hb]; rfl⟩
  by_cases hq : c = '\''
  · exact .inl ⟨'\'', hq.symm, by rw [hq]; rfl⟩
  refine .inr ⟨hq, hb, ?_⟩
  unfold spellCharBody
  rw [if_neg hn, if_neg ht, if_neg hr, if_neg h0, if_neg hb, if_neg hq]

/-- Every character is read back from its escape or from itself. -/
theorem solid_char (c : Char) : (Literal.char c).word.Solid := by
  intro rest
  have hlexeme : (Literal.char c).word.lexeme.toList = '\'' :: (spellCharBody c ++ ['\'']) :=
    String.toList_ofList
  refine ⟨'\'', spellCharBody c ++ '\'' :: rest, ?_, by decide, rfl, ?_⟩
  · rw [hlexeme]
    simp
  · show scanChar _ = _
    rw [hlexeme]
    rcases spellCharBody_cases c with ⟨e, rfl, he⟩ | ⟨hq, hb, he⟩
    · rw [he]
      rfl
    · rw [he]
      show scanChar (c :: '\'' :: rest) = _
      rw [scanChar, if_neg hq, if_neg hb]
      rfl

theorem legible_bool (b : Bool) : (Literal.bool b).word.Legible := by
  cases b with
  | true => exact legible_of_classify ⟨_, _, rfl, rfl, List.all_eq_true.1 rfl⟩ rfl
  | false => exact legible_of_classify ⟨_, _, rfl, rfl, List.all_eq_true.1 rfl⟩ rfl

end Word

/-! ## Terminals that are read back -/

/-- What is read of the terminal when it is printed is the terminal: a name is one, and a string does
not close with a backslash. -/
def Terminal.Spelled : Terminal → Prop
  | .mark _ => True
  | .name text => Word.IsName text
  | .value (.string text) => text.toList.getLast? ≠ some '\\'
  | .value _ => True

theorem Literal.legible_word {l : Literal} (h : (Terminal.value l).Spelled) : l.word.Legible := by
  cases l with
  | int n => exact Word.legible_int n
  | decimal x => exact Word.legible_decimal x
  | bool b => exact Word.legible_bool b
  | char c => exact (Word.solid_char c).legible
  | string text => exact (Word.solid_string h).legible

end TermLang
