import Mathlib.Data.List.TakeWhile
import TermLang.Proofs.Spelled

/-!
# Scanned words can be printed

Whatever is read from a source text can be printed and read back: a scanned name is an identifier, a
scanned string does not close with a backslash, and a literal kind comes with a value of that kind.
The end of the input is marked once, after all words.
-/

namespace TermLang

/-! ## Words that can be printed -/

/-- The word is no end of the input, its terminal is spelled, and the word that is printed for the
terminal has the same one. -/
structure Word.Printable (w : Word) : Prop where
  kind_ne_eof : w.kind ≠ .eof
  spelled : w.terminal.Spelled
  terminal_word : w.terminal.word.terminal = w.terminal

namespace Word.Printable

variable {w : Word}

theorem mark (h : w.kind.text?.isSome = true) : w.Printable := by
  obtain ⟨he, hl⟩ := Kind.plain_of_text? h
  have hterminal := terminal_of_kind rfl hl
  refine ⟨he, ?_, ?_⟩
  · rw [hterminal]
    exact trivial
  · rw [hterminal]
    exact terminal_ofKind hl

theorem name (hk : w.kind = .ident) (h : IsName w.lexeme) : w.Printable := by
  have hterminal := terminal_ident hk
  refine ⟨by rw [hk]; decide, ?_, ?_⟩
  · rw [hterminal]
    exact h
  · rw [hterminal]
    exact terminal_ident_word w.lexeme

theorem value {l : Literal} (hk : w.kind = l.kind) (hl : w.literal = some l)
    (h : (Terminal.value l).Spelled) : w.Printable := by
  have hterminal := terminal_eq_value_iff.2 ⟨hk, hl⟩
  refine ⟨by rw [hk]; cases l <;> exact nofun, ?_, ?_⟩
  · rw [hterminal]
    exact h
  · rw [hterminal]
    exact terminal_word_value l

end Word.Printable

/-- The word has a spelling of its own, or is a name, or comes with a value of its kind. -/
inductive Word.Whole (w : Word) : Prop
  | mark (h : w.kind.text?.isSome = true)
  | name (hk : w.kind = .ident) (h : IsName w.lexeme)
  | value {l : Literal} (hk : w.kind = l.kind) (hl : w.literal = some l)
      (h : (Terminal.value l).Spelled)

namespace Word.Whole

variable {w : Word}

theorem printable (h : w.Whole) : w.Printable := by
  cases h with
  | mark h => exact .mark h
  | name hk h => exact .name hk h
  | value hk hl h => exact .value hk hl h

/-- No literal kind is left without its name or value. -/
theorem isLiteral_eq_false (h : w.Whole) {k : Kind} (hk : w.terminal = .mark k) :
    k.isLiteral = false := by
  cases h with
  | mark h =>
    have hl := (Kind.plain_of_text? h).2
    rw [terminal_of_kind rfl hl] at hk
    rwa [← Terminal.mark.inj hk]
  | name h => exact nomatch (terminal_ident h).symm.trans hk
  | value h hl => exact nomatch (terminal_eq_value_iff.2 ⟨h, hl⟩).symm.trans hk

end Word.Whole

/-! ## Scans of literals -/

/-- The word of a scan. -/
def Scan.word (s : Scan) : Word := ⟨s.kind, String.ofList s.lexeme, s.literal⟩

/-- The scan carries a value of its kind that is spelled. -/
def Scan.HasValue (s : Scan) : Prop :=
  ∃ l : Literal, s.kind = l.kind ∧ s.literal = some l ∧ (Terminal.value l).Spelled

theorem Scan.HasValue.whole {s : Scan} (h : s.HasValue) : s.word.Whole := by
  obtain ⟨l, hk, hl, hspelled⟩ := h
  exact .value hk hl hspelled

theorem integerScan_hasValue {sign lexeme rest : List Char} {magnitude : Nat} {s : Scan}
    (h : integerScan sign magnitude lexeme rest = .ok s) : s.HasValue := by
  unfold integerScan at h
  split at h
  · rename_i n _
    obtain rfl := Except.ok.inj h
    exact ⟨.int n, rfl, rfl, trivial⟩
  · exact nomatch h

theorem decimalScan_hasValue {sign whole fraction rest : List Char} {s : Scan}
    (h : decimalScan sign whole fraction rest = .ok s) : s.HasValue := by
  unfold decimalScan at h
  dsimp only at h
  split at h
  · rename_i x _
    obtain rfl := Except.ok.inj h
    exact ⟨.decimal x, rfl, rfl, trivial⟩
  · exact nomatch h

theorem scanPlain_hasValue {sign cs : List Char} {s : Scan} (h : scanPlain sign cs = .ok s) :
    s.HasValue := by
  unfold scanPlain at h
  dsimp only at h
  split at h
  · split at h
    · exact decimalScan_hasValue h
    · exact integerScan_hasValue h
  · exact integerScan_hasValue h

theorem scanNumber_hasValue {sign cs : List Char} {s : Scan} (h : scanNumber sign cs = .ok s) :
    s.HasValue := by
  unfold scanNumber at h
  split at h
  · split at h
    · unfold scanBased at h
      split at h
      · exact nomatch h
      · exact integerScan_hasValue h
    · exact scanPlain_hasValue h
  · exact scanPlain_hasValue h

/-- A string without a value closes at once. -/
theorem stringBody_eq_nil {cs raw rest : List Char} (h : stringBody cs = some ([], raw, rest)) :
    ∃ tail, cs = '"' :: tail := by
  unfold stringBody at h
  split at h
  · exact nomatch h
  · exact ⟨_, rfl⟩
  · obtain ⟨_, _, heq⟩ := Option.map_eq_some_iff.1 h
    exact nomatch heq
  · obtain ⟨_, _, heq⟩ := Option.map_eq_some_iff.1 h
    exact nomatch heq

/-- A scanned string does not close with a backslash, which would have escaped its quote. -/
theorem stringBody_getLast? {cs value raw rest : List Char}
    (h : stringBody cs = some (value, raw, rest)) : value.getLast? ≠ some '\\' := by
  fun_induction stringBody cs generalizing value raw rest with
  | case1 => cases h
  | case2 rest' =>
    obtain ⟨rfl, -⟩ := Prod.mk.inj (Option.some.inj h)
    decide
  | case3 cs ih =>
    obtain ⟨⟨v, r, t⟩, hv, heq⟩ := Option.map_eq_some_iff.1 h
    obtain ⟨rfl, -⟩ := Prod.mk.inj heq
    cases v with
    | nil => decide
    | cons d ds =>
      rw [List.getLast?_cons_cons]
      exact ih hv
  | case4 c cs _ hescape ih =>
    obtain ⟨⟨v, r, t⟩, hv, heq⟩ := Option.map_eq_some_iff.1 h
    obtain ⟨rfl, -⟩ := Prod.mk.inj heq
    cases v with
    | nil =>
      obtain ⟨tail, rfl⟩ := stringBody_eq_nil hv
      intro hlast
      exact hescape tail (Option.some.inj hlast) rfl
    | cons d ds =>
      rw [List.getLast?_cons_cons]
      exact ih hv

theorem scanString_hasValue {cs : List Char} {s : Scan} (h : scanString cs = .ok s) :
    s.HasValue := by
  unfold scanString at h
  split at h
  · rename_i value raw rest hbody
    obtain rfl := Except.ok.inj h
    refine ⟨.string (String.ofList value), rfl, rfl, ?_⟩
    show (String.ofList value).toList.getLast? ≠ some '\\'
    rw [String.toList_ofList]
    exact stringBody_getLast? hbody
  · exact nomatch h

theorem closeChar_hasValue {seen cs : List Char} {value : Char} {s : Scan}
    (h : closeChar seen value cs = .ok s) : s.HasValue := by
  unfold closeChar at h
  split at h
  · exact nomatch h
  · split at h
    · obtain rfl := Except.ok.inj h
      exact ⟨.char value, rfl, rfl, trivial⟩
    · exact nomatch h

theorem scanChar_hasValue {cs : List Char} {s : Scan} (h : scanChar cs = .ok s) : s.HasValue := by
  unfold scanChar at h
  split at h
  · exact nomatch h
  · split at h
    · exact nomatch h
    · split at h
      · unfold scanEscaped at h
        split at h
        · exact nomatch h
        · exact closeChar_hasValue h
      · exact closeChar_hasValue h

/-! ## Any scan -/

theorem scanName_whole {c : Char} (hc : isIdentStart c = true) (cs : List Char) :
    (scanName c cs).word.Whole := by
  have hstart : ∃ d ds, (String.ofList (c :: cs.takeWhile isIdentChar)).toList = d :: ds ∧
      isIdentStart d = true ∧ ∀ e ∈ ds, isIdentChar e = true :=
    ⟨c, cs.takeWhile isIdentChar, String.toList_ofList, hc, fun _ he => List.mem_takeWhile_imp he⟩
  generalize htext : String.ofList (c :: cs.takeWhile isIdentChar) = text at hstart
  have hword : (scanName c cs).word = ⟨(classify text).1, text, (classify text).2⟩ := by
    rw [← htext]
    rfl
  rw [hword]
  by_cases htrue : text = "true"
  · exact .value (l := .bool true) (by simp [classify, htrue]; rfl) (by simp [classify, htrue]) trivial
  by_cases hfalse : text = "false"
  · exact .value (l := .bool false) (by simp [classify, hfalse]; rfl) (by simp [classify, hfalse]) trivial
  cases hkeyword : Kind.keyword? text with
  | none =>
    have hclass : classify text = (.ident, none) := by
      rw [classify, if_neg htrue, if_neg hfalse, hkeyword, Option.getD_none]
    rw [hclass]
    exact .name rfl ⟨hstart, hclass⟩
  | some k =>
    have hclass : classify text = (k, none) := by
      rw [classify, if_neg htrue, if_neg hfalse, hkeyword, Option.getD_some]
    rw [hclass]
    exact .mark (by rw [Kind.text?_of_keyword? hkeyword]; rfl)

theorem scanMark_whole {c : Char} {cs : List Char} {s : Scan} (h : scanMark c cs = .ok s) :
    s.word.Whole := by
  unfold scanMark at h
  split at h
  · rename_i kind second rest hmark
    obtain rfl := Except.ok.inj h
    refine .mark ?_
    show kind.text?.isSome = true
    unfold mark? at hmark
    split at hmark <;> cases hmark <;> rfl
  · exact nomatch h

theorem scan_whole {c : Char} {cs : List Char} {s : Scan} (h : scan c cs = .ok s) :
    s.word.Whole := by
  unfold scan at h
  split at h
  · rename_i hc
    obtain rfl := Except.ok.inj h
    exact scanName_whole hc cs
  · split at h
    · exact (scanNumber_hasValue h).whole
    · split at h
      · exact (scanNumber_hasValue h).whole
      · split at h
        · exact (scanString_hasValue h).whole
        · split at h
          · exact (scanChar_hasValue h).whole
          · exact scanMark_whole h

theorem scan_printable {c : Char} {cs : List Char} {s : Scan} (h : scan c cs = .ok s) :
    s.word.Printable := (scan_whole h).printable

/-! ## Any source text -/

/-- A text is read into words and one end of the input; what holds of every scanned word holds of
these. -/
theorem tokensFrom_forall {P : Word → Prop}
    (hP : ∀ {c : Char} {cs : List Char} {s : Scan}, scan c cs = .ok s → P s.word) {p : Position}
    {cs : List Char} {ts : List Token} (h : tokensFrom p cs = .ok ts) :
    ∃ row q, ts = row ++ [Token.eof q] ∧ ∀ t ∈ row, P t.toWord := by
  fun_induction tokensFrom p cs generalizing ts with
  | case1 => exact nomatch h
  | case2 p cs q =>
    obtain rfl := Except.ok.inj h
    exact ⟨[], q, rfl, List.forall_mem_nil _⟩
  | case3 => exact nomatch h
  | case4 p cs q c rest _ s hs _ ih =>
    cases hrest : tokensFrom (q.advance s.lexeme) s.rest with
    | error e =>
      rw [hrest] at h
      exact nomatch h
    | ok us =>
      rw [hrest] at h
      obtain rfl := Except.ok.inj h
      obtain ⟨row, last, rfl, hrow⟩ := ih hrest
      exact ⟨s.token q :: row, last, rfl, List.forall_mem_cons.2 ⟨hP hs, hrow⟩⟩

/-- A text is read into words that can be printed and one end of the input. -/
theorem tokensFrom_printable {p : Position} {cs : List Char} {ts : List Token}
    (h : tokensFrom p cs = .ok ts) :
    ∃ row q, ts = row ++ [Token.eof q] ∧ ∀ t ∈ row, t.toWord.Printable :=
  tokensFrom_forall scan_printable h

end TermLang
