import TermLang.Proofs.PrintedText
import TermLang.Proofs.Scanned

/-!
# Quoted literals

Only a quote is escaped when a string is printed, and only a backslash right before a quote is an escape
when it is read; so printing gives back the text that any string was read from, while a string that closes
with a backslash is printed as a text that does not end it. A character is printed with an escape or as
itself, and is read back in every case.
-/

namespace TermLang

/-! ## The text of a string that was read -/

/-- What is read up to the closing quote is what is printed for the value. -/
theorem raw_of_stringBody {cs value raw rest : List Char}
    (h : stringBody cs = some (value, raw, rest)) : raw = spellStringBody value ++ ['"'] := by
  fun_induction stringBody cs generalizing value raw rest with
  | case1 => cases h
  | case2 =>
    obtain ⟨rfl, rfl, -⟩ := Prod.mk.inj (Option.some.inj h)
    rfl
  | case3 cs ih =>
    obtain ⟨⟨v, r, t⟩, hbody, heq⟩ := Option.map_eq_some_iff.1 h
    obtain ⟨rfl, rfl, -⟩ := Prod.mk.inj heq
    rw [ih hbody]
    rfl
  | case4 c cs hquote _ ih =>
    -- no quote, escaped or not: the character stands for itself, a backslash too
    obtain ⟨⟨v, r, t⟩, hbody, heq⟩ := Option.map_eq_some_iff.1 h
    obtain ⟨rfl, rfl, -⟩ := Prod.mk.inj heq
    have hspell : spellStringBody (c :: v) = c :: spellStringBody v := by
      simp [spellStringBody, show c ≠ '"' from hquote]
    rw [ih hbody, hspell]
    rfl

/-- A scanned string is the word that is printed for its value, which does not close with a backslash. -/
theorem scanString_word {cs : List Char} {s : Scan} (h : scanString cs = .ok s) :
    ∃ text, s.word = (Literal.string text).word ∧ text.toList.getLast? ≠ some '\\' := by
  unfold scanString at h
  split at h
  · rename_i value raw rest hbody
    obtain rfl := Except.ok.inj h
    refine ⟨String.ofList value, ?_, by rw [String.toList_ofList]; exact stringBody_getLast? hbody⟩
    rw [Scan.word, Literal.word, String.toList_ofList, raw_of_stringBody hbody]
    rfl
  · cases h

/-! ## Only a quote begins a string -/

theorem kind_of_integerScan {sign lexeme rest : List Char} {magnitude : Nat} {s : Scan}
    (h : integerScan sign magnitude lexeme rest = .ok s) : s.kind = .integer := by
  unfold integerScan at h
  split at h
  · obtain rfl := Except.ok.inj h
    rfl
  · exact nomatch h

theorem kind_of_decimalScan {sign whole fraction rest : List Char} {s : Scan}
    (h : decimalScan sign whole fraction rest = .ok s) : s.kind = .decimal := by
  unfold decimalScan at h
  dsimp only at h
  split at h
  · obtain rfl := Except.ok.inj h
    rfl
  · exact nomatch h

theorem kind_of_scanPlain {sign cs : List Char} {s : Scan} (h : scanPlain sign cs = .ok s) :
    s.kind = .integer ∨ s.kind = .decimal := by
  unfold scanPlain at h
  dsimp only at h
  split at h
  · split at h
    · exact .inr (kind_of_decimalScan h)
    · exact .inl (kind_of_integerScan h)
  · exact .inl (kind_of_integerScan h)

theorem kind_of_scanNumber {sign cs : List Char} {s : Scan} (h : scanNumber sign cs = .ok s) :
    s.kind = .integer ∨ s.kind = .decimal := by
  unfold scanNumber at h
  split at h
  · split at h
    · unfold scanBased at h
      split at h
      · exact nomatch h
      · exact .inl (kind_of_integerScan h)
    · exact kind_of_scanPlain h
  · exact kind_of_scanPlain h

theorem kind_of_closeChar {seen cs : List Char} {value : Char} {s : Scan}
    (h : closeChar seen value cs = .ok s) : s.kind = .char := by
  unfold closeChar at h
  split at h
  · exact nomatch h
  · split at h
    · obtain rfl := Except.ok.inj h
      rfl
    · exact nomatch h

theorem kind_of_scanChar {cs : List Char} {s : Scan} (h : scanChar cs = .ok s) : s.kind = .char := by
  unfold scanChar at h
  split at h
  · exact nomatch h
  · split at h
    · exact nomatch h
    · split at h
      · unfold scanEscaped at h
        split at h
        · exact nomatch h
        · exact kind_of_closeChar h
      · exact kind_of_closeChar h

/-- A word of identifier characters is no string, whatever it spells. -/
theorem kind_classify_ne_string (text : String) : (classify text).1 ≠ .string := by
  unfold classify
  split
  · decide
  · split
    · decide
    · cases hkeyword : Kind.keyword? text with
      | none => decide
      | some k =>
        have hk := Kind.text?_of_keyword? hkeyword
        rintro rfl
        exact nomatch hk

theorem scanString_of_kind {c : Char} {cs : List Char} {s : Scan} (h : scan c cs = .ok s)
    (hk : s.kind = .string) : scanString cs = .ok s := by
  -- of the ways to go on from the first character, all but one give other kinds
  have number : ∀ {sign ds : List Char}, scanNumber sign ds ≠ .ok s := by
    intro sign ds h
    rcases kind_of_scanNumber h with h | h <;> exact nomatch h.symm.trans hk
  unfold scan at h
  split at h
  · obtain rfl := Except.ok.inj h
    exact absurd hk (kind_classify_ne_string _)
  · split at h
    · exact absurd h number
    · split at h
      · exact absurd h number
      · split at h
        · exact h
        · split at h
          · exact nomatch (kind_of_scanChar h).symm.trans hk
          · unfold scanMark at h
            split at h
            · rename_i kind second rest hmark
              obtain rfl := Except.ok.inj h
              obtain rfl : kind = .string := hk
              unfold mark? at hmark
              split at hmark <;> cases hmark
            · exact nomatch h

/-- Every string among the tokens of a source is the word that is printed for its value. -/
theorem word_of_string_token {source : String} {ts : List Token} (h : tokenize source = .ok ts)
    {t : Token} (ht : t ∈ ts) (hk : t.kind = .string) :
    ∃ text, t.toWord = (Literal.string text).word ∧ text.toList.getLast? ≠ some '\\' := by
  obtain ⟨row, q, rfl, hrow⟩ := tokensFrom_forall
    (P := fun w => w.kind = .string →
      ∃ text, w = (Literal.string text).word ∧ text.toList.getLast? ≠ some '\\')
    (fun hscan hk => scanString_word (scanString_of_kind hscan hk)) h
  rcases List.mem_append.1 ht with ht | ht
  · exact hrow t ht hk
  · obtain rfl := List.mem_singleton.1 ht
    exact nomatch hk

/-! ## Printed literals -/

/-- The text is read into one token, of a literal, and the end of the input. -/
def ReadAsLiteral (source : String) (l : Literal) : Prop :=
  ∃ t q, tokenize source = .ok [t, Token.eof q] ∧ t.kind = l.kind ∧ t.literal = some l

theorem Term.toList_text_literal (l : Literal) : (Term.literal l).text.toList = l.word.lexeme.toList := by
  rw [Term.text, String.toList_ofList, Term.layout, Term.pieces, Piece.render, Piece.render,
    List.append_nil]

theorem Literal.kind_word (l : Literal) : l.word.kind = l.kind := by
  cases l <;> rfl

theorem readAsLiteral_of_solid {l : Literal} (h : l.word.Solid) :
    ReadAsLiteral (Term.literal l).text l := by
  obtain ⟨row, q, hrow, hwords⟩ := (Lexes.nil.word (h [])) .start
  obtain ⟨t, rest, rfl, ht, hrest⟩ := List.map_eq_cons_iff.1 hwords
  obtain rfl := List.map_eq_nil_iff.1 hrest
  refine ⟨t, q, ?_, ?_, ?_⟩
  · rw [tokenize, Term.toList_text_literal, ← List.append_nil l.word.lexeme.toList]
    exact hrow
  · rw [← l.kind_word, ← ht]
  · rw [← l.literal_word, ← ht]

/-- A printed string is read back as one string of its value just if the value does not close with a
backslash; every string that is read from a source is printed as its lexeme; and every printed character
is read back as one character. -/
theorem quoted_literals :
    (∀ text : String, ReadAsLiteral (Term.literal (.string text)).text (.string text) ↔
      text.toList.getLast? ≠ some '\\') ∧
    (∀ (source : String) (ts : List Token), tokenize source = .ok ts → ∀ t ∈ ts, t.kind = .string →
      ∃ text, t.literal = some (.string text) ∧ (Term.literal (.string text)).text = t.lexeme) ∧
    ∀ c : Char, ReadAsLiteral (Term.literal (.char c)).text (.char c) := by
  refine ⟨fun text => ⟨?_, fun h => readAsLiteral_of_solid (Word.solid_string h)⟩, ?_,
    fun c => readAsLiteral_of_solid (Word.solid_char c)⟩
  · rintro ⟨t, q, hts, hk, hliteral⟩
    obtain ⟨value, hword, hlast⟩ := word_of_string_token hts List.mem_cons_self hk
    have hvalue : t.literal = some (.string value) := by rw [hword]; rfl
    obtain rfl := Literal.string.inj (Option.some.inj (hvalue.symm.trans hliteral))
    exact hlast
  · intro source ts hts t ht hk
    obtain ⟨text, hword, -⟩ := word_of_string_token hts ht hk
    refine ⟨text, by rw [hword]; rfl, String.toList_inj.1 ?_⟩
    rw [Term.toList_text_literal, hword]

/-! Two backslashes in front of a quote: the second one escapes it, the first stands for itself. -/

theorem quoted_literals_backslashes :
    ReadAsLiteral (Term.literal (.string "\\\"a")).text (.string "\\\"a") ∧
    ¬ ReadAsLiteral (Term.literal (.string "a\\\\")).text (.string "a\\\\") ∧
    tokenize "f\"\\\\\"a\"" = .ok [⟨.ident "f", ⟨.start, ⟨1, 2, 1⟩⟩⟩,
      ⟨(Literal.string "\\\"a").word, ⟨⟨1, 2, 1⟩, ⟨1, 8, 7⟩⟩⟩, .eof ⟨1, 8, 7⟩] ∧
    (Term.literal (.string "\\\"a")).text = "\"\\\\\"a\"" := by
  have htokens : tokenize "f\"\\\\\"a\"" = .ok [⟨.ident "f", ⟨.start, ⟨1, 2, 1⟩⟩⟩,
      ⟨(Literal.string "\\\"a").word, ⟨⟨1, 2, 1⟩, ⟨1, 8, 7⟩⟩⟩, .eof ⟨1, 8, 7⟩] := by
    decide +kernel
  obtain ⟨text, hliteral, htext⟩ := quoted_literals.2.1 _ _ htokens
    ⟨(Literal.string "\\\"a").word, ⟨⟨1, 2, 1⟩, ⟨1, 8, 7⟩⟩⟩ (by simp) rfl
  obtain rfl : "\\\"a" = text := Literal.string.inj (Option.some.inj hliteral)
  refine ⟨(quoted_literals.1 _).2 (by decide), fun h => (quoted_literals.1 _).1 h (by decide),
    htokens, htext.trans ?_⟩
  decide +kernel

end TermLang
