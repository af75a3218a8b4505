import TermLang.Proofs.PrintedText
import TermLang.Proofs.Scanned

/-!
# Words in front of trivia

Whatever was scanned as a word is scanned as the same word when trivia or the end of the text comes
right after it, or after some of what came next. Every scanner looks at most two characters ahead, and
what it looks for is never a blank or the slash of a comment; so it stops where it stopped before.
-/

namespace TermLang

/-- The text is empty, or begins with a blank or with the slash of a comment. -/
inductive Detached : List Char → Prop
  | nil : Detached []
  | blank {c : Char} {cs : List Char} : isBlank c = true → Detached (c :: cs)
  | slash {cs : List Char} : Detached ('/' :: cs)

namespace Detached

variable {cs : List Char}

/-- What holds of all characters that can begin such a text. -/
theorem head {p : Char → Prop} (h : Detached cs) (hblank : ∀ c, isBlank c = true → p c)
    (hslash : p '/') : ∀ c ∈ cs.head?, p c := by
  intro c hc
  cases h with
  | nil => exact nomatch hc
  | blank hb =>
    obtain rfl := Option.some.inj hc
    exact hblank _ hb
  | slash =>
    obtain rfl := Option.some.inj hc
    exact hslash

theorem not_identChar (h : Detached cs) : ∀ c ∈ cs.head?, isIdentChar c = false := by
  refine h.head (fun c hc => ?_) rfl
  rcases eq_of_isBlank hc with rfl | rfl | rfl | rfl <;> rfl

/-- It begins with none of the characters that can follow the first one of a mark, nor with the
point of a fraction. -/
theorem not_second (h : Detached cs) : ∀ c ∈ cs.head?, c ≠ '>' ∧ c ≠ '*' ∧ c ≠ '.' := by
  refine h.head (fun c hc => ?_) (by decide)
  rcases eq_of_isBlank hc with rfl | rfl | rfl | rfl <;> decide

theorem not_isAlpha (h : Detached cs) : ∀ c ∈ cs.head?, c.isAlpha = false := fun c hc =>
  not_isAlpha_of_not_isIdentChar (h.not_identChar c hc)

theorem not_isDigit (h : Detached cs) : ∀ c ∈ cs.head?, c.isDigit = false := by
  refine h.head (fun c hc => ?_) rfl
  rcases eq_of_isBlank hc with rfl | rfl | rfl | rfl <;> rfl

theorem not_isDigitOf (h : Detached cs) (base : Nat) :
    ∀ c ∈ cs.head?, Text.isDigitOf base c = false := by
  refine h.head (fun c hc => ?_) rfl
  rcases eq_of_isBlank hc with rfl | rfl | rfl | rfl <;> rfl

end Detached

/-- The second text goes on as the first one does, up to a place where it is detached. -/
inductive Follows : List Char → List Char → Prop
  | apart {cs ds : List Char} : Detached ds → Follows cs ds
  | same {c : Char} {cs ds : List Char} : Follows cs ds → Follows (c :: cs) (c :: ds)

namespace Follows

variable {cs ds : List Char}

theorem append_left (xs : List Char) (h : Follows cs ds) : Follows (xs ++ cs) (xs ++ ds) := by
  induction xs with
  | nil => exact h
  | cons x xs ih => exact .same ih

/-- What holds of the first character of the one holds of that of the other, if it holds of all
characters that trivia can begin with. -/
theorem head {p : Char → Prop} (h : Follows cs ds) (hcs : ∀ c ∈ cs.head?, p c)
    (hdetached : ∀ es, Detached es → ∀ c ∈ es.head?, p c) : ∀ c ∈ ds.head?, p c := by
  cases h with
  | apart hds => exact hdetached _ hds
  | same => exact hcs

/-- A digit that goes on comes from where it follows. -/
theorem any_isDigit (h : Follows cs ds) (hds : ds.head?.any Char.isDigit = true) :
    cs.head?.any Char.isDigit = true := by
  cases h with
  | apart hes =>
    obtain ⟨c, hc, hdigit⟩ := (Option.any_eq_true _ _).1 hds
    rw [hes.not_isDigit c hc] at hdigit
    exact nomatch hdigit
  | same => exact hds

theorem endsNumber (h : Follows cs ds) (hcs : Word.EndsNumber cs) : Word.EndsNumber ds := by
  refine ⟨h.head hcs.not_digit fun _ hes => hes.not_isDigit, ?_⟩
  rintro c tail rfl
  cases h with
  | apart hds => exact absurd rfl (hds.not_second '.' rfl).2.2
  | same h =>
    cases h with
    | apart hds => exact hds.not_isDigit c rfl
    | same => exact hcs.not_fraction c _ rfl

end Follows

/-! ## Scanners that stop in front of trivia -/

/-- Behind `lead`, the scanner reads the scanned word from its characters with any text after them
that follows what was after them. -/
def Scan.Keeps (s : Scan) (lead : List Char) (scanner : List Char → Except ScanFault Scan) : Prop :=
  ∃ body, s.lexeme = lead ++ body ∧
    ∀ rest, Follows s.rest rest → scanner (body ++ rest) = .ok { s with rest := rest }

/-- The characters of a class end where the text goes on with another one. -/
theorem not_of_head?_dropWhile {p : Char → Bool} {cs : List Char} :
    ∀ c ∈ (cs.dropWhile p).head?, p c = false := by
  intro c hc
  have hnot := List.head?_dropWhile_not p cs
  rw [Option.mem_def.1 hc] at hnot
  exact hnot

theorem scanName_keeps (c : Char) (cs : List Char) :
    (scanName c cs).Keeps [c] fun tail => .ok (scanName c tail) := by
  refine ⟨cs.takeWhile isIdentChar, rfl, fun rest hrest => ?_⟩
  have hbody : ∀ d ∈ cs.takeWhile isIdentChar, isIdentChar d = true := fun _ hd =>
    List.mem_takeWhile_imp hd
  obtain ⟨htake, hdrop⟩ := takeWhile_append_of_head hbody
    (hrest.head not_of_head?_dropWhile fun _ h => h.not_identChar)
  simp only [scanName, htake, hdrop]

/-! ### Numbers -/

theorem integerScan_congr {sign lexeme rest : List Char} {magnitude : Nat} {s : Scan}
    (h : integerScan sign magnitude lexeme rest = .ok s) (rest' : List Char) :
    integerScan sign magnitude lexeme rest' = .ok { s with rest := rest' } := by
  unfold integerScan at h ⊢
  split at h
  · obtain rfl := Except.ok.inj h
    rfl
  · cases h

theorem decimalScan_congr {sign whole fraction rest : List Char} {s : Scan}
    (h : decimalScan sign whole fraction rest = .ok s) (rest' : List Char) :
    decimalScan sign whole fraction rest' = .ok { s with rest := rest' } := by
  unfold decimalScan at h ⊢
  dsimp only at h ⊢
  split at h
  · obtain rfl := Except.ok.inj h
    rfl
  · cases h

theorem scanBased_keeps {lead sign cs : List Char} {base : Nat} {s : Scan}
    (h : scanBased lead sign base cs = .ok s) : s.Keeps lead (scanBased lead sign base) := by
  unfold scanBased at h
  split at h
  · cases h
  · rename_i d ds hdigits
    obtain ⟨hlexeme, hs⟩ := integerScan_ok h
    refine ⟨d :: ds, hlexeme, fun rest hrest => ?_⟩
    rw [hs] at hrest
    have hmem : ∀ c ∈ d :: ds, Text.isDigitOf base c = true := by
      rw [← hdigits]
      exact fun _ hc => List.mem_takeWhile_imp hc
    obtain ⟨htake, hdrop⟩ := takeWhile_append_of_head hmem
      (hrest.head not_of_head?_dropWhile fun _ h => h.not_isDigitOf base)
    unfold scanBased
    rw [htake, hdrop]
    exact integerScan_congr h rest

/-- Decimal digits and a fraction; only these are looked at. -/
theorem scanPlain_keeps {sign cs : List Char} {d : Char} {s : Scan} (hd : d.isDigit = true)
    (h : scanPlain sign (d :: cs) = .ok s) :
    s.Keeps (sign ++ [d]) fun tail => scanPlain sign (d :: tail) := by
  have htake : (d :: cs).takeWhile Char.isDigit = d :: cs.takeWhile Char.isDigit := by simp [hd]
  have hdrop : (d :: cs).dropWhile Char.isDigit = cs.dropWhile Char.isDigit := by simp [hd]
  have hwhole : ∀ c ∈ d :: cs.takeWhile Char.isDigit, c.isDigit = true :=
    List.forall_mem_cons.2 ⟨hd, fun _ hc => List.mem_takeWhile_imp hc⟩
  unfold scanPlain at h
  dsimp only at h
  rw [htake, hdrop] at h
  -- a number without a fraction is a row of digits
  have integer : Word.EndsNumber (cs.dropWhile Char.isDigit) →
      integerScan sign (Text.ofDigits 10 (d :: cs.takeWhile Char.isDigit))
        (sign ++ d :: cs.takeWhile Char.isDigit) (cs.dropWhile Char.isDigit) = .ok s →
      s.Keeps (sign ++ [d]) fun tail => scanPlain sign (d :: tail) := by
    intro hends h
    obtain ⟨hlexeme, hs⟩ := integerScan_ok h
    refine ⟨cs.takeWhile Char.isDigit, by simp [hlexeme], fun rest hrest => ?_⟩
    show scanPlain sign (d :: cs.takeWhile Char.isDigit ++ rest) = _
    rw [Word.scanPlain_integer sign hwhole ((hs ▸ hrest).endsNumber hends)]
    exact integerScan_congr h rest
  split at h
  · rename_i e tail htail
    split at h
    · rename_i he
      obtain ⟨hlexeme, hs⟩ := decimalScan_ok h
      have hfraction : ∀ c ∈ e :: tail.takeWhile Char.isDigit, c.isDigit = true :=
        List.forall_mem_cons.2 ⟨he, fun _ hc => List.mem_takeWhile_imp hc⟩
      refine ⟨cs.takeWhile Char.isDigit ++ '.' :: e :: tail.takeWhile Char.isDigit,
        by simp [hlexeme], fun rest hrest => ?_⟩
      have hnext : ∀ c ∈ rest.head?, c.isDigit = false :=
        (hs ▸ hrest).head not_of_head?_dropWhile fun _ h => h.not_isDigit
      have hscan := (Word.scanPlain_decimal (List.forall_mem_append.2 ⟨hwhole, hfraction⟩)
        (List.cons_ne_nil _ _) hnext).trans (decimalScan_congr h rest)
      simpa only [List.append_assoc, List.cons_append] using hscan
    · rename_i he
      refine integer ⟨not_of_head?_dropWhile, fun c rest hrest => ?_⟩ (htail ▸ h)
      obtain ⟨rfl, -⟩ := List.cons.inj (List.cons.inj (htail.symm.trans hrest)).2
      exact Bool.eq_false_of_not_eq_true he
  · rename_i hne
    exact integer ⟨not_of_head?_dropWhile, fun c rest hrest => absurd hrest (hne c rest)⟩ h

theorem scanNumber_keeps {sign cs : List Char} {d : Char} {s : Scan} (hd : d.isDigit = true)
    (h : scanNumber sign (d :: cs) = .ok s) :
    s.Keeps (sign ++ [d]) fun tail => scanNumber sign (d :: tail) := by
  have plain : (d = '0' → ∀ c ∈ cs.head?, basePrefix? c = none) → scanPlain sign (d :: cs) = .ok s →
      s.Keeps (sign ++ [d]) fun tail => scanNumber sign (d :: tail) := by
    intro hnext h
    obtain ⟨body, hlexeme, hkeeps⟩ := scanPlain_keeps hd h
    have hcs : body ++ s.rest = cs := by
      have htext := scanPlain_append h
      rw [hlexeme] at htext
      simpa using htext
    refine ⟨body, hlexeme, fun rest hrest => ?_⟩
    have hbody : Follows cs (body ++ rest) := hcs ▸ hrest.append_left body
    dsimp only
    rw [Word.scanNumber_plain fun hzero => hbody.head (hnext hzero) fun _ hes c hc =>
      basePrefix?_eq_none (hes.not_isAlpha c hc)]
    exact hkeeps rest hrest
  unfold scanNumber at h
  split at h
  · rename_i letter digits heq
    obtain ⟨rfl, rfl⟩ := List.cons_eq_cons.1 heq
    split at h
    · rename_i base hbase
      obtain ⟨body, hlexeme, hkeeps⟩ := scanBased_keeps h
      refine ⟨letter :: body, by simp [hlexeme], fun rest hrest => ?_⟩
      show scanNumber sign ('0' :: letter :: (body ++ rest)) = _
      simp only [scanNumber, hbase]
      exact hkeeps rest hrest
    · rename_i hbase
      refine plain (fun _ c hc => ?_) h
      obtain rfl := Option.some.inj hc
      exact hbase
  · rename_i hne
    refine plain (fun hzero c hc => ?_) h
    obtain ⟨tail, rfl⟩ := List.head?_eq_some_iff.1 hc
    exact absurd (by rw [hzero]) (hne c tail)

/-! ### Strings and characters -/

/-- The text of a string holds its closing quote. -/
theorem stringBody_ne_nil {cs value raw rest : List Char}
    (h : stringBody cs = some (value, raw, rest)) : raw ≠ [] := by
  unfold stringBody at h
  split at h
  · cases h
  · simp only [Option.some.injEq, Prod.mk.injEq] at h
    simp [← h.2.1]
  all_goals
    obtain ⟨_, _, heq⟩ := Option.map_eq_some_iff.1 h
    simp only [Prod.mk.injEq] at heq
    simp [← heq.2.1]

theorem stringBody_keeps {cs value raw rest : List Char}
    (h : stringBody cs = some (value, raw, rest)) (rest' : List Char) :
    stringBody (raw ++ rest') = some (value, raw, rest') := by
  fun_induction stringBody cs generalizing value raw rest with
  | case1 => cases h
  | case2 =>
    simp only [Option.some.injEq, Prod.mk.injEq] at h
    obtain ⟨rfl, rfl, -⟩ := h
    rfl
  | case3 cs ih =>
    obtain ⟨⟨v, r, t⟩, hbody, heq⟩ := Option.map_eq_some_iff.1 h
    simp only [Prod.mk.injEq] at heq
    obtain ⟨rfl, rfl, -⟩ := heq
    show (stringBody (r ++ rest')).map _ = _
    rw [ih hbody]
    rfl
  | case4 c cs hquote hescape ih =>
    obtain ⟨⟨v, r, t⟩, hbody, heq⟩ := Option.map_eq_some_iff.1 h
    simp only [Prod.mk.injEq] at heq
    obtain ⟨rfl, rfl, -⟩ := heq
    have hnext : ∀ tail, ¬ (c = '\\' ∧ r ++ rest' = '"' :: tail) := by
      rintro tail ⟨hc, hr⟩
      cases r with
      | nil => exact stringBody_ne_nil hbody rfl
      | cons q r =>
        obtain rfl := (List.cons_eq_cons.1 hr).1
        exact hescape (r ++ t) hc (stringBody_append hbody).symm
    rw [List.cons_append, Word.stringBody_cons hquote hnext, ih hbody]
    rfl

theorem scanString_keeps {cs : List Char} {s : Scan} (h : scanString cs = .ok s) :
    s.Keeps ['"'] scanString := by
  unfold scanString at h
  split at h
  · rename_i hbody
    obtain rfl := Except.ok.inj h
    refine ⟨_, rfl, fun rest _ => ?_⟩
    simp only [scanString, stringBody_keeps hbody rest]
  · cases h

theorem closeChar_keeps {seen cs : List Char} {value : Char} {s : Scan}
    (h : closeChar seen value cs = .ok s) : s.Keeps seen (closeChar seen value) := by
  unfold closeChar at h
  split at h
  · cases h
  · split at h
    · rename_i c _ hc
      obtain rfl := Except.ok.inj h
      refine ⟨[c], rfl, fun rest _ => ?_⟩
      simp only [List.cons_append, List.nil_append, closeChar, if_pos hc]
    · cases h

theorem scanChar_keeps {cs : List Char} {s : Scan} (h : scanChar cs = .ok s) :
    s.Keeps ['\''] scanChar := by
  unfold scanChar at h
  split at h
  · cases h
  · rename_i c tail
    split at h
    · cases h
    · rename_i hquote
      split at h
      · rename_i hescape
        unfold scanEscaped at h
        split at h
        · cases h
        · rename_i d _
          obtain ⟨body, hlexeme, hkeeps⟩ := closeChar_keeps h
          refine ⟨c :: d :: body, by rw [hlexeme, hescape]; rfl, fun rest hrest => ?_⟩
          simp only [List.cons_append, scanChar, if_neg hquote, if_pos hescape]
          exact hkeeps rest hrest
      · rename_i hescape
        obtain ⟨body, hlexeme, hkeeps⟩ := closeChar_keeps h
        refine ⟨c :: body, by rw [hlexeme]; rfl, fun rest hrest => ?_⟩
        simp only [List.cons_append, scanChar, if_neg hquote, if_neg hescape]
        exact hkeeps rest hrest

/-! ### Marks -/

theorem mark?_keeps {c : Char} {cs second rest rest' : List Char} {kind : Kind}
    (h : mark? c cs = some (kind, second, rest)) (hrest : Follows rest rest') :
    mark? c (second ++ rest') = some (kind, second, rest') := by
  unfold mark? at h
  split at h <;> simp only [Option.some.injEq, Prod.mk.injEq, reduceCtorEq] at h <;>
    obtain ⟨rfl, rfl, rfl⟩ := h
  case h_4 hne =>
    have hnext : ∀ d ∈ rest'.head?, d ≠ '*' :=
      hrest.head (fun d hd => by
        obtain ⟨tail, rfl⟩ := List.head?_eq_some_iff.1 hd
        rintro rfl
        exact hne tail rfl) fun _ hes d hd => (hes.not_second d hd).2.1
    cases rest' with
    | nil => rfl
    | cons d ds => simp [mark?, hnext d rfl]
  case h_5 hne =>
    have hnext : ∀ d ∈ rest'.head?, d ≠ '>' :=
      hrest.head (fun d hd => by
        obtain ⟨tail, rfl⟩ := List.head?_eq_some_iff.1 hd
        rintro rfl
        exact hne tail rfl) fun _ hes d hd => (hes.not_second d hd).1
    cases rest' with
    | nil => rfl
    | cons d ds => simp [mark?, hnext d rfl]
  all_goals rfl

/-! ## Any word -/

theorem scan_keeps {c : Char} {cs : List Char} {s : Scan} (h : scan c cs = .ok s) :
    s.Keeps [c] (scan c) := by
  unfold scan at h
  split at h
  · rename_i hstart
    obtain rfl := Except.ok.inj h
    obtain ⟨body, hlexeme, hkeeps⟩ := scanName_keeps c cs
    refine ⟨body, hlexeme, fun rest hrest => ?_⟩
    rw [scan, if_pos hstart]
    exact hkeeps rest hrest
  rename_i hstart
  split at h
  · rename_i hdigit
    obtain ⟨body, hlexeme, hkeeps⟩ := scanNumber_keeps hdigit h
    refine ⟨body, hlexeme, fun rest hrest => ?_⟩
    rw [scan, if_neg hstart, if_pos hdigit]
    exact hkeeps rest hrest
  rename_i hdigit
  split at h
  · rename_i hsign
    obtain ⟨hc, hnext⟩ := Bool.and_eq_true_iff.1 hsign
    obtain ⟨d, tail, rfl, hd⟩ : ∃ d tail, cs = d :: tail ∧ d.isDigit = true := by
      cases cs with
      | nil => simp at hnext
      | cons d tail => exact ⟨d, tail, rfl, hnext⟩
    obtain ⟨body, hlexeme, hkeeps⟩ := scanNumber_keeps hd h
    refine ⟨d :: body, by rw [hlexeme]; rfl, fun rest hrest => ?_⟩
    rw [List.cons_append, scan, if_neg hstart, if_neg hdigit, if_pos (by simp [hc, hd])]
    exact hkeeps rest hrest
  rename_i hsign
  split at h
  · rename_i hquote
    subst hquote
    exact scanString_keeps h
  split at h
  · rename_i hquote
    subst hquote
    exact scanChar_keeps h
  rename_i hstring hchar
  unfold scanMark at h
  split at h
  · rename_i second _ hmark
    obtain rfl := Except.ok.inj h
    refine ⟨second, rfl, fun rest hrest => ?_⟩
    have hcs : Follows cs (second ++ rest) := mark?_append hmark ▸ hrest.append_left second
    have hunsigned : ¬ (isSign c && (second ++ rest).head?.any Char.isDigit) = true := by
      simp only [Bool.and_eq_true, not_and] at hsign ⊢
      exact fun hc hdigit => hsign hc (hcs.any_isDigit hdigit)
    rw [scan, if_neg hstart, if_neg hdigit, if_neg hunsigned, if_neg hstring, if_neg hchar]
    simp only [scanMark, mark?_keeps hmark hrest]
  · cases h

/-- No trivia begins where a word is scanned. -/
theorem not_trivia_of_scan {c : Char} {cs : List Char} {s : Scan} (h : scan c cs = .ok s) :
    c ≠ '/' ∧ isBlank c = false := by
  constructor
  · rintro rfl
    cases h
  · cases hblank : isBlank c with
    | false => rfl
    | true => rcases eq_of_isBlank hblank with rfl | rfl | rfl | rfl <;> cases h

/-- A scanned word is scanned again in front of any trivia. -/
theorem scans_of_scan {c : Char} {cs : List Char} {s : Scan} (h : scan c cs = .ok s)
    {rest : List Char} (hrest : Detached rest) : s.word.Scans rest := by
  obtain ⟨body, hlexeme, hkeeps⟩ := scan_keeps h
  obtain ⟨hslash, hblank⟩ := not_trivia_of_scan h
  refine ⟨c, body ++ rest, ?_, hslash, hblank, ?_⟩
  · simp [Scan.word, hlexeme]
  · rw [hkeeps rest (.apart hrest)]
    simp [Scan.word]

end TermLang
