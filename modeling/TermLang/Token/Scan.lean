import TermLang.Decimal.Rounding
import TermLang.Token.Basic
import TermLang.Token.LexError

/-!
# Scanning one word

At the front of a text that begins with no trivia stands a word or a lexical fault. The scan of a
word splits the text into the characters of the word and the rest; what follows a word decides
where it ends only by its first two characters.
-/

namespace TermLang

/-- A word at the front of a text, the characters it is made of and the text after it. -/
structure Scan where
  kind : Kind
  literal : Option Literal
  lexeme : List Char
  rest : List Char
deriving Repr

/-- A fault at the front of a text and the text that was read when it showed. -/
structure ScanFault where
  fault : LexFault
  found : List Char
deriving Repr

/-! ## Identifiers and keywords -/

/-- An ASCII letter or an underscore. -/
def isIdentStart (c : Char) : Bool := c.isAlpha || c = '_'

/-- An ASCII letter or digit, an underscore or a hyphen. -/
def isIdentChar (c : Char) : Bool := c.isAlphanum || c = '_' || c = '-'

/-- A word made of identifier characters is a truth value, a keyword or an identifier. -/
def classify (word : String) : Kind × Option Literal :=
  if word = "true" then (.bool, some (.bool true))
  else if word = "false" then (.bool, some (.bool false))
  else ((Kind.keyword? word).getD .ident, none)

/-- A word from its first character on. -/
def scanName (c : Char) (cs : List Char) : Scan :=
  let lexeme := c :: cs.takeWhile isIdentChar
  let (kind, literal) := classify (String.ofList lexeme)
  ⟨kind, literal, lexeme, cs.dropWhile isIdentChar⟩

/-! ## Numbers -/

/-- The base that a letter after a leading zero stands for. -/
def basePrefix? (c : Char) : Option Nat :=
  if c = 'x' ∨ c = 'X' then some 16
  else if c = 'o' ∨ c = 'O' then some 8
  else if c = 'b' ∨ c = 'B' then some 2
  else none

/-- The sign in front of a number is a minus sign. -/
def isNegative (sign : List Char) : Bool := sign == ['-']

/-- A signed magnitude as a signed 64-bit integer, if it is one. -/
def integer? (negative : Bool) (magnitude : Nat) : Option Int64 :=
  Text.int64? (if negative then -magnitude else magnitude)

/-- An integer word with the given sign and magnitude, if it is in range. -/
def integerScan (sign : List Char) (magnitude : Nat) (lexeme rest : List Char) :
    Except ScanFault Scan :=
  match integer? (isNegative sign) magnitude with
  | some value => .ok ⟨.integer, some (.int value), lexeme, rest⟩
  | none => .error ⟨.integerOutOfRange, lexeme⟩

/-- The digits after a base prefix. -/
def scanBased (lead : List Char) (sign : List Char) (base : Nat) (cs : List Char) :
    Except ScanFault Scan :=
  match cs.takeWhile (Text.isDigitOf base) with
  | [] => .error ⟨.missingDigits base, lead⟩
  | d :: ds =>
    integerScan sign (Text.ofDigits base (d :: ds)) (lead ++ d :: ds)
      (cs.dropWhile (Text.isDigitOf base))

/-- A decimal word with the given sign, whole part and fraction, if it is in range. -/
def decimalScan (sign whole fraction rest : List Char) : Except ScanFault Scan :=
  let lexeme := sign ++ whole ++ '.' :: fraction
  match Double.ofPointed? (isNegative sign) whole fraction with
  | some value => .ok ⟨.decimal, some (.decimal value), lexeme, rest⟩
  | none => .error ⟨.decimalOutOfRange, lexeme⟩

/-- Decimal digits, and a fraction if a point and a digit follow them. -/
def scanPlain (sign cs : List Char) : Except ScanFault Scan :=
  let whole := cs.takeWhile Char.isDigit
  match cs.dropWhile Char.isDigit with
  | '.' :: d :: rest =>
    if d.isDigit then
      decimalScan sign whole (d :: rest.takeWhile Char.isDigit) (rest.dropWhile Char.isDigit)
    else integerScan sign (Text.ofDigits 10 whole) (sign ++ whole) ('.' :: d :: rest)
  | rest => integerScan sign (Text.ofDigits 10 whole) (sign ++ whole) rest

/-- A number after its sign: in the base of a prefix, or decimal. -/
def scanNumber (sign cs : List Char) : Except ScanFault Scan :=
  match cs with
  | '0' :: letter :: digits =>
    match basePrefix? letter with
    | some base => scanBased (sign ++ ['0', letter]) sign base digits
    | none => scanPlain sign cs
  | _ => scanPlain sign cs

/-! ## Strings and characters -/

/-- The value, the text and the rest of a string after its opening quote.

The only escape is a backslash right before a quote; any other backslash stands for itself. -/
def stringBody : List Char → Option (List Char × List Char × List Char)
  | [] => none
  | '"' :: rest => some ([], ['"'], rest)
  | '\\' :: '"' :: cs =>
    (stringBody cs).map fun (value, raw, rest) => ('"' :: value, '\\' :: '"' :: raw, rest)
  | c :: cs => (stringBody cs).map fun (value, raw, rest) => (c :: value, c :: raw, rest)

/-- A string after its opening quote. -/
def scanString (cs : List Char) : Except ScanFault Scan :=
  match stringBody cs with
  | some (value, raw, rest) =>
    .ok ⟨.string, some (.string (String.ofList value)), '"' :: raw, rest⟩
  | none => .error ⟨.unterminatedString, '"' :: cs⟩

/-- The character that a backslash and a character stand for. -/
def unescape (c : Char) : Char :=
  if c = 'n' then '\n'
  else if c = 't' then '\t'
  else if c = 'r' then '\r'
  else if c = '0' then '\x00'
  else c

/-- A character literal that has been read up to its closing quote. -/
def closeChar (seen : List Char) (value : Char) : List Char → Except ScanFault Scan
  | [] => .error ⟨.unterminatedChar, seen⟩
  | c :: rest =>
    if c = '\'' then .ok ⟨.char, some (.char value), seen ++ [c], rest⟩
    else .error ⟨.unterminatedChar, seen ++ [c]⟩

/-- A character literal that has been read up to a backslash. -/
def scanEscaped : List Char → Except ScanFault Scan
  | [] => .error ⟨.unterminatedChar, ['\'', '\\']⟩
  | c :: rest => closeChar ['\'', '\\', c] (unescape c) rest

/-- A character after its opening quote. -/
def scanChar : List Char → Except ScanFault Scan
  | [] => .error ⟨.unterminatedChar, ['\'']⟩
  | c :: cs =>
    if c = '\'' then .error ⟨.emptyChar, ['\'', '\'']⟩
    else if c = '\\' then scanEscaped cs
    else closeChar ['\'', c] c cs

/-! ## Punctuation -/

/-- The punctuation mark at the front of a text, with its second character if it has one. -/
def mark? : Char → List Char → Option (Kind × List Char × List Char)
  | '-', '>' :: rest => some (.arrow, ['>'], rest)
  | '*', '*' :: rest => some (.starStar, ['*'], rest)
  | '=', '>' :: rest => some (.fatArrow, ['>'], rest)
  | '*', rest => some (.star, [], rest)
  | '=', rest => some (.equals, [], rest)
  | '\x7b', rest => some (.braceOpen, [], rest)
  | '\x7d', rest => some (.braceClose, [], rest)
  | '(', rest => some (.parenOpen, [], rest)
  | ')', rest => some (.parenClose, [], rest)
  | '[', rest => some (.bracketOpen, [], rest)
  | ']', rest => some (.bracketClose, [], rest)
  | ':', rest => some (.colon, [], rest)
  | '.', rest => some (.dot, [], rest)
  | _, _ => none

/-- A punctuation mark, or a character that begins no word. -/
def scanMark (c : Char) (cs : List Char) : Except ScanFault Scan :=
  match mark? c cs with
  | some (kind, second, rest) => .ok ⟨kind, none, c :: second, rest⟩
  | none => .error ⟨.unexpectedChar, [c]⟩

/-! ## Any word -/

/-- A plus or minus sign. -/
def isSign (c : Char) : Bool := c = '+' || c = '-'

/-- The word at the front of a nonempty text. -/
def scan (c : Char) (cs : List Char) : Except ScanFault Scan :=
  if isIdentStart c then .ok (scanName c cs)
  else if c.isDigit then scanNumber [] (c :: cs)
  else if isSign c && cs.head?.any Char.isDigit then scanNumber [c] cs
  else if c = '"' then scanString cs
  else if c = '\'' then scanChar cs
  else scanMark c cs

/-! ## The lexeme and the rest make up the text -/

theorem scanName_append (c : Char) (cs : List Char) :
    (scanName c cs).lexeme ++ (scanName c cs).rest = c :: cs := by
  simp [scanName]

theorem integerScan_ok {sign lexeme rest : List Char} {magnitude : Nat} {s : Scan}
    (h : integerScan sign magnitude lexeme rest = .ok s) : s.lexeme = lexeme ∧ s.rest = rest := by
  unfold integerScan at h
  split at h
  · rw [Except.ok.injEq] at h; subst h; exact ⟨rfl, rfl⟩
  · simp at h

theorem decimalScan_ok {sign whole fraction rest : List Char} {s : Scan}
    (h : decimalScan sign whole fraction rest = .ok s) :
    s.lexeme = sign ++ whole ++ '.' :: fraction ∧ s.rest = rest := by
  unfold decimalScan at h
  dsimp only at h
  split at h
  · rw [Except.ok.injEq] at h; subst h; exact ⟨rfl, rfl⟩
  · simp at h

theorem scanBased_append {lead sign cs : List Char} {base : Nat} {s : Scan}
    (h : scanBased lead sign base cs = .ok s) : s.lexeme ++ s.rest = lead ++ cs := by
  unfold scanBased at h
  split at h
  · simp at h
  · rename_i d ds hd
    obtain ⟨hl, hr⟩ := integerScan_ok h
    rw [hl, hr, List.append_assoc, ← hd, List.takeWhile_append_dropWhile]

theorem scanPlain_append {sign cs : List Char} {s : Scan} (h : scanPlain sign cs = .ok s) :
    s.lexeme ++ s.rest = sign ++ cs := by
  have hcs : cs.takeWhile Char.isDigit ++ cs.dropWhile Char.isDigit = cs :=
    List.takeWhile_append_dropWhile
  unfold scanPlain at h
  dsimp only at h
  split at h
  · rename_i d rest hrest
    rw [hrest] at hcs
    split at h
    · obtain ⟨hl, hr⟩ := decimalScan_ok h
      rw [hl, hr]
      conv => rhs; rw [← hcs]
      simp
    · obtain ⟨hl, hr⟩ := integerScan_ok h
      rw [hl, hr, List.append_assoc, hcs]
  · obtain ⟨hl, hr⟩ := integerScan_ok h
    rw [hl, hr, List.append_assoc, hcs]

theorem scanNumber_append {sign cs : List Char} {s : Scan} (h : scanNumber sign cs = .ok s) :
    s.lexeme ++ s.rest = sign ++ cs := by
  unfold scanNumber at h
  split at h
  · split at h
    · rw [scanBased_append h]; simp
    · exact scanPlain_append h
  · exact scanPlain_append h

theorem stringBody_append {cs value raw rest : List Char}
    (h : stringBody cs = some (value, raw, rest)) : raw ++ rest = cs := by
  fun_induction stringBody cs generalizing value raw rest with
  | case1 => simp at h
  | case2 =>
    simp only [Option.some.injEq, Prod.mk.injEq] at h
    rw [← h.2.1, ← h.2.2]
    rfl
  | case3 cs ih =>
    obtain ⟨⟨v, r, t⟩, hb, he⟩ := Option.map_eq_some_iff.1 h
    simp only [Prod.mk.injEq] at he
    rw [← he.2.1, ← he.2.2, ← ih hb]
    rfl
  | case4 c cs _ _ ih =>
    obtain ⟨⟨v, r, t⟩, hb, he⟩ := Option.map_eq_some_iff.1 h
    simp only [Prod.mk.injEq] at he
    rw [← he.2.1, ← he.2.2, ← ih hb]
    rfl

theorem scanString_append {cs : List Char} {s : Scan} (h : scanString cs = .ok s) :
    s.lexeme ++ s.rest = '"' :: cs := by
  unfold scanString at h
  split at h
  · rename_i hb
    rw [Except.ok.injEq] at h
    subst h
    simp [stringBody_append hb]
  · simp at h

theorem closeChar_append {seen cs : List Char} {value : Char} {s : Scan}
    (h : closeChar seen value cs = .ok s) : s.lexeme ++ s.rest = seen ++ cs := by
  cases cs with
  | nil => simp [closeChar] at h
  | cons c rest =>
    rw [closeChar] at h
    split at h
    · rw [Except.ok.injEq] at h; subst h; simp
    · simp at h

theorem scanEscaped_append {cs : List Char} {s : Scan} (h : scanEscaped cs = .ok s) :
    s.lexeme ++ s.rest = '\'' :: '\\' :: cs := by
  cases cs with
  | nil => simp [scanEscaped] at h
  | cons c cs => rw [closeChar_append h]; rfl

theorem scanChar_append {cs : List Char} {s : Scan} (h : scanChar cs = .ok s) :
    s.lexeme ++ s.rest = '\'' :: cs := by
  cases cs with
  | nil => simp [scanChar] at h
  | cons c cs =>
    rw [scanChar] at h
    split at h
    · simp at h
    · split at h
      · rename_i hb
        rw [scanEscaped_append h, hb]
      · rw [closeChar_append h]; rfl

theorem mark?_append {c : Char} {cs second rest : List Char} {kind : Kind}
    (h : mark? c cs = some (kind, second, rest)) : second ++ rest = cs := by
  unfold mark? at h
  split at h <;> simp only [Option.some.injEq, Prod.mk.injEq, reduceCtorEq] at h <;>
    rw [← h.2.1, ← h.2.2] <;> rfl

theorem scanMark_append {c : Char} {cs : List Char} {s : Scan} (h : scanMark c cs = .ok s) :
    s.lexeme ++ s.rest = c :: cs := by
  unfold scanMark at h
  split at h
  · rename_i hm
    rw [Except.ok.injEq] at h
    subst h
    simp [mark?_append hm]
  · simp at h

/-- A scanned word and the rest make up the text. -/
theorem scan_append {c : Char} {cs : List Char} {s : Scan} (h : scan c cs = .ok s) :
    s.lexeme ++ s.rest = c :: cs := by
  unfold scan at h
  split at h
  · rw [Except.ok.injEq] at h; subst h; exact scanName_append c cs
  · split at h
    · simpa using scanNumber_append h
    · split at h
      · simpa using scanNumber_append h
      · split at h
        · rename_i hq; subst hq; exact scanString_append h
        · split at h
          · rename_i hq; subst hq; exact scanChar_append h
          · exact scanMark_append h

/-! ## No word is empty -/

theorem scanNumber_ne_nil {sign cs : List Char} {s : Scan} (h : scanNumber sign cs = .ok s)
    (hd : cs.head?.any Char.isDigit = true) : s.lexeme ≠ [] := by
  have plain : scanPlain sign cs = .ok s → s.lexeme ≠ [] := by
    intro h
    cases cs with
    | nil => simp at hd
    | cons d ds =>
      have hw : (d :: ds).takeWhile Char.isDigit ≠ [] := by
        simp only [List.head?_cons, Option.any_some] at hd
        simp [hd]
      unfold scanPlain at h
      dsimp only at h
      split at h
      · split at h
        · simp [(decimalScan_ok h).1]
        · rw [(integerScan_ok h).1]; simp [hw]
      · rw [(integerScan_ok h).1]; simp [hw]
  unfold scanNumber at h
  split at h
  · split at h
    · unfold scanBased at h
      split at h
      · simp at h
      · simp [(integerScan_ok h).1]
    · exact plain h
  · exact plain h

theorem closeChar_ne_nil {seen cs : List Char} {value : Char} {s : Scan}
    (h : closeChar seen value cs = .ok s) : s.lexeme ≠ [] := by
  cases cs with
  | nil => simp [closeChar] at h
  | cons c rest =>
    rw [closeChar] at h
    split at h
    · rw [Except.ok.injEq] at h; subst h; simp
    · simp at h

theorem scan_ne_nil {c : Char} {cs : List Char} {s : Scan} (h : scan c cs = .ok s) :
    s.lexeme ≠ [] := by
  unfold scan at h
  split at h
  · rw [Except.ok.injEq] at h; subst h; simp [scanName]
  · split at h
    · rename_i hd
      exact scanNumber_ne_nil h (by simpa using hd)
    · split at h
      · rename_i hd
        rw [Bool.and_eq_true] at hd
        exact scanNumber_ne_nil h hd.2
      · split at h
        · unfold scanString at h
          split at h
          · rw [Except.ok.injEq] at h; subst h; simp
          · simp at h
        · split at h
          · cases cs with
            | nil => simp [scanChar] at h
            | cons c cs =>
              rw [scanChar] at h
              split at h
              · simp at h
              · split at h
                · cases cs with
                  | nil => simp [scanEscaped] at h
                  | cons c cs => exact closeChar_ne_nil h
                · exact closeChar_ne_nil h
          · unfold scanMark at h
            split at h
            · rw [Except.ok.injEq] at h; subst h; simp
            · simp at h

/-- A scanned word leaves less text than there was. -/
theorem length_lt_of_scan {c : Char} {cs : List Char} {s : Scan} (h : scan c cs = .ok s) :
    s.rest.length < (c :: cs).length := by
  have hl := List.length_pos_iff.2 (scan_ne_nil h)
  rw [← scan_append h, List.length_append]
  omega

end TermLang
