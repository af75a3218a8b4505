import TermLang.Frontend

/-!
# Error codes

Every sort of error has a registered code with a title and advice. Codes that begin with `E01` are
lexical, those that begin with `E02` syntactic.
-/

namespace TermLang

/-- A registered code, the title of its errors and the advice that goes with it. -/
structure ErrorCode where
  code : String
  title : String
  help : String
deriving DecidableEq, Repr

namespace ErrorCode

def unexpectedChar : ErrorCode :=
  ⟨"E0101", "unexpected character", "remove the character or put it inside a string literal"⟩

def unterminatedString : ErrorCode :=
  ⟨"E0102", "unterminated string literal", "close the string with '\"'"⟩

def unterminatedChar : ErrorCode :=
  ⟨"E0103", "unterminated character literal",
    "a character literal holds exactly one character between single quotes"⟩

def emptyChar : ErrorCode :=
  ⟨"E0104", "empty character literal",
    "a character literal holds exactly one character between single quotes"⟩

def unterminatedComment : ErrorCode :=
  ⟨"E0105", "unterminated block comment",
    "close the comment with '*/'; block comments do not nest"⟩

def missingDigits : ErrorCode :=
  ⟨"E0106", "missing digits after base prefix", "write at least one digit after 0x, 0o or 0b"⟩

def integerOutOfRange : ErrorCode :=
  ⟨"E0107", "integer literal out of range",
    "integer literals must fit in a signed 64-bit integer"⟩

def decimalOutOfRange : ErrorCode :=
  ⟨"E0108", "decimal literal out of range", "decimal literals must be finite 64-bit floats"⟩

def unexpectedToken : ErrorCode :=
  ⟨"E0201", "unexpected token", "check the surrounding brackets and keywords"⟩

def unexpectedEnd : ErrorCode :=
  ⟨"E0202", "unexpected end of input",
    "the input ends inside an unfinished term; check for a missing closing bracket"⟩

def nestingTooDeep : ErrorCode :=
  ⟨"E0203", "nesting too deep",
    "flatten the input or raise `max_depth` in the [parser] section of shll.toml"⟩

/-- Every registered code, in ascending order. -/
def all : List ErrorCode :=
  [unexpectedChar, unterminatedString, unterminatedChar, emptyChar, unterminatedComment,
   missingDigits, integerOutOfRange, decimalOutOfRange,
   unexpectedToken, unexpectedEnd, nestingTooDeep]

/-- The registered code with a given text. -/
def find? (code : String) : Option ErrorCode := all.find? fun c => c.code == code

/-- The code of a lexical fault. -/
def ofLexFault : LexFault → ErrorCode
  | .unexpectedChar => unexpectedChar
  | .unterminatedString => unterminatedString
  | .unterminatedChar => unterminatedChar
  | .emptyChar => emptyChar
  | .unterminatedComment => unterminatedComment
  | .missingDigits _ => missingDigits
  | .integerOutOfRange => integerOutOfRange
  | .decimalOutOfRange => decimalOutOfRange

/-- The code of a syntax error. -/
def ofSyntaxError (e : SyntaxError) : ErrorCode :=
  match e.fault with
  | .tooDeep _ => nestingTooDeep
  | .unexpected _ => if e.found = .eof then unexpectedEnd else unexpectedToken

theorem all_codes_nodup : (all.map code).Nodup := by decide

theorem find?_code {c : ErrorCode} (h : c ∈ all) : find? c.code = some c := by
  simp only [all, List.mem_cons, List.not_mem_nil, or_false] at h
  rcases h with rfl | rfl | rfl | rfl | rfl | rfl | rfl | rfl | rfl | rfl | rfl <;> decide

end ErrorCode

end TermLang
