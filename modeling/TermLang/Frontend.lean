import TermLang.Grammar.Program
import TermLang.Log
import TermLang.Text.Bytes
import TermLang.Token.Lexer

/-!
# From source text to a program

A source text is read into tokens and these into a program, or the first error of either stage is
answered. Each stage reports on its way.
-/

namespace TermLang

/-- An error of either stage. -/
inductive SourceError
  | lexical (e : LexError)
  | syntactic (e : SyntaxError)
deriving DecidableEq, Repr

namespace SourceError

/-- The error with the stage it arose in. -/
def message : SourceError → String
  | .lexical e => "Lexical error: " ++ e.message
  | .syntactic e => "Syntax error: " ++ e.message

/-- The error without the stage. -/
def cause : SourceError → String
  | .lexical e => e.message
  | .syntactic e => e.message

/-- Where the offending text begins. -/
def position : SourceError → Position
  | .lexical e => e.position
  | .syntactic e => e.position

end SourceError

/-- A result and the log entries written on the way to it. -/
structure Logged (α : Type) where
  result : Except SourceError α
  log : List LogEntry

/-- The tokens of a source text. -/
def readTokens (source : String) : Logged (List Token) :=
  let start : LogEntry :=
    ⟨.debug, s!"Tokenizing source ({Text.byteSize source.toList} bytes)"⟩
  match tokenize source with
  | .error e => ⟨.error (.lexical e), [start]⟩
  | .ok tokens => ⟨.ok tokens, [start, ⟨.debug, s!"Tokenized into {tokens.length} tokens"⟩]⟩

/-- The program of a source text. -/
def readProgram (source : String) (maxDepth : Nat) : Logged Program :=
  let tokens := readTokens source
  match tokens.result with
  | .error e => ⟨.error e, tokens.log⟩
  | .ok ts =>
    let reply := Grammar.program.run ts maxDepth
    let log :=
      tokens.log ++ ⟨.debug, "Starting parsing..."⟩ ::
        reply.notes.map fun n => ⟨.trace, n.text⟩
    match reply.result with
    | .error e => ⟨.error (.syntactic e), log⟩
    | .ok p =>
      ⟨.ok p, log ++ [⟨.debug, s!"Parsed {p.size} top-level terms"⟩,
        ⟨.debug, s!"Parsing successful, got {p.size} terms"⟩]⟩

/-- The program of a source text, without the log. -/
def parseSource (source : String) (maxDepth : Nat) : Except SourceError Program :=
  (readProgram source maxDepth).result

theorem parseSource_eq (source : String) (maxDepth : Nat) :
    parseSource source maxDepth =
      match tokenize source with
      | .error e => .error (.lexical e)
      | .ok ts =>
        match parseProgram ts maxDepth with
        | .error e => .error (.syntactic e)
        | .ok p => .ok p := by
  unfold parseSource readProgram readTokens
  cases tokenize source with
  | error e => rfl
  | ok ts =>
    simp only [parseProgram]
    cases (Grammar.program.run ts maxDepth).result <;> rfl

/-! ## Stack size -/

/-- The stack that one nesting level may take, in bytes. -/
def stackPerLevel : Nat := 32 * 1024

/-- The stack for everything around the nested levels. -/
def baseStack : Nat := 1024 * 1024

/-- The largest stack that is asked for. -/
def maxStack : Nat := 1024 * 1024 * 1024

/-- The stack that reading with a nesting limit is given. -/
def stackSize (maxDepth : Nat) : Nat := min (maxDepth * stackPerLevel + baseStack) maxStack

theorem stackSize_le (maxDepth : Nat) : stackSize maxDepth ≤ maxStack := Nat.min_le_right _ _

end TermLang
