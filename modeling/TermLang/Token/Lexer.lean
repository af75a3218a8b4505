import TermLang.Token.Scan
import TermLang.Token.Trivia

/-!
# Reading a source text into tokens

Words and trivia alternate until the text ends. Each token spans exactly its lexeme, and one last
token marks the end. Places are counted beside the scan, which sees characters only.
-/

namespace TermLang

/-- The token of a scanned word that begins at `p`. -/
def Scan.token (s : Scan) (p : Position) : Token :=
  ⟨⟨s.kind, String.ofList s.lexeme, s.literal⟩, ⟨p, p.advance s.lexeme⟩⟩

/-- A scan fault as an error at `p`. -/
def ScanFault.error (f : ScanFault) (p : Position) : LexError :=
  ⟨f.fault, p, String.ofList f.found⟩

/-- The tokens of a text that begins at `p`. -/
def tokensFrom (p : Position) (cs : List Char) : Except LexError (List Token) :=
  match ht : skipTrivia .between p cs with
  | .error e => .error e
  | .ok (q, []) => .ok [Token.eof q]
  | .ok (q, c :: rest) =>
    match hs : scan c rest with
    | .error fault => .error (fault.error q)
    | .ok s =>
      have : s.rest.length < cs.length :=
        Nat.lt_of_lt_of_le (length_lt_of_scan hs) (length_le_of_skipTrivia ht)
      (tokensFrom (q.advance s.lexeme) s.rest).map (s.token q :: ·)
termination_by cs.length

/-- The tokens of a source text, the end of the input among them. -/
def tokenize (source : String) : Except LexError (List Token) :=
  tokensFrom .start source.toList

/-- One step of the reading. -/
theorem tokensFrom_eq (p : Position) (cs : List Char) :
    tokensFrom p cs =
      match skipTrivia .between p cs with
      | .error e => .error e
      | .ok (q, []) => .ok [Token.eof q]
      | .ok (q, c :: rest) =>
        match scan c rest with
        | .error fault => .error (fault.error q)
        | .ok s => (tokensFrom (q.advance s.lexeme) s.rest).map (s.token q :: ·) := by
  rw [tokensFrom]
  split
  · rename_i h; simp [h]
  · rename_i h; simp [h]
  · rename_i h
    simp only [h]
    split
    · rename_i hs; simp [hs]
    · rename_i hs; simp [hs]

theorem tokensFrom_ne_nil {p : Position} {cs : List Char} {ts : List Token}
    (h : tokensFrom p cs = .ok ts) : ts ≠ [] := by
  rw [tokensFrom_eq] at h
  split at h
  · simp at h
  · rw [Except.ok.injEq] at h; subst h; simp
  · split at h
    · simp at h
    · rename_i s _
      cases ht : tokensFrom (Position.advance _ s.lexeme) s.rest with
      | error e => rw [ht] at h; simp [Except.map] at h
      | ok us =>
        rw [ht] at h
        simp only [Except.map, Except.ok.injEq] at h
        rw [← h]
        simp

end TermLang
