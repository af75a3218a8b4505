import TermLang.Token.Basic

/-!
# Token streams

The parser reads a fixed row of tokens through a cursor, which holds the index of the current token
and the number of open nesting levels. An index past the row reads as the end of the input.

Two lookups pair brackets. Both count every shape of bracket alike; forward the search stops at
the end of the input, backward it runs to the first token.
-/

namespace TermLang

/-- The tokens to read and the number of nesting levels allowed. -/
structure Stream where
  tokens : Array Token
  maxDepth : Nat

/-- The index of the current token and the number of open nesting levels. -/
structure Cursor where
  pos : Nat
  depth : Nat
deriving DecidableEq, Repr

/-- The cursor on the first token, with no level open. -/
def Cursor.start : Cursor := ⟨0, 0⟩

/-- The higher index of two cursors, and the more open levels. -/
def Cursor.max (c c' : Cursor) : Cursor := ⟨Max.max c.pos c'.pos, Max.max c.depth c'.depth⟩

namespace Stream

/-- The kind of the token at an index. -/
def kindAt (s : Stream) (i : Nat) : Kind :=
  match s.tokens[i]? with
  | some t => t.kind
  | none => .eof

theorem kindAt_of_size_le {s : Stream} {i : Nat} (h : s.tokens.size ≤ i) : s.kindAt i = .eof := by
  simp [kindAt, Array.getElem?_eq_none h]

/-- No more than this many tokens are left from an index on, the end of the input counted. -/
def remaining (s : Stream) (i : Nat) : Nat := s.tokens.size + 1 - i

/-! ## Pairing brackets -/

/-- The index of the token that closes `open` brackets, in a row that begins at index `i`. -/
def closeIn : List Token → (i opened : Nat) → Option Nat
  | [], _, _ => none
  | t :: ts, i, opened =>
    match t.kind.bracket with
    | .opening => closeIn ts (i + 1) (opened + 1)
    | .closing =>
      match opened with
      | 0 => none
      | 1 => some i
      | rest + 2 => closeIn ts (i + 1) (rest + 1)
    | .neither => if t.kind = .eof then none else closeIn ts (i + 1) opened

/-- The index of the token that closes the bracket at an index, before the end of the input. -/
def matchingClose? (s : Stream) (i : Nat) : Option Nat := closeIn (s.tokens.toList.drop i) i 0

/-- The index of the token that opens `closed` brackets, in a reversed row of tokens that ends
before index `i`. -/
def openIn : List Token → (i closed : Nat) → Option Nat
  | [], _, _ => none
  | t :: ts, i, closed =>
    match t.kind.bracket with
    | .closing => openIn ts (i - 1) (closed + 1)
    | .opening =>
      match closed with
      | 0 => none
      | 1 => some (i - 1)
      | rest + 2 => openIn ts (i - 1) (rest + 1)
    | .neither => openIn ts (i - 1) closed

/-- The index of the token that opens the bracket closed at an index; an index past the row reads
as the last one. -/
def matchingOpen? (s : Stream) (close : Nat) : Option Nat :=
  let row := s.tokens.toList.take (close + 1)
  openIn row.reverse row.length 0

end Stream

end TermLang
