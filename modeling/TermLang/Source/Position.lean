/-!
# Positions and spans

A position counts lines and columns from one, columns in characters, and the bytes before it from
zero. Reading a character moves a position past it.
-/

namespace TermLang

/-- A place in a source text. -/
structure Position where
  line : Nat
  column : Nat
  offset : Nat
deriving DecidableEq, Repr, Inhabited

namespace Position

/-- The beginning of a text. -/
def start : Position := ⟨1, 1, 0⟩

/-- The place of what stands in no text. -/
def nowhere : Position := ⟨0, 0, 0⟩

/-- The position after a character: a line feed opens the next line. -/
def after (p : Position) (c : Char) : Position :=
  if c = '\n' then ⟨p.line + 1, 1, p.offset + 1⟩ else ⟨p.line, p.column + 1, p.offset + c.utf8Size⟩

/-- The position after a whole text. -/
def advance (p : Position) (cs : List Char) : Position := cs.foldl after p

/-- Line and column with a colon between them. -/
def text (p : Position) : String := s!"{p.line}:{p.column}"

@[simp] theorem advance_nil (p : Position) : p.advance [] = p := rfl

@[simp] theorem advance_cons (p : Position) (c : Char) (cs : List Char) :
    p.advance (c :: cs) = (p.after c).advance cs := rfl

theorem advance_append (p : Position) (a b : List Char) :
    p.advance (a ++ b) = (p.advance a).advance b := by
  simp [advance]

theorem offset_after (p : Position) (c : Char) : (p.after c).offset = p.offset + c.utf8Size := by
  unfold after
  split
  · rename_i h; subst h; rfl
  · rfl

end Position

/-- A stretch of a source text, its end excluded. -/
structure Span where
  start : Position
  stop : Position
deriving DecidableEq, Repr, Inhabited

namespace Span

/-- The span of what stands in no text. -/
def nowhere : Span := ⟨.nowhere, .nowhere⟩

/-- Lines count from one, so line zero marks a span that stands in no text. -/
def isNowhere (s : Span) : Bool := s.start.line == 0

/-- The bytes covered; a reversed span covers none. -/
def length (s : Span) : Nat := s.stop.offset - s.start.offset

/-- The span ends at the byte where it starts. -/
def isEmpty (s : Span) : Bool := s.start.offset == s.stop.offset

/-- Both ends in square brackets. -/
def text (s : Span) : String := s!"[{s.start.text} - {s.stop.text}]"

theorem length_eq_zero_of_isEmpty {s : Span} (h : s.isEmpty = true) : s.length = 0 := by
  simp only [isEmpty, beq_iff_eq] at h
  simp [length, h]

end Span

end TermLang
