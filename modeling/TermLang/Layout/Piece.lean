import TermLang.Token.Basic

/-!
# Pieces of printed text

A printed term is a row of words with the blanks between them. Items of a braced body stand at a
break, which one layout writes as a space and the other as an indented new line; all else is the
same in both.
-/

namespace TermLang

/-- A piece of printed text. -/
inductive Piece
  | word (w : Word)
  | space
  /-- A place between the items of a braced body. -/
  | break
  /-- From here on breaks are one level deeper. -/
  | indent
  /-- From here on breaks are one level less deep. -/
  | dedent
deriving DecidableEq, Repr

/-- How breaks are written. -/
inductive Layout
  /-- A break is a space. -/
  | compact
  /-- A break is a new line with so many spaces for each level. -/
  | pretty (width : Nat)
deriving DecidableEq, Repr

namespace Piece

/-- A punctuation mark or a keyword. -/
def mark (k : Kind) : Piece := .word (.ofKind k)

/-- An identifier. -/
def ident (name : String) : Piece := .word (.ident name)

/-- The words among some pieces, in order. -/
def words (ps : List Piece) : List Word :=
  ps.filterMap fun
    | .word w => some w
    | _ => none

/-- Rows of pieces with a space between any two. -/
def spaced : List (List Piece) → List Piece
  | [] => []
  | [row] => row
  | row :: rows => row ++ .space :: spaced rows

/-- Items on one line between two brackets. -/
def enclosed (opening closing : Kind) (items : List (List Piece)) : List Piece :=
  mark opening :: spaced items ++ [mark closing]

/-- Items in curly brackets, each at a break of its own. -/
def braced (items : List (List Piece)) : List Piece :=
  if items.isEmpty then [mark .braceOpen, mark .braceClose]
  else
    mark .braceOpen :: .indent :: items.flatMap (.break :: ·) ++
      [.dedent, .break, mark .braceClose]

/-- A break at a level. -/
def breakText : Layout → Nat → List Char
  | .compact, _ => [' ']
  | .pretty width, level => '\n' :: List.replicate (width * level) ' '

/-- The text of some pieces, the first at a level. -/
def render (layout : Layout) : Nat → List Piece → List Char
  | _, [] => []
  | level, .word w :: ps => w.lexeme.toList ++ render layout level ps
  | level, .space :: ps => ' ' :: render layout level ps
  | level, .break :: ps => breakText layout level ++ render layout level ps
  | level, .indent :: ps => render layout (level + 1) ps
  | level, .dedent :: ps => render layout (level - 1) ps

@[simp] theorem words_append (a b : List Piece) : words (a ++ b) = words a ++ words b := by
  simp [words]

end Piece

end TermLang
