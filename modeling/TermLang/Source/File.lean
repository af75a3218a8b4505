import TermLang.Source.Position
import TermLang.Text.Bytes

/-!
# Source files

A source file knows where each of its lines begins. From that table it tells the position of a
byte offset, the text of a line and the text of a span.
-/

namespace TermLang

/-- A named source text. -/
structure SourceFile where
  name : String
  content : String
deriving DecidableEq, Repr

namespace SourceFile

variable (file : SourceFile)

/-- The content as a list of characters. -/
def chars : List Char := file.content.toList

/-- The length of the content in bytes. -/
def size : Nat := Text.byteSize file.chars

/-- The offsets just after each line feed of a text that begins at `offset`. -/
def lineStartsAfter (offset : Nat) : List Char → List Nat
  | [] => []
  | c :: cs =>
    let next := offset + c.utf8Size
    if c = '\n' then next :: lineStartsAfter next cs else lineStartsAfter next cs

/-- The offset of the first character of every line. -/
def lineStarts : List Nat := 0 :: lineStartsAfter 0 file.chars

/-- The number of lines; a text that ends in a line feed has an empty last line. -/
def lineCount : Nat := file.lineStarts.length

theorem lineCount_pos : 0 < file.lineCount := by simp [lineCount, lineStarts]

/-- The position of a byte offset; an offset past the end is read as the end.

The line is the last one that does not begin after the offset. Inside a character the column
reads as the first. -/
def positionAt (offset : Nat) : Position :=
  let offset := min offset file.size
  let line := (file.lineStarts.takeWhile (· ≤ offset)).length
  let lineStart := file.lineStarts.getD (line - 1) 0
  let column := ((Text.slice? lineStart offset file.chars).map List.length).getD 0
  ⟨line, column + 1, offset⟩

/-- The span between two byte offsets. -/
def spanOf (start stop : Nat) : Span := ⟨file.positionAt start, file.positionAt stop⟩

/-- A carriage return or a line feed. -/
def isLineEnd (c : Char) : Bool := c = '\n' || c = '\r'

/-- The text without the line ends it closes with. -/
def trimLineEnds (cs : List Char) : List Char := (cs.reverse.dropWhile isLineEnd).reverse

/-- The text of a line counted from one, without the line ends it closes with. -/
def lineText? (line : Nat) : Option String :=
  match line with
  | 0 => none
  | before + 1 =>
    file.lineStarts[before]?.bind fun start =>
      (Text.slice? start (file.lineStarts.getD (before + 1) file.size) file.chars).map
        fun cs => String.ofList (trimLineEnds cs)

/-- The text a span covers. -/
def textOf? (span : Span) : Option String :=
  (Text.slice? span.start.offset span.stop.offset file.chars).map String.ofList

@[simp] theorem lineText?_zero : file.lineText? 0 = none := rfl

theorem positionAt_offset (offset : Nat) :
    (file.positionAt offset).offset = min offset file.size := rfl

end SourceFile

end TermLang
