import TermLang.Toml.Scalar

/-!
# Reading TOML text

A document is read line by line into statements, and these into a table. Only whether a text is a
document and which values it holds is of interest; the reasons for refusing one are not kept.
-/

namespace TermLang.Toml

/-- A reader of values of a type at the front of a text. -/
abbrev Reader (α : Type) : Type := List Char → Option (α × List Char)

/-! ## Blanks, comments and line ends -/

/-- The text after the spaces and tabs at its front. -/
def dropBlanks (cs : List Char) : List Char := cs.dropWhile fun c => c = ' ' || c = '\t'

/-- A character that may stand in a comment or a string: a tab or no control character. -/
def isShown (c : Char) : Bool := c = '\t' || (0x20 ≤ c.toNat && c.toNat ≠ 0x7f)

/-- The text after a comment, if it begins with one. -/
def dropComment : List Char → List Char
  | '#' :: cs => cs.dropWhile isShown
  | cs => cs

/-- The text after a line end, or at the end of the text. -/
def lineEnd? : List Char → Option (List Char)
  | [] => some []
  | '\n' :: cs => some cs
  | '\r' :: '\n' :: cs => some cs
  | _ => none

/-- The text after blanks, a comment and a line end. -/
def lineRest? (cs : List Char) : Option (List Char) := lineEnd? (dropComment (dropBlanks cs))

/-- The text after blanks, comments and line ends, of which there are at most so many. -/
def dropLinesWithin : Nat → List Char → List Char
  | 0, cs => cs
  | bound + 1, cs =>
    match dropComment (dropBlanks cs) with
    | '\n' :: rest => dropLinesWithin bound rest
    | '\r' :: '\n' :: rest => dropLinesWithin bound rest
    | rest => rest

/-- The text after blanks, comments and line ends. -/
def dropLines (cs : List Char) : List Char := dropLinesWithin (cs.length + 1) cs

/-! ## Strings -/

/-- The character of so many hexadecimal digits. -/
def codePoint? (digits : Nat) : Reader Char := fun cs =>
  let hex := cs.take digits
  let n := Text.ofDigits 16 hex
  if hex.length = digits ∧ hex.all (Text.isDigitOf 16) ∧ n.isValidChar then
    some (Char.ofNat n, cs.drop digits)
  else none

/-- The character of an escape, after its backslash. -/
def escape? : Reader Char
  | 'b' :: rest => some ('\x08', rest)
  | 't' :: rest => some ('\t', rest)
  | 'n' :: rest => some ('\n', rest)
  | 'f' :: rest => some ('\x0c', rest)
  | 'r' :: rest => some ('\r', rest)
  | '"' :: rest => some ('"', rest)
  | '\\' :: rest => some ('\\', rest)
  | 'u' :: rest => codePoint? 4 rest
  | 'U' :: rest => codePoint? 8 rest
  | _ => none

/-- A string on one line after its opening quote; only between double quotes are there escapes. -/
def lineStringWithin (quote : Char) : Nat → Reader (List Char)
  | 0, _ => none
  | _ + 1, [] => none
  | bound + 1, c :: cs =>
    if c = quote then some ([], cs)
    else if c = '\\' ∧ quote = '"' then do
      let (d, rest) ← escape? cs
      let (ds, rest) ← lineStringWithin quote bound rest
      return (d :: ds, rest)
    else if isShown c then do
      let (ds, rest) ← lineStringWithin quote bound cs
      return (c :: ds, rest)
    else none

/-- A string on one line after its opening quote. -/
def lineString (quote : Char) : Reader String := fun cs => do
  let (chars, rest) ← lineStringWithin quote (cs.length + 1) cs
  return (String.ofList chars, rest)

/-- The rest of a text from its first character that is neither blank nor line end; a carriage
return alone is no line end. -/
def dropSpace : List Char → List Char
  | '\r' :: '\n' :: cs => dropSpace cs
  | c :: cs => if c = ' ' ∨ c = '\t' ∨ c = '\n' then dropSpace cs else c :: cs
  | [] => []

/-- The text that is joined to a line with a backslash at its end, less the blanks and line ends in
front of it. -/
def joinedLine? (cs : List Char) : Option (List Char) :=
  match lineEnd? (dropBlanks cs) with
  | some rest => some (dropSpace rest)
  | none => none

/-- A string over several lines after its three opening quotes. Up to two quotes may stand anywhere
in it, its end among them. -/
def longStringWithin (quote : Char) : Nat → Reader (List Char)
  | 0, _ => none
  | _ + 1, [] => none
  | bound + 1, c :: cs =>
    if c = quote then
      let run := (c :: cs).takeWhile (· = quote)
      let rest := (c :: cs).dropWhile (· = quote)
      if run.length < 3 then do
        let (ds, rest) ← longStringWithin quote bound rest
        return (run ++ ds, rest)
      else if run.length ≤ 5 then some (run.drop 3, rest)
      else none
    else if c = '\\' ∧ quote = '"' then
      match escape? cs with
      | some (d, rest) => do
        let (ds, rest) ← longStringWithin quote bound rest
        return (d :: ds, rest)
      | none => do longStringWithin quote bound (← joinedLine? cs)
    else
      match c, cs with
      | '\r', '\n' :: rest => do
        let (ds, rest) ← longStringWithin quote bound rest
        return ('\n' :: ds, rest)
      | _, _ =>
        if c = '\n' ∨ isShown c then do
          let (ds, rest) ← longStringWithin quote bound cs
          return (c :: ds, rest)
        else none

/-- A string over several lines after its three opening quotes; a line end right after them is not
part of it. -/
def longString (quote : Char) : Reader String := fun cs => do
  let cs :=
    match cs with
    | '\n' :: rest => rest
    | '\r' :: '\n' :: rest => rest
    | _ => cs
  let (chars, rest) ← longStringWithin quote (cs.length + 1) cs
  return (String.ofList chars, rest)

/-- A string in any of the four forms. -/
def string? : Reader String
  | '"' :: '"' :: '"' :: rest => longString '"' rest
  | '\'' :: '\'' :: '\'' :: rest => longString '\'' rest
  | '"' :: rest => lineString '"' rest
  | '\'' :: rest => lineString '\'' rest
  | _ => none

/-! ## Keys -/

/-- A character of a key without quotes. -/
def isBareKeyChar (c : Char) : Bool := c.isAlphanum || c = '_' || c = '-'

/-- One part of a key. -/
def keyPart? : Reader String
  | '"' :: rest => lineString '"' rest
  | '\'' :: rest => lineString '\'' rest
  | cs =>
    let bare := cs.takeWhile isBareKeyChar
    if bare.isEmpty then none else some (String.ofList bare, cs.dropWhile isBareKeyChar)

/-- At most so many parts of a key, with a point between any two: the last part and those before
it. -/
def keyWithin : Nat → Reader (List String × String)
  | 0, _ => none
  | bound + 1, cs => do
    let (part, rest) ← keyPart? (dropBlanks cs)
    match dropBlanks rest with
    | '.' :: rest =>
      let ((path, key), rest) ← keyWithin bound rest
      return ((part :: path, key), rest)
    | rest => return (([], part), rest)

/-- Keys have fewer parts, and values nest fewer arrays and tables, than this. -/
def depthLimit : Nat := 80

/-- A key with the blanks around it. -/
def key? : Reader (List String × String) := keyWithin (depthLimit - 1)

/-! ## Values -/

/-- A scalar that is no string. A date may be followed by a space and a time. -/
def readScalar : Reader Value := fun cs =>
  let run := cs.takeWhile isScalarChar
  let rest := cs.dropWhile isScalarChar
  match rest with
  | ' ' :: d :: more =>
    if date? run = some [] ∧ d.isDigit then
      let time := (d :: more).takeWhile isScalarChar
      (scalar? (run ++ ' ' :: time)).map fun v => (v, (d :: more).dropWhile isScalarChar)
    else (scalar? run).map fun v => (v, rest)
  | _ => (scalar? run).map fun v => (v, rest)

/-- Items and their closing bracket, with at most so many items. -/
def itemsWithin (value : Reader Value) : Nat → Reader (List Value)
  | 0, _ => none
  | bound + 1, cs =>
    match dropLines cs with
    | ']' :: rest => some ([], rest)
    | cs => do
      let (item, rest) ← value cs
      match dropLines rest with
      | ',' :: rest =>
        let (items, rest) ← itemsWithin value bound rest
        return (item :: items, rest)
      | ']' :: rest => return ([item], rest)
      | _ => none

/-- A key, an equals sign and a value. -/
def assignment? (value : Reader Value) : Reader (List String × String × Value) := fun cs => do
  let ((path, key), rest) ← key? cs
  match rest with
  | '=' :: rest =>
    let (v, rest) ← value (dropBlanks rest)
    return ((path, key, v), rest)
  | _ => none

/-- Assignments with commas between them and their closing bracket, with at most so many
assignments. -/
def assignmentsWithin (value : Reader Value) : Nat → Reader (List (List String × String × Value))
  | 0, _ => none
  | bound + 1, cs => do
    let (first, rest) ← assignment? value cs
    match dropBlanks rest with
    | ',' :: rest =>
      let (others, rest) ← assignmentsWithin value bound rest
      return (first :: others, rest)
    | '\x7d' :: rest => return ([first], rest)
    | _ => none

/-- An array or an inline table whose values are read by a given reader. -/
def nested? (value : Reader Value) : Reader Value
  | '[' :: cs =>
    (itemsWithin value (cs.length + 1) cs).map fun (items, rest) => (.array items, rest)
  | '\x7b' :: cs =>
    match dropBlanks cs with
    | '\x7d' :: rest => some (.table [], rest)
    | cs => do
      let (assignments, rest) ← assignmentsWithin value (cs.length + 1) cs
      return (← inlineTable assignments, rest)
  | _ => none

/-- A value with at most so many arrays and inline tables open inside one another. -/
def valueWithin : Nat → Reader Value
  | levels, cs =>
    match cs with
    | '[' :: _ | '\x7b' :: _ =>
      match levels with
      | 0 => none
      | levels + 1 => nested? (valueWithin levels) cs
    | '"' :: _ | '\'' :: _ => (string? cs).map fun (s, rest) => (.string s, rest)
    | _ => readScalar cs

/-- A value. -/
def value? : Reader Value := valueWithin (depthLimit - 1)

/-! ## Documents -/

/-- A header or an assignment, up to its line end. -/
def statement? : Reader Statement
  | '[' :: '[' :: cs => do
    let ((path, key), rest) ← key? cs
    match rest with
    | ']' :: ']' :: rest => return (.arrayHeader path key, ← lineRest? rest)
    | _ => none
  | '[' :: cs => do
    let ((path, key), rest) ← key? cs
    match rest with
    | ']' :: rest => return (.header path key, ← lineRest? rest)
    | _ => none
  | cs => do
    let ((path, key, v), rest) ← assignment? value? cs
    return (.assign path key v, ← lineRest? rest)

/-- At most so many statements, with empty lines and comments between them, up to the end. -/
def statementsWithin : Nat → List Char → Option (List Statement)
  | 0, _ => none
  | bound + 1, cs =>
    match dropLines cs with
    | [] => some []
    | cs => do
      let (first, rest) ← statement? cs
      return first :: (← statementsWithin bound rest)

/-- The text without a byte order mark at its front. -/
def dropMark : List Char → List Char
  | '\ufeff' :: cs => cs
  | cs => cs

/-- The table that a text describes, if it is a document. -/
def read? (text : String) : Option Value := do
  let cs := dropMark text.toList
  build (← statementsWithin (cs.length + 1) cs)

end TermLang.Toml
