import TermLang.Decimal.Style
import TermLang.Dump.Tree

/-!
# JSON values and their text

A JSON value has two layouts, on one line without blanks and over lines with two spaces a level.
Integers and decimals are told apart, since a decimal is always written with a point or an
exponent. Each writer puts its text in front of a given rest.
-/

namespace TermLang

/-- A JSON value. -/
inductive Json
  | null
  | bool (b : Bool)
  | int (n : Int)
  | decimal (x : Double)
  | string (s : String)
  | array (items : List Json)
  | object (entries : List (String × Json))

namespace Json

/-! ## From trees -/

mutual

/-- The JSON value of a tree. An alternative is an object with its label as the only name. -/
def ofTree : Tree → Json
  | .name s | .string s => .string s
  | .char c => .string (String.ofList [c])
  | .bool b => .bool b
  | .int n => .int n.toInt
  | .decimal x => .decimal x
  | .absent => .null
  | .present t => ofTree t
  | .list items => .array (ofItems items)
  | .unit label => .string label
  | .single label payload => .object [(label, ofTree payload)]
  | .tuple label items => .object [(label, .array (ofItems items))]
  | .fields label entries => .object [(label, .object (ofEntries entries))]
  | .record _ entries => .object (ofEntries entries)

/-- The JSON values of some trees. -/
def ofItems : List Tree → List Json
  | [] => []
  | t :: ts => ofTree t :: ofItems ts

/-- The JSON values of some named trees. -/
def ofEntries : List (String × Tree) → List (String × Json)
  | [] => []
  | (label, t) :: ts => (label, ofTree t) :: ofEntries ts

end

/-! ## Scalars -/

/-- A control character by its code point, in four hexadecimal digits. -/
def controlEscape (c : Char) : List Char :=
  let digits := Nat.toDigits 16 c.toNat
  '\\' :: 'u' :: List.replicate (4 - digits.length) '0' ++ digits

/-- A character in a string. -/
def escapeChar (c : Char) : List Char :=
  if c = '"' then ['\\', '"']
  else if c = '\\' then ['\\', '\\']
  else if c = '\x08' then ['\\', 'b']
  else if c = '\x0c' then ['\\', 'f']
  else if c = '\n' then ['\\', 'n']
  else if c = '\r' then ['\\', 'r']
  else if c = '\t' then ['\\', 't']
  else if c.toNat < 0x20 then controlEscape c
  else [c]

/-- A string in front of a rest. -/
def putString (s : String) (rest : List Char) : List Char :=
  '"' :: s.toList.flatMap escapeChar ++ '"' :: rest

/-- An integer in front of a rest. -/
def putInt (n : Int) (rest : List Char) : List Char :=
  (if n < 0 then ['-'] else []) ++ Text.decimalDigits n.natAbs ++ rest

/-- A truth value in front of a rest. -/
def putBool (b : Bool) (rest : List Char) : List Char :=
  (if b then "true" else "false").toList ++ rest

/-! ## On one line -/

mutual

/-- A value on one line, in front of a rest. -/
def put : Json → List Char → List Char
  | .null, rest => "null".toList ++ rest
  | .bool b, rest => putBool b rest
  | .int n, rest => putInt n rest
  | .decimal x, rest => (x.write .json).toList ++ rest
  | .string s, rest => putString s rest
  | .array [], rest => '[' :: ']' :: rest
  | .array (j :: js), rest => '[' :: j.put (putItems js (']' :: rest))
  | .object [], rest => '\x7b' :: '\x7d' :: rest
  | .object ((name, j) :: es), rest =>
    '\x7b' :: putString name (':' :: j.put (putEntries es ('\x7d' :: rest)))

/-- Further items, each after a comma, in front of a rest. -/
def putItems : List Json → List Char → List Char
  | [], rest => rest
  | j :: js, rest => ',' :: j.put (putItems js rest)

/-- Further entries, each after a comma, in front of a rest. -/
def putEntries : List (String × Json) → List Char → List Char
  | [], rest => rest
  | (name, j) :: es, rest => ',' :: putString name (':' :: j.put (putEntries es rest))

end

/-- A value on one line. -/
def compact (j : Json) : String := String.ofList (j.put [])

/-! ## Over lines -/

/-- A new line at a level, in front of a rest. -/
def putLine (level : Nat) (rest : List Char) : List Char :=
  '\n' :: List.replicate (2 * level) ' ' ++ rest

mutual

/-- A value over lines at a level, in front of a rest. -/
def putPretty (level : Nat) : Json → List Char → List Char
  | .null, rest => "null".toList ++ rest
  | .bool b, rest => putBool b rest
  | .int n, rest => putInt n rest
  | .decimal x, rest => (x.write .json).toList ++ rest
  | .string s, rest => putString s rest
  | .array [], rest => '[' :: ']' :: rest
  | .array (j :: js), rest =>
    '[' :: putLine (level + 1) (putPretty (level + 1) j
      (putPrettyItems (level + 1) js (putLine level (']' :: rest))))
  | .object [], rest => '\x7b' :: '\x7d' :: rest
  | .object ((name, j) :: es), rest =>
    '\x7b' :: putLine (level + 1) (putString name (':' :: ' ' :: putPretty (level + 1) j
      (putPrettyEntries (level + 1) es (putLine level ('\x7d' :: rest)))))

/-- Further items, each on a line of its own, in front of a rest. -/
def putPrettyItems (level : Nat) : List Json → List Char → List Char
  | [], rest => rest
  | j :: js, rest => ',' :: putLine level (putPretty level j (putPrettyItems level js rest))

/-- Further entries, each on a line of its own, in front of a rest. -/
def putPrettyEntries (level : Nat) : List (String × Json) → List Char → List Char
  | [], rest => rest
  | (name, j) :: es, rest =>
    ',' :: putLine level (putString name (':' :: ' ' :: putPretty level j
      (putPrettyEntries level es rest)))

end

/-- A value over lines. -/
def pretty (j : Json) : String := String.ofList (putPretty 0 j [])

end Json

/-- A term as a JSON value. -/
def Term.json (t : Term) : Json := .ofTree t.tree

/-- A program as a JSON value. -/
def Program.json (p : Program) : Json := .ofTree p.tree

/-- Two programs are told apart by their dumps. -/
def Program.same (p q : Program) : Bool := p.json.compact == q.json.compact

@[simp] theorem Program.same_self (p : Program) : p.same p = true := by simp [Program.same]

end TermLang
