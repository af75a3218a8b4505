import TermLang.Decimal.Style
import TermLang.Dump.Tree
import TermLang.Text.Quoted

/-!
# The RON format

Records and lists are laid out over lines, four spaces for each of them; everything else stands on
one line. Records have no label unless they are alternatives. Each writer puts its text in front of
a given rest.

Writing has an allowance. A payload, an item, an entry and a present option each take one from it
while they are written, and one that finds nothing left cannot be written. A list, tuple or record that
is finished may give something back on top, so that what comes later may nest deeper.
-/

namespace TermLang

/-- The numbers that the encoder goes by. -/
structure RonLimits where
  /-- The allowance at the start of a dump. -/
  allowance : Nat
  /-- What every list, tuple and record that is finished adds to the allowance. -/
  refund : Nat

/-- The numbers of the usual encoder: it gives back one level too many for what it finishes. -/
def RonLimits.standard : RonLimits := ⟨128, 1⟩

namespace Tree

/-! ## Allowance -/

mutual

/-- What an allowance has become once a tree is written; nothing if it does not suffice. -/
def allowanceAfter? (refund : Nat) : Nat → Tree → Option Nat
  | 0, .present _ | 0, .single _ _ => none
  | n + 1, .present t | n + 1, .single _ t => (t.allowanceAfter? refund n).map (· + 1)
  | n, .list items | n, .tuple _ items => (itemsAllowanceAfter? refund n items).map (· + refund)
  | n, .fields _ entries | n, .record _ entries =>
    (entriesAllowanceAfter? refund n entries).map (· + refund)
  | n, _ => some n

/-- What an allowance has become once some items are written, the list around them not yet
finished. -/
def itemsAllowanceAfter? (refund : Nat) : Nat → List Tree → Option Nat
  | n, [] => some n
  | 0, _ :: _ => none
  | n + 1, t :: ts =>
    (t.allowanceAfter? refund n).bind fun left => itemsAllowanceAfter? refund (left + 1) ts

/-- What an allowance has become once some entries are written, the record around them not yet
finished. -/
def entriesAllowanceAfter? (refund : Nat) : Nat → List (String × Tree) → Option Nat
  | n, [] => some n
  | 0, _ :: _ => none
  | n + 1, (_, t) :: es =>
    (t.allowanceAfter? refund n).bind fun left => entriesAllowanceAfter? refund (left + 1) es

end

/-! ## Text -/

/-- A string: every quote is escaped, the single ones too. -/
def ronString (s : String) : List Char := '"' :: Text.escape .everywhere s.toList ++ ['"']

/-- A character: only a quote and a backslash are escaped. -/
def ronChar (c : Char) : List Char :=
  '\'' :: (if c = '\'' ∨ c = '\\' then ['\\', c] else [c]) ++ ['\'']

/-- A new line at a level, in front of a rest. -/
def putRonLine (level : Nat) (rest : List Char) : List Char :=
  '\n' :: List.replicate (4 * level) ' ' ++ rest

mutual

/-- A tree in the RON format, at a level, in front of a rest. -/
def putRon (level : Nat) : Tree → List Char → List Char
  | .name s, rest | .string s, rest => ronString s ++ rest
  | .char c, rest => ronChar c ++ rest
  | .bool b, rest => (if b then "true" else "false").toList ++ rest
  | .int n, rest => (toString n.toInt).toList ++ rest
  | .decimal x, rest => (x.write .dump).toList ++ rest
  | .absent, rest => "None".toList ++ rest
  | .present t, rest => "Some(".toList ++ t.putRon level (')' :: rest)
  | .list [], rest => '[' :: ']' :: rest
  | .list (t :: ts), rest =>
    '[' :: putRonItems (level + 1) (t :: ts) (putRonLine level (']' :: rest))
  | .unit label, rest => label.toList ++ rest
  | .single label payload, rest => label.toList ++ '(' :: payload.putRon level (')' :: rest)
  | .tuple label [], rest => label.toList ++ '(' :: ')' :: rest
  | .tuple label (t :: ts), rest =>
    label.toList ++ '(' :: t.putRon level (putRonFurther level ts (')' :: rest))
  | .fields label [], rest => label.toList ++ '(' :: ')' :: rest
  | .fields label (e :: es), rest =>
    label.toList ++ '(' :: putRonEntries (level + 1) (e :: es) (putRonLine level (')' :: rest))
  | .record _ [], rest => '(' :: ')' :: rest
  | .record _ (e :: es), rest =>
    '(' :: putRonEntries (level + 1) (e :: es) (putRonLine level (')' :: rest))

/-- Items on lines of their own, each with a comma, in front of a rest. -/
def putRonItems (level : Nat) : List Tree → List Char → List Char
  | [], rest => rest
  | t :: ts, rest => putRonLine level (t.putRon level (',' :: putRonItems level ts rest))

/-- Further items on the same line, each after a comma, in front of a rest. -/
def putRonFurther (level : Nat) : List Tree → List Char → List Char
  | [], rest => rest
  | t :: ts, rest => ',' :: ' ' :: t.putRon level (putRonFurther level ts rest)

/-- Entries on lines of their own, each with a comma, in front of a rest. -/
def putRonEntries (level : Nat) : List (String × Tree) → List Char → List Char
  | [], rest => rest
  | (label, t) :: es, rest =>
    putRonLine level (label.toList ++ ':' :: ' ' ::
      t.putRon level (',' :: putRonEntries level es rest))

end

/-- A tree in the RON format, unless the allowance does not suffice. -/
def ron? (limits : RonLimits) (t : Tree) : Option String :=
  (t.allowanceAfter? limits.refund limits.allowance).map fun _ => String.ofList (t.putRon 0 [])

end Tree

end TermLang
