import TermLang.Decimal.Style
import TermLang.Dump.Tree
import TermLang.Text.Quoted

/-!
# The debug format

Every part of a tree stands on a line of its own, four spaces deeper than what it belongs to and
with a comma after it. Labels are all shown, those of names among them. Each writer puts its text in
front of a given rest.
-/

namespace TermLang.Tree

/-- A text in front of a rest. -/
def putText (text : String) (rest : List Char) : List Char := text.toList ++ rest

/-- A new line at a level in front of a rest. -/
def putLine (level : Nat) (rest : List Char) : List Char :=
  '\n' :: List.replicate (4 * level) ' ' ++ rest

mutual

/-- A tree in the debug format, at a level, in front of a rest. -/
def putDebug (level : Nat) : Tree → List Char → List Char
  | .name s, rest =>
    putText "Ident(" (putLine (level + 1) (putText (Text.quoteString s)
      (',' :: putLine level (')' :: rest))))
  | .string s, rest => putText (Text.quoteString s) rest
  | .char c, rest => putText (Text.quoteChar c) rest
  | .bool b, rest => putText (if b then "true" else "false") rest
  | .int n, rest => putText (toString n.toInt) rest
  | .decimal x, rest => putText (x.write .dump) rest
  | .absent, rest => putText "None" rest
  | .present t, rest =>
    putText "Some(" (putLine (level + 1) (t.putDebug (level + 1)
      (',' :: putLine level (')' :: rest))))
  | .list [], rest => '[' :: ']' :: rest
  | .list (t :: ts), rest =>
    '[' :: putDebugItems (level + 1) (t :: ts) (putLine level (']' :: rest))
  | .unit label, rest => putText label rest
  | .single label payload, rest =>
    putText label ('(' :: putLine (level + 1) (payload.putDebug (level + 1)
      (',' :: putLine level (')' :: rest))))
  | .tuple label [], rest => putText label ('(' :: ')' :: rest)
  | .tuple label (t :: ts), rest =>
    putText label ('(' :: putDebugItems (level + 1) (t :: ts) (putLine level (')' :: rest)))
  | .fields label [], rest | .record label [], rest => putText label (putText " \x7b\x7d" rest)
  | .fields label (e :: es), rest | .record label (e :: es), rest =>
    putText label (putText " \x7b"
      (putDebugEntries (level + 1) (e :: es) (putLine level ('\x7d' :: rest))))

/-- Trees on lines of their own, each with a comma, in front of a rest. -/
def putDebugItems (level : Nat) : List Tree → List Char → List Char
  | [], rest => rest
  | t :: ts, rest => putLine level (t.putDebug level (',' :: putDebugItems level ts rest))

/-- Trees after their names on lines of their own, each with a comma, in front of a rest. -/
def putDebugEntries (level : Nat) : List (String × Tree) → List Char → List Char
  | [], rest => rest
  | (label, t) :: es, rest =>
    putLine level (putText label (putText ": "
      (t.putDebug level (',' :: putDebugEntries level es rest))))

end

/-- A tree in the debug format. -/
def debug (t : Tree) : String := String.ofList (t.putDebug 0 [])

end TermLang.Tree
