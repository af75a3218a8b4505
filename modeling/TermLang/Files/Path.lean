/-!
# Paths

A path is a text whose parts are separated by slashes. It is kept as it was given, so that messages
can show it unchanged.
-/

namespace TermLang.Path

/-- A path that is not relative to any directory. -/
def isAbsolute (path : String) : Bool := path.toList.head? = some '/'

/-- A path as seen from a directory: an absolute path stays as it is, and any other follows the
directory after one slash. -/
def join (dir path : String) : String :=
  if isAbsolute path ∨ dir.isEmpty then path
  else if dir.toList.getLast? = some '/' then dir ++ path
  else dir ++ "/" ++ path

/-- The parts of a path; two slashes in a row have an empty part between them. -/
def parts (path : String) : List String := path.splitOn "/"

theorem join_of_isAbsolute {path : String} (dir : String) (h : isAbsolute path = true) :
    join dir path = path := by simp [join, h]

end TermLang.Path
