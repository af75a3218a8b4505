import TermLang.Files.Disk
import TermLang.Files.Path

/-!
# Files in memory

A tree of files that is looked at like a disk. Paths are followed part by part from a directory;
`..` leads back to the directory the last part was found in, and from the root of the tree to an
empty place outside.
-/

namespace TermLang

/-- A file, or a directory with named entries. -/
inductive FileTree
  | file (content : ByteArray)
  | directory (entries : List (String × FileTree))

namespace FileTree

/-- A directory without entries. -/
def empty : FileTree := .directory []

/-- The tree with what stands at a path changed. Where nothing stands, a directory without entries
is changed, and so are the directories on the way created. -/
def alter (change : FileTree → FileTree) : (path : List String) → FileTree → FileTree
  | [], t => change t
  | part :: path, .directory entries =>
    let inner := (entries.lookup part).getD empty
    .directory ((part, alter change path inner) :: entries.filter (·.1 ≠ part))
  | part :: path, .file _ => .directory [(part, alter change path empty)]

/-- The tree with a file written at a path. -/
def write (path : String) (content : ByteArray) : FileTree → FileTree :=
  alter (fun _ => .file content) (Path.parts path)

/-- The tree with a directory at a path; one that is there already keeps its entries. -/
def makeDirectory (path : String) : FileTree → FileTree := alter id (Path.parts path)

/-- The tree that some parts lead to from the first of the directories passed so far. -/
def walk : (parts : List String) → (trail : List FileTree) → Except FileError FileTree
  | [], t :: _ => .ok t
  | [], [] => .ok empty
  | part :: parts, trail =>
    match trail with
    | .file _ :: _ => .error .notDirectory
    | [] => walk parts [empty]
    | .directory entries :: outer =>
      if part = "" ∨ part = "." then walk parts trail
      else if part = ".." then walk parts (if outer.isEmpty then [empty] else outer)
      else
        match entries.lookup part with
        | some t => walk parts (t :: trail)
        | none => .error .missing

/-- What stands at a path that begins at the root of the tree. -/
def entry (root : FileTree) (path : String) : Entry :=
  if path.isEmpty then .nothing .missing
  else
    match walk (Path.parts path) [root] with
    | .ok (.file content) => .file content
    | .ok (.directory _) => .directory
    | .error e => .nothing e

end FileTree

end TermLang
