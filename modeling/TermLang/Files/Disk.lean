/-!
# Reading files

A disk tells what stands at a path. What is read from it is text; the reasons for not getting any
are kept in the words of the operating system.
-/

namespace TermLang

/-- Why a path leads to no text. -/
inductive FileError
  | missing
  | isDirectory
  /-- A part of the path that should be a directory is a file. -/
  | notDirectory
  | notUtf8
  /-- Any other reason, in words. -/
  | other (reason : String)
deriving DecidableEq, Repr

/-- The reason in words. -/
def FileError.message : FileError → String
  | .missing => "No such file or directory (os error 2)"
  | .isDirectory => "Is a directory (os error 21)"
  | .notDirectory => "Not a directory (os error 20)"
  | .notUtf8 => "stream did not contain valid UTF-8"
  | .other reason => reason

/-- What stands at a path. -/
inductive Entry
  | file (content : ByteArray)
  | directory
  | nothing (reason : FileError)

namespace Entry

/-- There is a file or a directory. -/
def isPresent : Entry → Bool
  | .file _ | .directory => true
  | .nothing _ => false

/-- The text of a file. -/
def text : Entry → Except FileError String
  | .file content =>
    match String.fromUTF8? content with
    | some text => .ok text
    | none => .error .notUtf8
  | .directory => .error .isDirectory
  | .nothing reason => .error reason

theorem isPresent_of_text {e : Entry} {text : String} (h : e.text = .ok text) :
    e.isPresent = true := by
  cases e with
  | file => rfl
  | directory | nothing => simp [Entry.text] at h

end Entry

/-- A way to look at paths. -/
abbrev Disk (m : Type → Type) : Type := String → m Entry

end TermLang
