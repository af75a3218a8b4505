import TermLang.Files.Disk
import TermLang.Frontend
import TermLang.Source.File

/-!
# Loading source files

A source file is named by the path it is read from.
-/

namespace TermLang

/-- Why a path gives no program. -/
inductive LoadError
  | unreadable (path : String) (reason : FileError)
  | rejected (path : String) (error : SourceError)
deriving DecidableEq, Repr

/-- What failed, and the causes behind it, the nearest first. -/
def LoadError.chain : LoadError → List String
  | .unreadable path reason => [s!"Failed to read file: {path}", reason.message]
  | .rejected path error => [s!"Failed to parse: {path}", error.message, error.cause]

/-- The source file at a path. -/
def SourceFile.load {m : Type → Type} [Monad m] (disk : Disk m) (path : String) :
    m (Except LoadError SourceFile) :=
  return match (← disk path).text with
    | .error reason => .error (.unreadable path reason)
    | .ok content => .ok ⟨path, content⟩

/-- The program in the file at a path, read with the default nesting limit. -/
def Program.load {m : Type → Type} [Monad m] (disk : Disk m) (path : String) :
    m (Except LoadError Program) :=
  return match ← SourceFile.load disk path with
    | .error e => .error e
    | .ok file =>
      match parseSource file.content defaultMaxDepth with
      | .error e => .error (.rejected path e)
      | .ok p => .ok p

end TermLang
