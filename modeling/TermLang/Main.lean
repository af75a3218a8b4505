import TermLang.Command.Run

/-!
# The command line

Looks at real files and variables, runs the program on its arguments and writes what it leaves.
-/

namespace TermLang

/-- The reason that the system gives for not reading a file. -/
def FileError.ofSystem : IO.Error → FileError
  | .noFileOrDirectory .. => .missing
  | .inappropriateType _ code _ => if code = 21 then .isDirectory else .notDirectory
  | e => .other (toString e)

/-- What stands at a path in the file system. -/
def systemDisk : Disk IO := fun path => do
  try
    return .file (← IO.FS.readBinFile path)
  catch e =>
    match FileError.ofSystem e with
    | .isDirectory => return .directory
    | reason => return .nothing reason

/-- Runs the program on its arguments where it was started, and answers its exit code. -/
def commandLine (args : List String) : IO UInt32 := do
  let environment : Environment :=
    ⟨← IO.getEnv "XDG_CONFIG_HOME", ← IO.getEnv "HOME", ← IO.getEnv "APPDATA"⟩
  let directory := (← IO.currentDir).toString
  match ← runProgram systemDisk environment directory args with
  | .error e =>
    IO.eprintln s!"error: {e.message}"
    return 2
  | .ok outcome =>
    IO.print outcome.output
    IO.eprint outcome.errors
    return outcome.exitCode.toUInt32

end TermLang

def main (args : List String) : IO UInt32 := TermLang.commandLine args
