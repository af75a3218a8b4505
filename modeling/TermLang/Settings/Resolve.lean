import TermLang.Files.Disk
import TermLang.Files.Path
import TermLang.Settings.Decode

/-!
# Finding the settings

Settings come from one file: the one that is named, which must exist, or else the first that exists
of the project's and the user's. Without any of them the defaults hold.
-/

namespace TermLang

/-- The variables that tell where the user keeps settings; one may be unset. -/
structure Environment where
  xdgConfigHome : Option String
  home : Option String
  appData : Option String
deriving DecidableEq, Repr

namespace Environment

/-- The directory of the user's settings. An empty `XDG_CONFIG_HOME` counts as unset. -/
def settingsDirectory? (e : Environment) : Option String :=
  match e.xdgConfigHome.filter (!·.isEmpty), e.home, e.appData with
  | some dir, _, _ => some (Path.join dir "shll")
  | none, some dir, _ => some (Path.join (Path.join dir ".config") "shll")
  | none, none, some dir => some (Path.join dir "shll")
  | none, none, none => none

/-- The user's settings file. -/
def settingsFile? (e : Environment) : Option String :=
  e.settingsDirectory?.map fun dir => Path.join dir "config.toml"

end Environment

/-- Why no settings could be had. -/
inductive SettingsError
  | notFound (path : String)
  | unreadable (path : String) (reason : FileError)
  | malformed (path : String) (fault : SettingsFault)
deriving DecidableEq, Repr

namespace SettingsError

/-- What failed, without the reason. -/
def heading : SettingsError → String
  | .notFound path => s!"Config file not found: {path}"
  | .unreadable path _ => s!"IO error on {path}: "
  | .malformed path _ => s!"Config parse error in {path}: "

/-- The reason, if it is not in the heading. -/
def reason? : SettingsError → Option String
  | .notFound _ => none
  | .unreadable _ reason => some reason.message
  | .malformed _ fault => some fault.text

/-- What failed, and why. -/
def message (e : SettingsError) : String := e.heading ++ e.reason?.getD ""

/-- The message and the reason behind it. -/
def chain (e : SettingsError) : List String := e.message :: e.reason?.toList

end SettingsError

namespace Settings

/-- The name of a project's settings file. -/
def projectFile : String := "shll.toml"

/-- The settings of what stands at a path. -/
def ofEntry (path : String) (entry : Entry) : Except SettingsError Settings :=
  match entry.text with
  | .error reason => .error (.unreadable path reason)
  | .ok text =>
    match read text with
    | .error fault => .error (.malformed path fault)
    | .ok s => .ok s

/-- The settings of a file. -/
def load {m : Type → Type} [Monad m] (disk : Disk m) (path : String) :
    m (Except SettingsError Settings) :=
  return ofEntry path (← disk path)

/-- The settings of the first file that exists. -/
def firstOf {m : Type → Type} [Monad m] (disk : Disk m) :
    List String → m (Except SettingsError Settings)
  | [] => return .ok .default
  | path :: others => do
    let entry ← disk path
    if entry.isPresent then return ofEntry path entry else firstOf disk others

/-- The settings for a project directory, or of the file that is named. -/
def resolve {m : Type → Type} [Monad m] (disk : Disk m) (e : Environment) (named : Option String)
    (project : String) : m (Except SettingsError Settings) :=
  match named with
  | some path => do
    let entry ← disk path
    return if entry.isPresent then ofEntry path entry else .error (.notFound path)
  | none => firstOf disk (Path.join project projectFile :: e.settingsFile?.toList)

end Settings

end TermLang
