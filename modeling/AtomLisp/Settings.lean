import AtomLisp.Files
import AtomLisp.Numeral
import AtomLisp.Text.Uppercase

/-! # Settings

  What the environment of a program may set: where the prelude is, how deep programs may nest, and
  which lines the journal keeps.
-/

namespace AtomLisp

/-- Why the settings cannot be used. -/
inductive SettingFault where
  /-- The limit of nesting is no integer. -/
  | notInteger (text : String)
  /-- The limit of nesting is too large. -/
  | limitTooLarge
  /-- There is no threshold of that name. -/
  | unknownThreshold
  /-- The path of the prelude cannot be looked at. -/
  | preludePath (fault : FileFault)
  deriving DecidableEq, Repr

/-- The fault in words, if it has any. -/
def SettingFault.message? : SettingFault → Option String
  | notInteger text => some s!"MAL_RECURSION_LIMIT must be an integer, got {Text.quoted text}"
  | limitTooLarge | unknownThreshold | preludePath _ => none

/-- The variables of the environment with their texts. -/
structure Settings where
  vars : List (String × String)

namespace Settings

/-- The limit when nothing is set. -/
def defaultLimit : Int := 10000

/-- The largest limit. -/
def maxLimit : Int := 2147483647

/-- The limit of nesting. -/
def recursionLimit (settings : Settings) : Except SettingFault Int :=
  match settings.vars.lookup "MAL_RECURSION_LIMIT" with
  | none => .ok defaultLimit
  | some text =>
    if text = "" then .ok defaultLimit
    else
      match Numeral.readSetting? text with
      | some limit => .ok limit
      | none => .error (.notInteger text)

/-- The name of the journal's threshold. -/
def logLevel (settings : Settings) : String :=
  Text.upper ((settings.vars.lookup "MAL_LOG_LEVEL").getD "WARNING")

/-- May a path be looked at, and is it a directory? A path that leads nowhere is none. -/
def isDirectory (files : FileTree) (path : Path) : Except SettingFault Bool :=
  match files.resolve path with
  | .ok .directory => .ok true
  | .ok (.file _) | .error .missing | .error .notDirectory | .error .isDirectory => .ok false
  | .error .nameTooLong => .error (.preludePath .nameTooLong)

/-- The directory of the prelude; `none` when the prelude of this library is meant. A path that is
no directory stands for the directory around it. -/
def preludeRoot (settings : Settings) (files : FileTree) : Except SettingFault (Option Path) :=
  let text := Text.strip ((settings.vars.lookup "MAL_PRELUDE_PATH").getD "")
  if text = "" then .ok none
  else do
    let path := Path.ofString text
    return some (if ← isDirectory files path then path else path.parent)

end Settings

end AtomLisp
