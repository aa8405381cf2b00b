import AtomLisp.Program
import Std.Time.DateTime.Timestamp

/-! # The command line

  The outer layer of the program: it collects what the program finds when it is started, and writes
  what the program has written. The files are those below the working directory, together with the
  file that the first argument names and the prelude that the settings name, wherever these are.
-/

namespace AtomLisp.Main

/-- How deep directories are looked into. -/
def maxDepth : Nat := 32

/-- What an entry of a directory holds, with the names that lead there. Links to directories are
not followed, so the walk ends; entries that cannot be read are left out. -/
def entriesBelow : (depth : Nat) → (names : List String) → IO.FS.DirEntry →
    IO (List (List String × FileEntry))
  | 0, _, _ => return []
  | depth + 1, names, entry => do
    let names := names ++ [entry.fileName]
    try
      if (← entry.path.symlinkMetadata).type == .dir then
        let below ← (← entry.path.readDir).toList.mapM (entriesBelow depth names)
        return (names, .directory) :: below.flatten
      else if (← entry.path.metadata).type == .file then
        return [(names, .file (← IO.FS.readBinFile entry.path))]
      else return []
    catch _ => return []

/-- The names that lead to a path from the root. -/
def namesTo (home : List String) (path : Path) : List String :=
  path.steps.foldl (fun names step => if step = ".." then names.dropLast else names ++ [step])
    (if path.root = "" then home else [])

/-- The file at a path, if it can be read. -/
def entryAt (home : List String) (path : Path) : IO (List (List String × FileEntry)) := do
  try return [(namesTo home path, .file (← IO.FS.readBinFile path.toString))]
  catch _ => return []

/-- The variables that the program looks at. -/
def readSettings : IO Settings := do
  let names := ["MAL_PRELUDE_PATH", "MAL_RECURSION_LIMIT", "MAL_LOG_LEVEL"]
  let vars ← names.filterMapM fun name => do
    return (← IO.getEnv name).map fun text => (name, text)
  return { vars }

/-- The files that the program may read. -/
def readFiles (args : List String) (settings : Settings) : IO FileTree := do
  let here ← IO.currentDir
  let home := (Path.ofString here.toString).steps
  let below ← (← here.readDir).toList.mapM (entriesBelow maxDepth home)
  let script ← (args.take 1).mapM fun arg => entryAt home (Path.ofString arg)
  let prelude ← (settings.vars.lookup "MAL_PRELUDE_PATH").toList.mapM fun text =>
    entryAt home ((Path.ofString text).child Prelude.fileName)
  return { home, entries := below.flatten ++ script.flatten ++ prelude.flatten }

/-- The standard input, in one piece. Nobody is told that it is not delivered before they read it. -/
def readInput : IO Input := do
  try return .ofBytes (← (← IO.getStdin).readBinToEnd)
  catch _ => return .broken .undelivered

/-- What is said when the program ends with an error that nothing handled. -/
def lastWords : Program.Exit → String
  | .code _ => ""
  | .setting fault => fault.message?.getD "the settings cannot be used"
  | .error e _ => e.message?.getD "the program stopped with an error"
  | .unfinished => "the program was cut off"

end AtomLisp.Main

open AtomLisp Main in
/-- Runs the program. -/
def main (args : List String) : IO UInt32 := do
  let settings ← readSettings
  let files ← readFiles args settings
  let now ← Std.Time.Timestamp.now
  let clock := fun _ => now.toMillisecondsSinceUnixEpoch.val
  let ending := Program.run Session.fuel { args, settings, files, clock, input := ← readInput }
  IO.print ending.output
  IO.eprint ending.report
  match ending.exit with
  | .code n => return n.toUInt32
  | other =>
    IO.eprintln (lastWords other)
    return 1
