import AtomLisp.Session

/-! # The program

  What the command line does: with arguments it loads the file that the first one names, and gives
  the program the others; without arguments it greets, and reads, evaluates and prints line by line.
-/

namespace AtomLisp.Program

/-- What the program finds when it is started. -/
structure Invocation where
  args     : List String
  settings : Settings
  files    : FileTree
  clock    : (n : Nat) → Int
  input    : Input

/-- How the program ends. -/
inductive Exit where
  /-- With an exit code. -/
  | code (n : Nat)
  /-- The settings cannot be used. -/
  | setting (fault : SettingFault)
  /-- With an error that nothing handled; the machine is as the error left it. -/
  | error (e : Error) (m : Machine)
  /-- Cut off. -/
  | unfinished

/-- How the program ended, and what it had written and reported by then. -/
structure Ending where
  exit   : Exit
  output : String
  report : String

/-- The ending of a run that answers an exit code. -/
def Ending.ofResult : Result Nat → Ending
  | .done n m => ⟨.code n, m.output, m.report⟩
  | .failed e m => ⟨.error e m, m.output, m.report⟩
  | .unfinished => ⟨.unfinished, "", ""⟩

/-- What the program writes when it starts without arguments. -/
def greeting : String := "(println (str \"Mal [\" *host-language* \"]\"))"

/-- Loads a file; an error that can be caught is reported. -/
def loadFile (fuel : Nat) (path : String) : Run Nat := do
  match ← (Session.loadFile fuel path).attempt with
  | .ok _ => return 0
  | .error e =>
    if e.isFatal then Run.fail e
    else
      let text ← Session.describe e
      Run.modify fun m => { m with report := m.report ++ s!"Error: {text}\n" }
      return 1

/-- Greets, and answers line by line. -/
def converse (fuel : Nat) : Run Nat := do
  let _ ← Session.rep fuel greeting
  Session.loop fuel
  return 0

/-- What the program does with its arguments. -/
def work (fuel : Nat) : List String → Run Nat
  | path :: _ => loadFile fuel path
  | [] => converse fuel

/-- The program. -/
def run (fuel : Nat) (invocation : Invocation) : Ending :=
  let setup : Session.Setup := {
    settings := invocation.settings, files := invocation.files, clock := invocation.clock,
    input := invocation.input, argv := invocation.args.drop 1, prelude := .standard }
  match Journal.ofName? setup.settings.logLevel with
  | none => ⟨.setting .unknownThreshold, "", ""⟩
  | some journal =>
    match Session.start fuel setup journal with
    | .error fault => ⟨.setting fault, "", ""⟩
    | .ok (.done () m) => Ending.ofResult (work fuel invocation.args m)
    | .ok (.failed e m) => ⟨.error e m, m.output, m.report⟩
    | .ok .unfinished => ⟨.unfinished, "", ""⟩

end AtomLisp.Program
