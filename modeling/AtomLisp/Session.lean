import AtomLisp.Evaluation
import AtomLisp.Prelude
import AtomLisp.Settings

/-! # Sessions

  A session is an interpreter that keeps its machine from one text to the next.

  * `Session.start` makes the machine and evaluates the prelude;
  * `Session.evalAll` evaluates the forms of a text in the root frame, one after another, and
    `Session.eval` and `Session.rep` answer their values or print the last one;
  * `Session.loadFile` loads a file, and `Session.loop` reads, evaluates and prints line by line.
-/

namespace AtomLisp

/-- Which prelude a session starts with. -/
inductive PreludeChoice where
  /-- The prelude that the settings name. -/
  | standard
  | none
  | text (source : String)
  deriving DecidableEq, Repr

/-- What the texts of a session are answered with. -/
inductive Evaluated where
  | single (v : Value)
  | several (vs : List Value)

/-- `nil` for no value, the value itself for one, and all of them for several. -/
def Evaluated.ofValues : List Value → Evaluated
  | [] => .single .nil
  | [v] => .single v
  | vs => .several vs

/-! ### The root frame -/

/-- Makes a root frame that binds the builtins. -/
def Machine.pushRoot (m : Machine) : Machine :=
  m.pushFrame Option.none (Builtin.all.map fun b => (b.name, .builtin b))

namespace Session

/-- The number of the root frame. -/
def root : FrameId := 0

/-- How much fuel a session has; more than a program can use in its lifetime. -/
def fuel : Nat := Nat.pow 2 62

/-- A machine with a root frame and the names that every session binds there. -/
def machine (host : Host) (input : Input) (argv : List String) : Machine :=
  (((Machine.initial host input).pushRoot).define root "*ARGV*" (.form (argv.map .text))).define
    root "*host-language*" (.text "python")

/-! ### Texts -/

/-- The values of forms that were written down, from first to last. -/
def evalEach (c : Caller) : List Value → Run (List Value)
  | [] => pure []
  | form :: forms => do
    let v ← c.complete (← Run.number form) root
    return v :: (← evalEach c forms)

/-- The values of the forms of a text. The forms in front of a fault are evaluated before the
fault is noticed. -/
def evalText (c : Caller) (source : String) : Run (List Value) := do
  let (forms, fault?) := Reader.readAll (← Run.get).host.limits.nesting source
  let vs ← evalEach c forms
  -- A fault counts only now: the forms in front of it have had their effects.
  match fault? with
  | Option.none => return vs
  | some e => Run.fail e

/-- The values of forms that a session evaluates. -/
def evalForms (fuel : Nat) (forms : List Value) : Run (List Value) :=
  evalEach (outermost fuel) forms

/-- The values of the forms of a text that a session evaluates. -/
def evalAll (fuel : Nat) (source : String) : Run (List Value) := evalText (outermost fuel) source

/-- Evaluates a text. The values are collected a step deeper than where a session evaluates for the
last value, or for none. -/
def eval (fuel : Nat) (source : String) : Run Evaluated := do
  return .ofValues (← evalText (outermost fuel).inner source)

/-- Evaluates a text, and prints the last value. -/
def rep (fuel : Nat) (source : String) : Run String := do
  let vs ← evalAll fuel source
  Run.read (·.print true (vs.getLast?.getD .nil))

/-- Loads a file, as the function `load-file` of the root frame does it. -/
def loadFile (fuel : Nat) (path : String) : Run Value := do
  Run.modify (·.log .debug .session s!"loading file {path}")
  evaluate fuel (.form [.symbol "load-file", .text path]) root

/-! ### The prelude -/

/-- Evaluates a text for what it defines. -/
def evalPrelude (fuel : Nat) (source : String) : Run Unit := do
  let _ ← evalAll fuel source

/-- The text of the prelude in a directory, if there is one. -/
def readPrelude (path : Path) : Run (Option String) := do
  let files := (← Run.get).host.files
  match files.resolve path with
  | .error .nameTooLong => Run.fail (.preludeUnreadable .nameTooLong)
  | .error _ =>
    Run.modify (·.log .warning .session
      s!"prelude {path.toString} not found; continuing without it")
    return Option.none
  | .ok _ =>
    Run.modify (·.log .debug .session s!"loading prelude {path.toString}")
    match files.readText path with
    | .ok source => return some source
    | .error .undecodable => Run.fail .undecodable
    | .error (.file fault) => Run.fail (.preludeUnreadable fault)

/-- Evaluates the prelude in a directory, or that of this library. -/
def loadPrelude (fuel : Nat) (directory : Option Path) : Run Unit := do
  match directory with
  | Option.none =>
    Run.modify (·.log .debug .session s!"loading prelude {Prelude.fileName}")
    evalPrelude fuel Prelude.text
  | some directory =>
    match ← readPrelude (directory.child Prelude.fileName) with
    | Option.none => return ()
    | some source => evalPrelude fuel source

/-! ### The start -/

/-- What a session is started with. -/
structure Setup where
  settings : Settings
  files    : FileTree
  clock    : (n : Nat) → Int
  input    : Input
  argv     : List String
  prelude  : PreludeChoice

/-- The limits of nesting that the settings ask for; they are never lower than the least ones. -/
def limits (settings : Settings) : Except SettingFault Limits := do
  let limit ← settings.recursionLimit
  if Settings.maxLimit < limit then throw .limitTooLarge
  return .ofSteps (max limit.toNat Limits.leastSteps)

/-- Makes the machine of a session. -/
def setUp (setup : Setup) (journal : Journal) : Except SettingFault Machine := do
  let limits ← limits setup.settings
  let host := { files := setup.files, clock := setup.clock, journal, limits }
  return machine host setup.input setup.argv

/-- Evaluates the prelude of a setup. -/
def evalChoice (fuel : Nat) (setup : Setup) : Except SettingFault (Run Unit) :=
  match setup.prelude with
  | .none => .ok (pure ())
  | .text source => .ok (evalPrelude fuel source)
  | .standard => do return loadPrelude fuel (← setup.settings.preludeRoot setup.files)

/-- Starts a session: makes its machine and evaluates the prelude. -/
def start (fuel : Nat) (setup : Setup) (journal : Journal) : Except SettingFault (Result Unit) := do
  let m ← setUp setup journal
  let prelude ← evalChoice fuel setup
  return prelude m

/-! ### The loop -/

/-- What is said about an error. -/
def describe (e : Error) : Run String :=
  match e with
  | .thrown v => Run.read (·.print true v)
  | e =>
    match e.message? with
    | some message => pure message
    | Option.none => Run.fail e

/-- Evaluates a line and writes its value or its error. An error that cannot be caught ends the
loop. -/
def answerLine (fuel : Nat) (line : String) : Run Unit := do
  match ← (rep fuel line).attempt with
  | .ok text => Run.modify (·.write (text ++ "\n"))
  | .error e =>
    if e.isFatal then Run.fail e
    else
      let text ← describe e
      Run.modify (·.write s!"Error: {text}\n")

/-- Answers at most `lines` lines. -/
def loopLines (fuel : Nat) : (lines : Nat) → Run Unit
  | 0 => pure ()
  | lines + 1 => do
    match ← Run.ask "user> " with
    | Option.none => Run.modify (·.write "\n")
    | some line => do
      if line.toList.all Text.isBlank then loopLines fuel lines
      else do
        answerLine fuel line
        loopLines fuel lines

/-- Reads, evaluates and prints line by line, to the end of the input. Every line takes at least
one character, so there are not more lines than characters. -/
def loop (fuel : Nat) : Run Unit := do
  loopLines fuel ((← Run.get).input.size + 1)

end Session

end AtomLisp
