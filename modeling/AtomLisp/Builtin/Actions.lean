import AtomLisp.Builtin.Arguments
import AtomLisp.Job

/-! # What actions do

  The builtins that write to the output, read the input, make and write atoms, or call other
  functions. Arguments are checked before anything is done.
-/

namespace AtomLisp.Builtin

open Arguments

/-! ### Input and output -/

/-- Writes the printed forms of the arguments on a line. -/
def printLine (readable : Bool) (args : List Value) : Run Value := do
  let text ← Run.read (·.printAll readable " " args)
  Run.modify (·.write (text ++ "\n"))
  return .nil

/-- Writes a prompt and reads a line; `nil` at the end of the input. -/
def promptLine (args : List Value) : Run Value := do
  let prompt ← Run.ofExcept (oneText Action.readline.name args)
  return (← Run.ask prompt).elim .nil .text

/-! ### Atoms -/

/-- Makes an atom. -/
def makeAtom (args : List Value) : Run Value := do
  Run.newAtom (← Run.ofExcept (one Action.atom.name args))

/-- Writes an atom, and answers what was written. -/
def writeCell (cell : CellId) (v : Value) : Run Value := do
  Run.modify (·.setCell cell v)
  return v

/-- Writes an atom that is given with its new content. -/
def resetAtom (args : List Value) : Run Value := do
  match ← Run.ofExcept (two Action.reset.name args) with
  | (.atom cell, v) => writeCell cell v
  | _ => Run.ofExcept (misuse Action.reset.name .atom)

/-- Writes an atom with what a function answers for its content and further arguments. The atom is
written when the function has answered. -/
def swapAtom (c : Caller) (frame : FrameId) (args : List Value) : Run Value :=
  match args with
  | .atom cell :: f :: rest =>
    if f.isFunction then do
      let m ← Run.get
      let v ← c.call f (m.cells.content cell :: rest) frame
      -- What the function itself wrote to the cell is lost here.
      writeCell cell v
    else Run.ofExcept (misuse Action.swap.name .function)
  | _ :: _ :: _ => Run.ofExcept (misuse Action.swap.name .atom)
  | _ => Run.ofExcept (misuse Action.swap.name .atomAndFunction)

/-! ### Calls -/

/-- Calls `f` with each value in turn. -/
def callEach (c : Caller) (f : Value) (frame : FrameId) : List Value → Run (List Value)
  | [] => pure []
  | v :: vs => do
    let w ← c.call f [v] frame
    return w :: (← callEach c f frame vs)

theorem callEach_congr {c d : Caller} (hcall : c.call = d.call) (f : Value) (frame : FrameId)
    (vs : List Value) : callEach c f frame vs = callEach d f frame vs := by
  induction vs with
  | nil => rfl
  | cons v vs ih => simp only [callEach, hcall, ih]

/-- The list of what a function answers for each element of a sequence. -/
def mapItems (c : Caller) (frame : FrameId) (args : List Value) : Run Value := do
  let (f, xs) ← Run.ofExcept (two Action.map.name args)
  match f.isFunction, xs.items? with
  | true, some items => do Run.newList (← callEach c.inner f frame items)
  | _, _ => Run.ofExcept (misuse Action.map.name .functionAndSequence)

/-- The values of a list, with sequences taken apart. -/
def spread (values : List Value) : List Value := values.flatMap fun v => v.items?.getD [v]

/-- Calls a function with the elements of the last argument, a sequence, after the arguments in
front of it. -/
def applyTo (c : Caller) (frame : FrameId) (args : List Value) : Run Value :=
  match args with
  | f :: v :: vs =>
    match f.isFunction, ((v :: vs).getLast (List.cons_ne_nil v vs)).items? with
    | true, some items => c.call f (spread (v :: vs).dropLast ++ items) frame
    | _, _ => Run.ofExcept (misuse Action.apply.name .functionAndArguments)
  | _ => Run.ofExcept (misuse Action.apply.name .functionAndArguments)

/-- Evaluates a form in the root frame. -/
def evalForm (c : Caller) (frame : FrameId) (args : List Value) : Run Value := do
  let form ← Run.ofExcept (one Action.eval.name args)
  let m ← Run.get
  c.inner.complete form (m.frames.root frame)

/-- What an action does when it is called from a frame. -/
def Action.perform (a : Action) (c : Caller) (frame : FrameId) (args : List Value) : Run Value :=
  match a with
  | .prn => printLine true args
  | .println => printLine false args
  | .readline => promptLine args
  | .atom => makeAtom args
  | .reset => resetAtom args
  | .swap => swapAtom c frame args
  | .map => mapItems c frame args
  | .apply => applyTo c frame args
  | .eval => evalForm c frame args

end AtomLisp.Builtin
