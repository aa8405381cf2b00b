import AtomLisp.Parameters

/-! # Jobs

  Evaluation is a matter of jobs that give each other further jobs: to evaluate a form, or to call a
  function. This module says what a job is and how its parts are given on; what a job does is said
  by the modules for macros, special forms and calls, and `Evaluation` ties the knot.

  ## Tail calls

  A job in *tail* position need not be finished: it may end with a tail call, the body of a closure
  that is still to be evaluated in its frame. Whoever gave the job on settles it: `Caller.settle`
  evaluates one body after another until a value comes. So calls in tail position do not nest.

  ## Levels

  A job that another one gives on runs some steps deeper: how many is said in `Steps`. Some jobs
  give others on from inside a part of themselves, a step deeper still: they do so by
  `Caller.inner`. The bodies that `settle` evaluates all run at one level.
-/

namespace AtomLisp

/-- Something to be done. -/
inductive Job where
  /-- Evaluate a form in a frame. -/
  | eval (tail : Bool) (form : Value) (frame : FrameId)
  /-- Call a function from a frame. -/
  | call (f : Value) (args : List Value) (frame : FrameId)

/-- What a job ends with. -/
inductive Step where
  | value (v : Value)
  /-- The body of a closure is still to be evaluated, in the frame of its call. -/
  | tailCall (body : Value) (frame : FrameId)
  deriving DecidableEq

/-- Does jobs at a level. -/
abbrev Worker := (level : Nat) → Job → Run Step

/-- How a step is repeated until it comes to a result. -/
structure Rounds where
  run : {β α : Type} → (β → Run (β ⊕ α)) → β → Run α

/-- At most so many times. -/
instance : Coe Nat Rounds := ⟨fun times => ⟨fun step => Run.iterate step times⟩⟩

/-- A job's view of those that it gives further jobs to. -/
structure Caller where
  work   : Worker
  /-- How bodies are evaluated in place of one another, and macro calls expanded. -/
  rounds : Rounds
  /-- The level of the job itself. -/
  level  : Nat

namespace Caller

/-- The view from another level. -/
def onLevel (c : Caller) (level : Nat) : Caller := { c with level }

/-- The view from inside a part of the job that gives further jobs on itself: a step deeper. -/
def inner (c : Caller) : Caller := c.onLevel (c.level + 1)

/-- Evaluates the body of a tail call. Every body runs at the same level, however many there
are. -/
def settleOnce (c : Caller) : Step → Run (Step ⊕ Value)
  | .value v => return .inr v
  | .tailCall body frame => do
    return .inl (← c.work (c.level + Steps.again) (.eval true body frame))

/-- Evaluates the bodies of tail calls until a value comes. -/
def settle (c : Caller) (step : Step) : Run Value := c.rounds.run c.settleOnce step

/-- Does a job some steps deeper, to its end. -/
def finish (c : Caller) (steps : Nat) (job : Job) : Run Value := do
  c.settle (← c.work (c.level + steps) job)

/-- The value of a part of a form, in no tail position. -/
def value (c : Caller) (form : Value) (frame : FrameId) : Run Value :=
  c.finish Steps.part (.eval false form frame)

/-- The value of the form in front of a call. -/
def headValue (c : Caller) (form : Value) (frame : FrameId) : Run Value :=
  c.finish Steps.head (.eval false form frame)

/-- The value of a form that stands alone: its tail calls are settled here. -/
def complete (c : Caller) (form : Value) (frame : FrameId) : Run Value :=
  c.finish Steps.body (.eval true form frame)

/-- The result of a function that a builtin calls. -/
def call (c : Caller) (f : Value) (args : List Value) (frame : FrameId) : Run Value :=
  c.finish Steps.call (.call f args frame)

/-- Evaluates a part of a form in the place of the job itself, in tail position if the job is. -/
def last (c : Caller) (tail : Bool) (form : Value) (frame : FrameId) : Run Step :=
  c.work (c.level + Steps.part) (.eval tail form frame)

/-- The values of forms, from left to right. -/
def values (c : Caller) (frame : FrameId) : List Value → Run (List Value)
  | [] => pure []
  | form :: forms => do
    let v ← c.value form frame
    return v :: (← c.values frame forms)

/-- The values of the elements of a vector, from left to right. -/
def elementValues (c : Caller) (frame : FrameId) : List Value → Run (List Value)
  | [] => pure []
  | form :: forms => do
    let v ← c.finish Steps.element (.eval false form frame)
    return v :: (← c.elementValues frame forms)

/-- The values of the forms under keys, from left to right. -/
def entryValues (c : Caller) (frame : FrameId) :
    List (String × Value) → Run (List (String × Value))
  | [] => pure []
  | (k, form) :: rest => do
    let v ← c.value form frame
    return (k, v) :: (← c.entryValues frame rest)

/-- Evaluates forms from left to right, the last of them in the place of the job itself. -/
def sequence (c : Caller) (tail : Bool) (frame : FrameId) : List Value → Run Step
  | [] => pure (.value .nil)
  | [form] => c.last tail form frame
  | form :: forms => do
    let _ ← c.value form frame
    c.sequence tail frame forms

/-- Callers that evaluate parts alike evaluate forms in turn alike. -/
theorem sequence_congr {c d : Caller} (hvalue : c.value = d.value) (hlast : c.last = d.last)
    (tail : Bool) (frame : FrameId) (forms : List Value) :
    c.sequence tail frame forms = d.sequence tail frame forms := by
  induction forms with
  | nil => rfl
  | cons form forms ih =>
    cases forms with
    | nil => simp only [sequence, hlast]
    | cons next forms => simp only [sequence, hvalue, ih]

end Caller

end AtomLisp
