import AtomLisp.Call
import AtomLisp.SpecialForm

/-! # Evaluation

  What each job does, and the knot that ties the jobs together.

  * `Caller.evalForm` evaluates a form whose macro calls are expanded, and `Caller.eval` any form;
  * `perform` does a job with a given amount of fuel, and `evaluate` evaluates a form to its end.

  The fuel bounds how long a program may run. It is there to make evaluation total: a run that ends
  ends in the same way with any larger amount, and a run out of fuel is *unfinished*, which is
  neither a value nor an error. How deep jobs may be nested is another matter: that limit belongs to
  the machine, and going beyond it is an error that a program can catch.
-/

namespace AtomLisp

namespace Caller

/-- Evaluates a form that is no macro call. -/
def evalForm (c : Caller) (tail : Bool) (form : Value) (frame : FrameId) : Run Step :=
  match form with
  | .list _ (head :: parts) =>
    match specialForm? head with
    | some special => special.eval c tail frame parts
    | none => do
      let f ← c.headValue head frame
      let args ← c.values frame parts
      c.apply tail f args frame
  | .symbol name => do
    match (← Run.get).frames.lookup? name frame with
    | some v => return .value v
    | none => Run.fail (.unbound name)
  | .vector _ items => do return .value (← Run.newVector (← c.elementValues frame items))
  | .map _ entries => do return .value (← Run.newMap (← c.entryValues frame entries))
  | v => return .value v
where
  specialForm? : Value → Option SpecialForm
    | .symbol name => SpecialForm.ofName? name
    | _ => none

/-- Evaluates a form: first the macro calls at its head are expanded. -/
def eval (c : Caller) (tail : Bool) (form : Value) (frame : FrameId) : Run Step := do
  c.evalForm tail (← c.expand frame c.rounds form) frame

/-- Does a job. -/
def perform (c : Caller) : Job → Run Step
  | .eval tail form frame => c.eval tail form frame
  | .call f args frame => c.apply false f args frame

end Caller

/-- Does a job at a level, with an amount of fuel, if the machine allows the level. -/
def perform : (fuel : Nat) → Worker
  | 0 => fun _ _ => Run.unfinished
  | fuel + 1 => fun level job => do
    -- The level is checked before anything is done, so a job that is too deep leaves no trace.
    if (← Run.get).host.limits.allows level then
      Caller.perform ⟨perform fuel, fuel, level⟩ job
    else Run.fail .tooDeep

/-- A job that the machine allows is done with one unit of fuel less. -/
theorem perform_succ_of_allows {m : Machine} {level : Nat}
    (h : m.host.limits.allows level = true) (fuel : Nat) (job : Job) :
    perform (fuel + 1) level job m = Caller.perform ⟨perform fuel, fuel, level⟩ job m := by
  show (if m.host.limits.allows level = true then
    Caller.perform ⟨perform fuel, fuel, level⟩ job else Run.fail .tooDeep) m = _
  rw [if_pos h]

/-- A job that is too deep is refused. -/
theorem perform_succ_of_not_allows {m : Machine} {level : Nat}
    (h : m.host.limits.allows level ≠ true) (fuel : Nat) (job : Job) :
    perform (fuel + 1) level job m = .failed .tooDeep m := by
  show (if m.host.limits.allows level = true then
    Caller.perform ⟨perform fuel, fuel, level⟩ job else Run.fail .tooDeep) m = _
  rw [if_neg h]
  rfl

/-- What stands outside of all jobs and gives the first one. -/
def outermost (fuel : Nat) : Caller := ⟨perform fuel, fuel, 0⟩

/-- The value of a form in a frame. -/
def evaluate (fuel : Nat) (form : Value) (frame : FrameId) : Run Value :=
  (outermost fuel).complete form frame

end AtomLisp
