import AtomLisp.Builtin.Actions
import AtomLisp.Builtin.Queries

/-! # Calls

  What happens when a value is called: a closure gets a frame for its arguments, a builtin answers
  or acts, and anything else cannot be called.
-/

namespace AtomLisp

/-- Makes what is answered. -/
def Answer.make : Answer → Run Value
  | .value v => pure v
  | .form v => Run.number v
  | .list items => Run.newList items
  | .vector items => Run.newVector items
  | .map entries => Run.newMap entries
  | .time => do return .int (← Run.readClock)

/-- Calls a builtin from a frame. -/
def Builtin.call (c : Caller) (frame : FrameId) (args : List Value) : Builtin → Run Value
  | .query q => do
    let answer ← Run.read (q.answer · args)
    answer.make
  | .action a => a.perform c frame args

namespace Builtin

variable (c : Caller) (frame : FrameId) {m : Machine} {q : Query} {args : List Value}

/-- A call of a query makes what the query answers. -/
theorem call_of_ok {answer : Answer} (h : q.answer m args = .ok answer) :
    Builtin.call c frame args (.query q) m = answer.make m := by
  show (Run.read (q.answer · args) >>= Answer.make) m = _
  rw [Run.bind_apply, Run.read, h]

/-- A call of a query stops with the error of the query, and leaves the machine as it was. -/
theorem call_of_error {e : Error} (h : q.answer m args = .error e) :
    Builtin.call c frame args (.query q) m = .failed e m := by
  show (Run.read (q.answer · args) >>= Answer.make) m = _
  rw [Run.bind_apply, Run.read, h]

end Builtin

/-- Calls a value from a frame. In tail position the body of a closure is left for later. -/
def Caller.apply (c : Caller) (tail : Bool) (f : Value) (args : List Value) (frame : FrameId) :
    Run Step :=
  match f with
  | .closure _ params body home _ => do
    let frame ← Parameters.bind params args home
    if tail then return .tailCall body frame
    else return .value (← c.complete body frame)
  | .builtin b => do return .value (← b.call c frame args)
  | f => do Run.fail (.notCallable (← Run.read (·.print true f)))

end AtomLisp
