import AtomLisp.Job

/-! # Macro expansion

  A form is a macro call when it is a list whose first element is a symbol that a macro is bound to.
  Its expansion is what the macro answers for the other elements, unevaluated.

  * `Machine.macroCall?` recognises macro calls;
  * `Caller.expandOnce` expands one, and `Caller.expand` goes on until the form is none.
-/

namespace AtomLisp

/-- A call of a macro. -/
structure MacroCall where
  /-- The symbol in front. -/
  name   : String
  params : List String
  body   : Value
  /-- The frame that the macro was made in. -/
  home   : FrameId
  /-- The forms that the macro is called with. -/
  args   : List Value

/-- The macro call that a form is in a frame, if it is one. -/
def Machine.macroCall? (m : Machine) (form : Value) (frame : FrameId) : Option MacroCall :=
  match form with
  | .list _ (.symbol name :: args) =>
    match m.frames.lookup? name frame with
    | some (.closure _ params body home true) => some { name, params, body, home, args }
    | _ => none
  | _ => none

namespace Caller

/-- What a macro answers. -/
def expandCall (c : Caller) (call : MacroCall) : Run Value := do
  Run.modify (·.log .debug .expansion s!"expanding macro {call.name}")
  let frame ← Parameters.bind call.params call.args call.home
  c.inner.complete call.body frame

/-- Expands a form once, if it is a macro call. -/
def expandOnce (c : Caller) (form : Value) (frame : FrameId) : Run Value := do
  match (← Run.get).macroCall? form frame with
  | some call => c.expandCall call
  | none => return form

/-- Expands a form once and goes on, or ends with the form if it is no macro call. -/
def expandNext (c : Caller) (frame : FrameId) (form : Value) : Run (Value ⊕ Value) := do
  match (← Run.get).macroCall? form frame with
  | some call => return .inl (← c.expandCall call)
  | none => return .inr form

/-- Expands a form until it is no macro call. -/
def expand (c : Caller) (frame : FrameId) (rounds : Rounds) (form : Value) : Run Value :=
  rounds.run (c.expandNext frame) form

end Caller

end AtomLisp
