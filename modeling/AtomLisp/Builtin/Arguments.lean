import AtomLisp.Machine

/-! # Arguments of the builtin functions

  Every builtin checks its arguments before it does anything else. The checks that several of them
  share stand here, with the form of their answers. `callee` is the name in the message.
-/

namespace AtomLisp

/-- What a function answers: a value that is there, a form that was only written down, the content
of a new collection, or what the clock shows. -/
inductive Answer where
  | value (v : Value)
  | form (v : Value)
  | list (items : List Value)
  | vector (items : List Value)
  | map (entries : Entries Value)
  | time

/-- A truth value as an answer. -/
def Answer.ofBool (b : Bool) : Answer := .value (.bool b)

namespace Arguments

/-- The arguments do not fit. -/
def misuse {α : Type} (callee : String) (why : Misuse) : Except Error α :=
  .error (.invalidArguments callee why)

/-- No argument. -/
def zero (callee : String) : List Value → Except Error Unit
  | [] => .ok ()
  | args => misuse callee (.count 0 args.length)

/-- The only argument. -/
def one (callee : String) : List Value → Except Error Value
  | [v] => .ok v
  | args => misuse callee (.count 1 args.length)

/-- The two arguments. -/
def two (callee : String) : List Value → Except Error (Value × Value)
  | [v, w] => .ok (v, w)
  | args => misuse callee (.count 2 args.length)

/-- The only argument, a string or keyword. -/
def oneText (callee : String) (args : List Value) : Except Error String := do
  match ← one callee args with
  | .text s => return s
  | _ => misuse callee .string

/-- A test of the only argument. -/
def test (callee : String) (p : Value → Bool) (args : List Value) : Except Error Answer := do
  return .ofBool (p (← one callee args))

end Arguments

end AtomLisp
