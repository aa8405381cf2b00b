import AtomLisp.Run

/-! # Parameters

  How the arguments of a call find their names. Each parameter takes one argument, unless `&` stands
  among the parameters: then the one name after it takes the list of all arguments that are left.

  * `Parameters.assign` matches parameters and arguments;
  * `Parameters.bind` makes the frame of a call.
-/

namespace AtomLisp.Parameters

/-- The parameter in front of the name for the remaining arguments. -/
def restMarker : String := "&"

/-- Which argument each name takes. -/
structure Assignment where
  /-- The names that take one argument each. -/
  single : List (String × Value)
  /-- The name that takes the remaining arguments. -/
  rest   : Option (String × List Value)

/-- Matches parameters and arguments. -/
def assign (params : List String) (args : List Value) : Except Misuse Assignment :=
  match params.dropWhile (· != restMarker) with
  | [] =>
    if args.length = params.length then .ok ⟨params.zip args, none⟩
    else .error (.count params.length args.length)
  | [_, name] =>
    let required := params.takeWhile (· != restMarker)
    if required.length ≤ args.length then
      .ok ⟨required.zip args, some (name, args.drop required.length)⟩
    else .error (.atLeast required.length args.length)
  | _ => .error .oneRestName

/-- Makes the frame of a call, below the frame that the function was made in. -/
def bind (params : List String) (args : List Value) (home : FrameId) : Run FrameId :=
  match assign params args with
  | .error misuse => Run.fail (.invalidArguments "fn*" misuse)
  | .ok ⟨single, none⟩ => Run.newFrame home (Entries.insertAll [] single)
  | .ok ⟨single, some (name, rest)⟩ => do
    let serial ← Run.newSerial
    Run.newFrame home (Entries.insert name (.list serial rest) (Entries.insertAll [] single))

end AtomLisp.Parameters
