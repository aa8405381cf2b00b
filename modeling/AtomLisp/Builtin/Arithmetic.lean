import AtomLisp.Builtin.Arguments

/-! # Numbers

  Sums, differences, products and quotients of two integers or more, folded from the left, and the
  order of two integers. Division cuts off toward zero.
-/

namespace AtomLisp.Arithmetic

open Arguments

/-- The integers among which a list of arguments is, if it holds nothing else. -/
def ints? : List Value → Option (List Int)
  | [] => some []
  | .int i :: args => (ints? args).map (i :: ·)
  | _ :: _ => none

/-- Two integers or more: the first and the others. -/
def operands (callee : String) (args : List Value) : Except Error (Int × List Int) :=
  match ints? args with
  | some (i :: j :: rest) => .ok (i, j :: rest)
  | _ => misuse callee .twoOrMoreNumbers

/-- Folds an operation over two integers or more. -/
def fold (callee : String) (op : Int → Int → Int) (args : List Value) : Except Error Answer := do
  let (first, others) ← operands callee args
  return .value (.int (others.foldl op first))

/-- The quotient of the absolute values, with a minus sign if one of the integers is negative and
the other is not. -/
def cutOff (a b : Int) : Int :=
  let q : Int := (a.natAbs / b.natAbs : Nat)
  if a < 0 ↔ b < 0 then q else -q

/-- The quotient cut off toward zero. -/
def quotient (a b : Int) : Except Error Int :=
  if b = 0 then .error .divisionByZero else .ok (cutOff a b)

/-- The first integer divided by the others, one after another. -/
def divide (args : List Value) : Except Error Answer := do
  let (first, others) ← operands Builtin.Query.div.name args
  return .value (.int (← others.foldlM quotient first))

/-- Compares two integers. -/
def compare (callee : String) (p : Int → Int → Bool) (args : List Value) : Except Error Answer :=
  match args with
  | [.int i, .int j] => .ok (.ofBool (p i j))
  | _ => misuse callee .twoNumbers

end AtomLisp.Arithmetic
