import AtomLisp.Error
import AtomLisp.Literal
import AtomLisp.Numeral

/-! # Printing values

  The text of a value. A *readable* text reads back as an equal value; a text for *display* shows
  strings as they are, without quotes. The parts of a value may not be nested too deeply; a cell
  that holds itself is nested without end, so it has no text.
-/

namespace AtomLisp

/-- The text of an integer, if it is not too long. -/
def Numeral.write (i : Int) : Except Error String :=
  match Numeral.write? i with
  | some s => .ok s
  | none => .error .numeralTooLong

namespace Value

/-- The printed form of a string or keyword. -/
def printText (readable : Bool) (s : String) : String :=
  if Keyword.isKeyword s then ":" ++ Keyword.name s
  else if readable then String.ofList (Literal.encode s.toList)
  else s

/-- The printed form of a value that may be `steps` deep: a list or vector takes four steps, a
hash-map three, and everything else one. -/
def print (cells : Cells) (readable : Bool) : (steps : Nat) → Value → Except Error String
  | _ + 1, .nil => .ok "nil"
  | _ + 1, .bool true => .ok "true"
  | _ + 1, .bool false => .ok "false"
  | _ + 1, .int i => Numeral.write i
  | _ + 1, .text s => .ok (printText readable s)
  | _ + 1, .symbol name => .ok name
  | _ + 1, .builtin _ => .ok "#<function>"
  | _ + 1, .closure _ _ _ _ isMacro => .ok (if isMacro then "#<macro>" else "#<function>")
  | steps + 1, .atom cell => do
    return "(atom " ++ (← print cells readable steps (cells.content cell)) ++ ")"
  | steps + 3, .map _ entries => do
    let parts ← entries.mapM fun entry => do
      return printText readable entry.1 ++ " " ++ (← print cells readable steps entry.2)
    return "\x7b" ++ " ".intercalate parts ++ "\x7d"
  | steps + 4, .list _ items => do
    let parts ← items.mapM (print cells readable steps)
    return "(" ++ " ".intercalate parts ++ ")"
  | steps + 4, .vector _ items => do
    let parts ← items.mapM (print cells readable steps)
    return "[" ++ " ".intercalate parts ++ "]"
  | _, _ => .error .tooDeep

/-- The printed forms of several values, with `separator` between them. -/
def printAll (cells : Cells) (readable : Bool) (steps : Nat) (separator : String)
    (values : List Value) : Except Error String := do
  return separator.intercalate (← values.mapM (print cells readable steps))

end Value

end AtomLisp
