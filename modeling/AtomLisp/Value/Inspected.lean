import AtomLisp.Value.Printer

/-! # How messages show values

  An error message that mentions a value shows its kind along with its content: symbols, lists,
  vectors and atoms by name, texts between quotes (keywords with their mark), and functions by their
  parameters. As when printing, the parts of a value may not be nested too deeply.

  Through an atom a hash-map can come to hold itself. Where it is met inside itself, dots stand for
  its entries, so it has an inspected form although it has no printed one. No other cycle is cut
  short in this way.
-/

namespace AtomLisp.Value

/-- The inspected form of a value that stands in the hash-maps `around` and may be `steps` deep: a
list or vector takes three steps, an atom two, and everything else one. -/
def inspectWithin (cells : Cells) :
    (steps : Nat) → (around : List Value) → Value → Except Error String
  | _ + 1, _, .nil => .ok "nil"
  | _ + 1, _, .bool true => .ok "True"
  | _ + 1, _, .bool false => .ok "False"
  | _ + 1, _, .int i => Numeral.write i
  | _ + 1, _, .text s => .ok (Text.quoted s)
  | _ + 1, _, .symbol name => .ok ("Symbol(" ++ Text.quoted name ++ ")")
  | _ + 1, _, .builtin b => .ok ("<builtin " ++ b.name ++ ">")
  | _ + 1, _, .closure _ params _ _ isMacro =>
    .ok ("<Lambda " ++ (if isMacro then "macro" else "fn*") ++ " (" ++ " ".intercalate params
      ++ ")>")
  | steps + 1, around, .map serial entries =>
    -- A map without a number has no identity by which it could be known again.
    if serial ≠ 0 ∧ .map serial entries ∈ around then .ok "\x7b...\x7d"
    else do
      let parts ← entries.mapM fun entry => do
        return Text.quoted entry.1 ++ ": " ++
          (← inspectWithin cells steps (.map serial entries :: around) entry.2)
      return "\x7b" ++ ", ".intercalate parts ++ "\x7d"
  | steps + 2, around, .atom cell => do
    return "Atom(" ++ (← inspectWithin cells steps around (cells.content cell)) ++ ")"
  | steps + 3, around, .list _ items => do
    let parts ← items.mapM (inspectWithin cells steps around)
    return "List([" ++ ", ".intercalate parts ++ "])"
  | steps + 3, around, .vector _ items => do
    let parts ← items.mapM (inspectWithin cells steps around)
    return "Vector([" ++ ", ".intercalate parts ++ "])"
  | _, _, _ => .error .tooDeep

/-- The inspected form of a value that may be `steps` deep. -/
def inspect (cells : Cells) (steps : Nat) (v : Value) : Except Error String :=
  v.inspectWithin cells steps []

end AtomLisp.Value
