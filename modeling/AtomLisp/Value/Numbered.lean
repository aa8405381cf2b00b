import AtomLisp.Value

/-! # Numbering what was written down

  A form that a program gets hold of is an object like any other, so its collections need serial
  numbers of their own. `Value.number` gives them: collections that have a number already are left
  alone, with everything inside.
-/

namespace AtomLisp.Value

mutual

/-- Numbers the collections of a form that were only written down, from `next` on, and tells the
number after the last one. -/
def number (next : Serial) : Value → Value × Serial
  | .list 0 items => let r := numberAll (next + 1) items; (.list next r.1, r.2)
  | .vector 0 items => let r := numberAll (next + 1) items; (.vector next r.1, r.2)
  | .map 0 entries => let r := numberEntries (next + 1) entries; (.map next r.1, r.2)
  | v => (v, next)
termination_by structural v => v

/-- Numbers several forms, from first to last. -/
def numberAll (next : Serial) : List Value → List Value × Serial
  | [] => ([], next)
  | v :: vs =>
    let first := number next v
    let others := numberAll first.2 vs
    (first.1 :: others.1, others.2)
termination_by structural vs => vs

/-- Numbers the forms of entries, from first to last. -/
def numberEntries (next : Serial) : List (String × Value) → List (String × Value) × Serial
  | [] => ([], next)
  | (k, v) :: rest =>
    let first := number next v
    let others := numberEntries first.2 rest
    ((k, first.1) :: others.1, others.2)
termination_by structural es => es

end

end AtomLisp.Value
