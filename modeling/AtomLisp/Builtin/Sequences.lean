import AtomLisp.Builtin.Arguments

/-! # Lists and vectors

  Builders and observers of sequences. Builders leave their arguments alone: what they answer is a
  new sequence.
-/

namespace AtomLisp.Sequences

open Arguments Builtin

/-- How many elements a sequence has; anything else has none. -/
def countOf (v : Value) : Nat := (v.items?.getD []).length

/-- The elements of a sequence, and none for `nil`. -/
def itemsOrNil (callee : String) : Value → Except Error (List Value)
  | .nil => .ok []
  | .list _ items | .vector _ items => .ok items
  | _ => misuse callee .sequenceOrNil

/-- The elements of a sequence as a vector. -/
def toVector (args : List Value) : Except Error Answer := do
  match (← one Query.vec.name args).items? with
  | some items => return .vector items
  | none => misuse Query.vec.name .sequence

/-- The first element, or `nil` if there is none. -/
def firstOf (args : List Value) : Except Error Answer := do
  let items ← itemsOrNil Query.first.name (← one Query.first.name args)
  return .value (items.head?.getD .nil)

/-- All elements but the first. -/
def restOf (args : List Value) : Except Error Answer := do
  match ← one Query.rest.name args with
  | .nil => return .value (.form [])
  | v => return .list (← itemsOrNil Query.rest.name v).tail

/-- An index that is outside of a sequence; its text may be too long for the message. -/
def indexFault (index : Int) (length : Nat) : Error :=
  if (Numeral.write? index).isSome then .outOfRange index length else .numeralTooLong

/-- The element at an index, counted from zero. -/
def elementAt (args : List Value) : Except Error Answer := do
  match ← two Query.nth.name args with
  | (.list _ items, .int index) | (.vector _ items, .int index) =>
    match index with
    | .ofNat i =>
      match items[i]? with
      | some v => return .value v
      | none => throw (indexFault index items.length)
    | .negSucc _ => throw (indexFault index items.length)
  | _ => misuse Query.nth.name .sequenceAndNumber

/-- A value in front of the elements of a sequence. -/
def prepend (args : List Value) : Except Error Answer := do
  let (head, tail) ← two Query.cons.name args
  match tail.items? with
  | some items => return .list (head :: items)
  | none => misuse Query.cons.name .sequenceTail

/-- The elements of sequences, one after another; the first argument that is no sequence is shown
in the message. -/
def joinItems (m : Machine) : List Value → Except Error (List Value)
  | [] => .ok []
  | arg :: args =>
    match arg.items? with
    | some items => do return items ++ (← joinItems m args)
    | none => do misuse Query.concat.name (.sequences (← m.print true arg))

/-- The elements of sequences in one list. -/
def join (m : Machine) (args : List Value) : Except Error Answer := do
  return .list (← joinItems m args)

/-- Adds values to a sequence: one by one to the front of a list, and to the end of a vector. -/
def conjoin : List Value → Except Error Answer
  | .list _ items :: new => .ok (.list (new.reverse ++ items))
  | .vector _ items :: new => .ok (.vector (items ++ new))
  | _ => misuse Query.conj.name .sequence

/-- The elements of a sequence or the characters of a string, and `nil` if there are none. -/
def elements (args : List Value) : Except Error Answer := do
  match ← one Query.seq.name args with
  | .nil => return .value .nil
  | .list _ items | .vector _ items => return ofItems items
  | .text s =>
    if Keyword.isKeyword s then misuse Query.seq.name .sequenceTextOrNil
    else return ofItems (s.toList.map fun c => .text (String.singleton c))
  | _ => misuse Query.seq.name .sequenceTextOrNil
where
  ofItems : List Value → Answer
    | [] => .value .nil
    | items => .list items

end AtomLisp.Sequences
