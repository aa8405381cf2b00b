import AtomLisp.Entries.Table
import AtomLisp.Error

/-! # Equality of values

  Lists and vectors are equal when their elements are, hash-maps when they have the same keys with
  equal values. Everything else is equal to itself only: texts and symbols by their spelling, atoms
  by their cell, closures by their making.

  A value that is the same as another in everything is equal to it without a look inside. Otherwise
  parts are compared one after another, up to the first pair that differs, and they may not be
  nested too deeply.
-/

namespace AtomLisp.Value

/-- Do the pairs of two lists of equal length satisfy a test, up to the first that does not? -/
def allPairs (test : Value → Value → Except Error Bool) :
    List Value → List Value → Except Error Bool
  | x :: xs, y :: ys => do if ← test x y then allPairs test xs ys else return false
  | _, _ => return true

/-- Does every entry satisfy a test with the value that `others` has for its key? -/
def allEntries (test : Value → Value → Except Error Bool) (others : Entries.Index Value) :
    Entries Value → Except Error Bool
  | [] => return true
  | (k, x) :: rest =>
    match others.lookup k with
    | none => return false
    | some y => do if ← test x y then allEntries test others rest else return false

/-- Have two maps the same keys? -/
def sameKeys (xs ys : Entries Value) : Bool :=
  let left := Entries.Index.ofEntries xs
  let right := Entries.Index.ofEntries ys
  xs.all (fun x => (right.lookup x.1).isSome) && ys.all (fun y => (left.lookup y.1).isSome)

/-- Are two values equal? They may be `steps` deep: a collection takes three steps. -/
def equal : (steps : Nat) → Value → Value → Except Error Bool
  | 0, _, _ => .error .tooDeep
  | steps + 1, a, b =>
    if a = b then .ok true
    else
      match a, b with
      | .list _ xs, .list _ ys | .list _ xs, .vector _ ys
      | .vector _ xs, .list _ ys | .vector _ xs, .vector _ ys =>
        if xs.length = ys.length then allPairs (within steps) xs ys else .ok false
      | .map _ xs, .map _ ys =>
        if sameKeys xs ys then allEntries (within steps) (.ofEntries ys) xs else .ok false
      | _, _ => .ok false
where
  /-- The comparison of the parts of a collection. -/
  within : (steps : Nat) → Value → Value → Except Error Bool
    | steps + 2 => equal steps
    | _ => fun _ _ => .error .tooDeep

end AtomLisp.Value
