import AtomLisp.Builtin.Arguments
import AtomLisp.Entries.Table

/-! # Hash-maps

  Builders and observers of hash-maps. A map keeps its keys in the order in which they first came:
  a key that is written again keeps its place, and its last value counts.
-/

namespace AtomLisp.HashMaps

open Arguments Builtin

/-- Keys and values in turn, an even number of them; the first key that is neither string nor
keyword is shown in the message. -/
def keyValues (callee : String) (m : Machine) : List Value → Except Error (List (String × Value))
  | .text k :: v :: rest => do return (k, v) :: (← keyValues callee m rest)
  | k :: _ :: _ => do misuse callee (.mapKey (← m.print true k))
  | _ => .ok []

/-- The pairs of keys and values in a list of arguments. -/
def pairs (callee : String) (m : Machine) (args : List Value) :
    Except Error (List (String × Value)) :=
  if args.length % 2 = 0 then keyValues callee m args else misuse callee .pairs

/-- The map that comes first among the arguments, and the other arguments. -/
def mapFirst (callee : String) : List Value → Except Error (Entries Value × List Value)
  | .map _ entries :: args => .ok (entries, args)
  | _ => misuse callee .hashMap

/-- A map of keys and values. -/
def newMap (m : Machine) (args : List Value) : Except Error Answer := do
  return .map (Entries.insertMany [] (← pairs Query.hashMap.name m args))

/-- A map with further keys and values. -/
def extend (m : Machine) (args : List Value) : Except Error Answer := do
  let (entries, args) ← mapFirst Query.assoc.name args
  return .map (Entries.insertMany entries (← pairs Query.assoc.name m args))

/-- The keys in a list of values, if it holds nothing else. -/
def texts? : List Value → Option (List String)
  | [] => some []
  | .text s :: args => (texts? args).map (s :: ·)
  | _ :: _ => none

/-- A map without some of its keys. -/
def without (args : List Value) : Except Error Answer := do
  let (entries, args) ← mapFirst Query.dissoc.name args
  match texts? args with
  | some keys => return .map (Entries.eraseMany entries keys)
  | none => misuse Query.dissoc.name .keys

/-- The value of a key, or `nil` if there is none; `nil` counts as an empty map. -/
def valueOf (args : List Value) : Except Error Answer := do
  match ← two Query.get.name args with
  | (v, .text key) =>
    match v with
    | .nil => return .value .nil
    | .map _ entries => return .value ((entries.lookup key).getD .nil)
    | _ => misuse Query.get.name .hashMapOrNil
  | _ => misuse Query.get.name .key

/-- Has a map a key? -/
def hasKey (args : List Value) : Except Error Answer := do
  match ← two Query.contains.name args with
  | (.map _ entries, .text key) => return .ofBool (Entries.contains entries key)
  | _ => misuse Query.contains.name .hashMapAndKey

/-- The entries of the only argument, a map. -/
def onlyMap (callee : String) (args : List Value) : Except Error (Entries Value) := do
  match ← one callee args with
  | .map _ entries => return entries
  | _ => misuse callee .hashMap

/-- The keys of a map, in order. -/
def keysOf (args : List Value) : Except Error Answer := do
  return .list ((Entries.keys (← onlyMap Query.keys.name args)).map .text)

/-- The values of a map, in the order of their keys. -/
def valuesOf (args : List Value) : Except Error Answer := do
  return .list (Entries.vals (← onlyMap Query.vals.name args))

end AtomLisp.HashMaps
