import AtomLisp.Builtin.Arithmetic
import AtomLisp.Builtin.HashMaps
import AtomLisp.Builtin.Sequences
import AtomLisp.Builtin.Texts

/-! # What queries answer

  The answer of each builtin that only looks at its arguments and at the machine.
-/

namespace AtomLisp.Builtin

open Arguments

/-- Are two values equal? -/
def areEqual (m : Machine) (args : List Value) : Except Error Answer := do
  let (v, w) ← two Query.equal.name args
  return .ofBool (← v.equal m.host.limits.nesting w)

/-- The content of an atom. -/
def cellContent (m : Machine) (args : List Value) : Except Error Answer := do
  match ← one Query.deref.name args with
  | .atom cell => return .value (m.cells.content cell)
  | _ => misuse Query.deref.name .atom

/-- The time. -/
def clockTime (args : List Value) : Except Error Answer := do
  zero Query.timeMs.name args
  return .time

/-- How many elements the only argument has. -/
def sizeOf (args : List Value) : Except Error Answer := do
  return .value (.int (Sequences.countOf (← one Query.count.name args)))

/-- What a query answers. -/
def Query.answer (q : Query) (m : Machine) (args : List Value) : Except Error Answer :=
  match q with
  | .add => Arithmetic.fold q.name (· + ·) args
  | .sub => Arithmetic.fold q.name (· - ·) args
  | .mul => Arithmetic.fold q.name (· * ·) args
  | .div => Arithmetic.divide args
  | .lt => Arithmetic.compare q.name (fun i j => i < j) args
  | .le => Arithmetic.compare q.name (fun i j => i ≤ j) args
  | .gt => Arithmetic.compare q.name (fun i j => i > j) args
  | .ge => Arithmetic.compare q.name (fun i j => i ≥ j) args
  | .equal => areEqual m args
  | .prStr => Texts.printed m true " " args
  | .str => Texts.printed m false "" args
  | .list => .ok (.list args)
  | .vector => .ok (.vector args)
  | .vec => Sequences.toVector args
  | .count => sizeOf args
  | .first => Sequences.firstOf args
  | .rest => Sequences.restOf args
  | .nth => Sequences.elementAt args
  | .cons => Sequences.prepend args
  | .concat => Sequences.join m args
  | .conj => Sequences.conjoin args
  | .seq => Sequences.elements args
  | .hashMap => HashMaps.newMap m args
  | .assoc => HashMaps.extend m args
  | .dissoc => HashMaps.without args
  | .get => HashMaps.valueOf args
  | .contains => HashMaps.hasKey args
  | .keys => HashMaps.keysOf args
  | .vals => HashMaps.valuesOf args
  | .deref => cellContent m args
  | .isList => test q.name (· matches .list ..) args
  | .isVector => test q.name (· matches .vector ..) args
  | .isMap => test q.name (· matches .map ..) args
  | .isAtom => test q.name (· matches .atom _) args
  | .isNil => test q.name (· matches .nil) args
  | .isTrue => test q.name (· matches .bool true) args
  | .isFalse => test q.name (· matches .bool false) args
  | .isSymbol => test q.name (· matches .symbol _) args
  | .isKeyword => test q.name Value.isKeyword args
  | .isString => test q.name Value.isString args
  | .isNumber => test q.name Value.isNumber args
  | .isSequential => test q.name Value.isSequential args
  | .isFn => test q.name (fun v => v.isFunction && !v.isMacro) args
  | .isMacro => test q.name Value.isMacro args
  | .isEmpty => test q.name (fun v => v.items? == some []) args
  | .symbol => Texts.symbolOf args
  | .keyword => Texts.keywordOf args
  | .readString => Texts.formOf m args
  | .slurp => Texts.contentOf m args
  | .throw => Texts.throwValue m args
  | .timeMs => clockTime args

end AtomLisp.Builtin
