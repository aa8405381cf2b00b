/-! # The builtin functions

  Which functions the language comes with, and what each is called. What they do is said in the
  modules under `Builtin` and in `Call`.

  * a `Builtin.Query` looks at its arguments and at the machine, and changes nothing;
  * a `Builtin.Action` changes the machine, or calls other functions.
-/

namespace AtomLisp

namespace Builtin

/-- A builtin that only looks. -/
inductive Query where
  | add | sub | mul | div | lt | le | gt | ge | equal
  | prStr | str
  | list | isList | vector | isVector | vec | isEmpty | count | first | rest | nth
  | cons | concat | conj | seq | isSequential
  | hashMap | isMap | assoc | dissoc | get | contains | keys | vals
  | isAtom | deref
  | isNil | isTrue | isFalse | isSymbol | symbol | keyword | isKeyword | isString | isNumber
  | isFn | isMacro
  | readString | slurp | throw | timeMs
  deriving DecidableEq, Repr

/-- A builtin that does something. -/
inductive Action where
  | prn | println | readline
  | atom | reset | swap
  | map | apply | eval
  deriving DecidableEq, Repr

namespace Query

/-- The name that a query is bound to. -/
def name : Query → String
  | add => "+" | sub => "-" | mul => "*" | div => "/"
  | lt => "<" | le => "<=" | gt => ">" | ge => ">=" | equal => "="
  | prStr => "pr-str" | str => "str"
  | list => "list" | isList => "list?" | vector => "vector" | isVector => "vector?"
  | vec => "vec" | isEmpty => "empty?" | count => "count" | first => "first" | rest => "rest"
  | nth => "nth" | cons => "cons" | concat => "concat" | conj => "conj" | seq => "seq"
  | isSequential => "sequential?"
  | hashMap => "hash-map" | isMap => "map?" | assoc => "assoc" | dissoc => "dissoc"
  | get => "get" | contains => "contains?" | keys => "keys" | vals => "vals"
  | isAtom => "atom?" | deref => "deref"
  | isNil => "nil?" | isTrue => "true?" | isFalse => "false?" | isSymbol => "symbol?"
  | symbol => "symbol" | keyword => "keyword" | isKeyword => "keyword?"
  | isString => "string?" | isNumber => "number?" | isFn => "fn?" | isMacro => "macro?"
  | readString => "read-string" | slurp => "slurp" | throw => "throw" | timeMs => "time-ms"

/-- Every query once. -/
def all : List Query := [
  add, sub, mul, div, lt, le, gt, ge, equal, prStr, str,
  list, isList, vector, isVector, vec, isEmpty, count, first, rest, nth,
  cons, concat, conj, seq, isSequential,
  hashMap, isMap, assoc, dissoc, get, contains, keys, vals, isAtom, deref,
  isNil, isTrue, isFalse, isSymbol, symbol, keyword, isKeyword, isString, isNumber, isFn, isMacro,
  readString, slurp, throw, timeMs]

theorem mem_all (q : Query) : q ∈ all := by
  cases q <;> decide

end Query

namespace Action

/-- The name that an action is bound to. -/
def name : Action → String
  | prn => "prn" | println => "println" | readline => "readline"
  | atom => "atom" | reset => "reset!" | swap => "swap!"
  | map => "map" | apply => "apply" | eval => "eval"

/-- Every action once. -/
def all : List Action := [prn, println, readline, atom, reset, swap, map, apply, eval]

theorem mem_all (a : Action) : a ∈ all := by
  cases a <;> decide

end Action

end Builtin

/-- A function that comes with the language. -/
inductive Builtin where
  | query (query : Builtin.Query)
  | action (action : Builtin.Action)
  deriving DecidableEq, Repr

namespace Builtin

/-- The name that a builtin is bound to. -/
def name : Builtin → String
  | query q => q.name
  | action a => a.name

/-- Every builtin once, in the order in which a root frame binds them. -/
def all : List Builtin := Query.all.map .query ++ Action.all.map .action

theorem mem_all (b : Builtin) : b ∈ all := by
  cases b with
  | query q => simp [all, Query.mem_all]
  | action a => simp [all, Action.mem_all]

/-- The builtin of a name. -/
def ofName? (name : String) : Option Builtin := all.find? (·.name == name)

end Builtin

end AtomLisp
