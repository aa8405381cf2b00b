import AtomLisp.Builtin.Arguments
import AtomLisp.Reader

/-! # Texts, files and thrown values

  Builtins between texts and values: printing to a text, names of symbols and keywords, reading a
  form from a text and a text from a file; and throwing a value.
-/

namespace AtomLisp.Texts

open Arguments Builtin

/-- The printed forms of the arguments in one text. -/
def printed (m : Machine) (readable : Bool) (separator : String) (args : List Value) :
    Except Error Answer := do
  return .value (.text (← m.printAll readable separator args))

/-- The symbol of a name. -/
def symbolOf (args : List Value) : Except Error Answer := do
  return .value (.symbol (← oneText Query.symbol.name args))

/-- The keyword of a name. -/
def keywordOf (args : List Value) : Except Error Answer := do
  return .value (.text (Keyword.ofName (← oneText Query.keyword.name args)))

/-- The first form of a text. -/
def formOf (m : Machine) (args : List Value) : Except Error Answer := do
  let text ← oneText Query.readString.name args
  return .form (← Reader.readFirst m.host.limits.nesting text)

/-- The text of a file. -/
def contentOf (m : Machine) (args : List Value) : Except Error Answer := do
  let name ← oneText Query.slurp.name args
  if name.toList.contains '\x00' then throw .nulInPath
  let path := Path.ofString name
  match m.host.files.readText path with
  | .ok text => return .value (.text text)
  | .error (.file fault) => throw (.unreadable fault path)
  | .error .undecodable => throw .undecodable

/-- Stops with a value. The value has to have an inspected form. -/
def throwValue (m : Machine) (args : List Value) : Except Error Answer := do
  let v ← one Query.throw.name args
  let _ ← m.inspect v
  throw (.thrown v)

end AtomLisp.Texts
