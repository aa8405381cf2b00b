import AtomLisp.Files
import AtomLisp.Input
import AtomLisp.Value

/-! # Errors

  Why reading, printing or evaluating stops. An error names its cause; `Error.message?` puts it
  into words. Most errors can be caught by the program, and `Error.caught?` is the value that a
  handler then sees. The five that cannot are those of `Error.isFatal`.
-/

namespace AtomLisp

/-! ### Arguments that do not fit -/

/-- What is wrong with the arguments of a call or with the parts of a special form. -/
inductive Misuse where
  | count (wanted got : Nat)
  | atLeast (wanted got : Nat)
  | oneRestName
  | twoOrMoreNumbers
  | twoNumbers
  | sequence
  | sequenceOrNil
  | sequenceAndNumber
  | sequenceTail
  | sequences (shown : String)
  | sequenceTextOrNil
  | functionAndSequence
  | pairs
  | mapKey (shown : String)
  | hashMap
  | keys
  | key
  | hashMapOrNil
  | hashMapAndKey
  | atom
  | atomAndFunction
  | function
  | string
  | functionAndArguments
  | nameAndValue
  | nameAndFunction
  | bound (shown : String)
  | macroBody
  | bindingList
  | bindingPairs
  | conditional
  | parameterList
  | parameter (shown : String)
  | oneArgument
  | bodyAndClause
  | clause
  deriving DecidableEq, Repr

/-- What was expected, in words. -/
def Misuse.message : Misuse → String
  | count wanted got => s!"expected {wanted} argument(s), got {got}"
  | atLeast wanted got => s!"expected at least {wanted} argument(s), got {got}"
  | oneRestName => "'&' must be followed by exactly one name"
  | twoOrMoreNumbers => "expected 2 or more numbers"
  | twoNumbers => "expected 2 numbers"
  | sequence => "expected a list or vector"
  | sequenceOrNil => "expected a list, vector or nil"
  | sequenceAndNumber => "expected a sequence and a number"
  | sequenceTail => "second argument must be a list or vector"
  | sequences shown => s!"expected lists or vectors, got {shown}"
  | sequenceTextOrNil => "expected a list, vector, string or nil"
  | functionAndSequence => "expected a function and a sequence"
  | pairs => "expected key/value pairs"
  | mapKey shown => s!"map keys must be strings or keywords, got {shown}"
  | hashMap => "expected a hash-map"
  | keys => "keys must be strings or keywords"
  | key => "key must be a string or keyword"
  | hashMapOrNil => "expected a hash-map or nil"
  | hashMapAndKey => "expected a hash-map and a string key"
  | atom => "expected an atom"
  | atomAndFunction => "expected an atom and a function"
  | function => "expected a function"
  | string => "expected a string"
  | functionAndArguments => "expected a function and an argument sequence"
  | nameAndValue => "expected a name and a value"
  | nameAndFunction => "expected a name and a function"
  | bound shown => s!"cannot bind {shown}"
  | macroBody => "macro body must be a fn*"
  | bindingList => "expected a binding list"
  | bindingPairs => "bindings must come in name/value pairs"
  | conditional => "expected a condition, a then-expression and an optional else"
  | parameterList => "expected a parameter list"
  | parameter shown => s!"parameter must be a Symbol, got {shown}"
  | oneArgument => "expected exactly 1 argument"
  | bodyAndClause => "expected a body and an optional catch* clause"
  | clause => "expected (catch* name handler)"

/-! ### Texts that do not read -/

/-- What is wrong with a text that does not read. -/
inductive SyntaxFault where
  /-- The separators that end the text, from `position` on, are not all of the plain kind. -/
  | strayBlank (position : Nat) (c : Char)
  | unclosedText
  | markedText
  | endOfText
  | unexpectedCloser (got : Char)
  | unclosed (closer : Char)
  | mismatched (closer got : Char)
  | oddMap
  | mapKey (shown : String)
  deriving DecidableEq, Repr

/-- The fault in words. -/
def SyntaxFault.message : SyntaxFault → String
  | strayBlank position c =>
    s!"Unexpected char at {position}: {Text.quoted (String.singleton c)}"
  | unclosedText => "expected '\"', got EOF"
  | markedText =>
    s!"string literal may not start with {Text.quoted (String.singleton Keyword.mark)}"
  | endOfText => "unexpected EOF"
  | unexpectedCloser got => s!"unexpected '{got}'"
  | unclosed closer => s!"expected '{closer}', got EOF"
  | mismatched closer got => s!"expected '{closer}', got '{got}'"
  | oddMap => "map literal requires an even number of forms"
  | mapKey shown => s!"map keys must be strings or keywords, got {shown}"

/-! ### Errors -/

/-- Why a program stops. -/
inductive Error where
  | invalidArguments (callee : String) (misuse : Misuse)
  | outOfRange (index : Int) (length : Nat)
  | unbound (name : String)
  | invalidSymbol (shown : String)
  | malformed (fault : SyntaxFault)
  | divisionByZero
  | notCallable (shown : String)
  | unreadable (fault : FileFault) (path : Path)
  /-- The program threw a value. -/
  | thrown (value : Value)
  /-- Calls, or the parts of a value, are nested too deeply. -/
  | tooDeep
  /-- The text of an integer has too many digits. -/
  | numeralTooLong
  /-- The path of a file holds the character NUL. -/
  | nulInPath
  /-- A file holds bytes that are no UTF-8. -/
  | undecodable
  /-- A line of the input meets a piece that cannot be read. -/
  | badInput (fault : InputFault)
  /-- The file of the prelude is there but cannot be read. -/
  | preludeUnreadable (fault : FileFault)
  deriving DecidableEq

namespace Error

/-- What an exhausted depth is reported as. -/
def tooDeepMessage : String := "maximum recursion depth exceeded"

/-- The error in words. A thrown value is reported by its printed form, and the fatal errors have
no words. -/
def message? : Error → Option String
  | invalidArguments callee misuse => some s!"invalid arguments: {callee}: {misuse.message}"
  | outOfRange index length => some s!"index {index} out of range for sequence of length {length}"
  | unbound name => some s!"'{name}' not found"
  | invalidSymbol shown => some s!"Cannot define {shown} as a symbol"
  | malformed fault => some fault.message
  | divisionByZero => some "division by zero"
  | notCallable shown => some s!"{shown} is not a function"
  | unreadable fault path => some s!"slurp: {fault.message path}"
  | tooDeep => some tooDeepMessage
  | thrown _ | numeralTooLong | nulInPath | undecodable | badInput _ | preludeUnreadable _ => none

/-- The value that a handler sees: the value that was thrown, or the message of the error. A fatal
error reaches no handler. -/
def caught? : Error → Option Value
  | thrown value => some value
  | e => e.message?.map .text

/-- Errors that no handler catches. -/
def isFatal (e : Error) : Bool := e.caught?.isNone

end Error

end AtomLisp
