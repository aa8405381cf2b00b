import AtomLisp.Entries.Table
import AtomLisp.Token.Lexer
import AtomLisp.Value.Inspected

/-! # Reading forms

  Forms are read token by token. What has been opened and not yet closed waits on a stack: brackets
  with the forms so far, and quote marks that want a form. A form that is complete goes to the top
  of the stack, and if nothing waits there, out to the reader's caller.

  * `Reader.push` takes one token;
  * `Reader.run` takes all tokens, and gives the forms that are complete with the fault that ends
    the reading, if there is one;
  * `Reader.readAll` and `Reader.readFirst` read a text.
-/

namespace AtomLisp

/-- What has been opened and waits for more, and how many steps deep its contents are. -/
inductive Pending where
  /-- A quote mark waits for its form. -/
  | mark (depth : Nat) (mark : QuoteMark)
  /-- A bracket waits for its closing; the forms so far come last first. -/
  | bracket (depth : Nat) (bracket : Bracket) (items : List Value)

namespace Reader

/-! ### Words -/

/-- The value of a word: a number, a constant, a keyword or else a symbol. -/
def word (cs : List Char) : Except Error Value :=
  if Numeral.isNumeral cs then
    match Numeral.read? cs with
    | some i => .ok (.int i)
    | none => .error .numeralTooLong
  else
    match String.ofList cs with
    | "nil" => .ok .nil
    | "true" => .ok (.bool true)
    | "false" => .ok (.bool false)
    | s =>
      match cs with
      | ':' :: name => .ok (.text (Keyword.ofName (String.ofList name)))
      | _ => .ok (.symbol s)

/-! ### Brackets -/

/-- The entries of a hash-map, from the keys and values in turn. -/
def mapEntries (nesting : Nat) : List Value → Except Error (List (String × Value))
  | [] => .ok []
  | .text k :: v :: rest => do return (k, v) :: (← mapEntries nesting rest)
  | k :: _ :: _ => do throw (.malformed (.mapKey (← k.inspect #[] nesting)))
  | [_] => .error (.malformed .oddMap)

/-- The form of a pair of brackets. -/
def enclose (nesting : Nat) (items : List Value) : Bracket → Except Error Value
  | .round => .ok (.list 0 items)
  | .square => .ok (.vector 0 items)
  | .curly =>
    if items.length % 2 = 0 then do
      return .map 0 (Entries.insertMany [] (← mapEntries nesting items))
    else .error (.malformed .oddMap)

/-! ### Tokens -/

/-- Where a complete form goes: the rest of the stack, and the form if nothing waits for it. -/
def complete (form : Value) : List Pending → List Pending × Option Value
  | [] => ([], some form)
  | .mark _ m :: stack => complete (.form [.symbol m.symbol, form]) stack
  | .bracket depth b items :: stack => (.bracket depth b (form :: items) :: stack, none)

/-- How many steps deep the next form is nested. -/
def depth : List Pending → Nat
  | [] => 0
  | .mark depth _ :: _ | .bracket depth _ _ :: _ => depth

/-- Opens a bracket or quote mark that takes some steps, if its contents are not too deep. -/
def open? (nesting steps : Nat) (pending : Nat → Pending) (stack : List Pending) :
    Except Error (List Pending × Option Value) :=
  let inner := depth stack + steps
  if inner < nesting then .ok (pending inner :: stack, none) else .error .tooDeep

/-- Takes one token: the new stack, and the form that it completes, if any. A quote mark takes one
step and a bracket two. -/
def push (nesting : Nat) (stack : List Pending) :
    Token → Except Error (List Pending × Option Value)
  | .mark m => open? nesting 1 (.mark · m) stack
  | .opener b => open? nesting 2 (.bracket · b []) stack
  | .closer b =>
    match stack with
    | .bracket _ b' items :: stack =>
      if b = b' then do return complete (← enclose nesting items.reverse b) stack
      else .error (.malformed (.mismatched b'.closing b.closing))
    | _ => .error (.malformed (.unexpectedCloser b.closing))
  | .text body =>
    match Literal.decode body with
    | .ok s => .ok (complete (.text s) stack)
    | .error fault => .error (.malformed fault)
  | .word cs => do return complete (← word cs) stack

/-- What is wrong when the tokens end. -/
def atEnd (fault : Option SyntaxFault) (stack : List Pending) : Option Error :=
  match fault, stack with
  | some fault, _ => some (.malformed fault)
  | none, [] => none
  | none, .mark _ _ :: _ => some (.malformed .endOfText)
  | none, .bracket _ b _ :: _ => some (.malformed (.unclosed b.closing))

/-- Takes all tokens: the complete forms, and why there are no more. -/
def run (nesting : Nat) (fault : Option SyntaxFault) (stack : List Pending) :
    List Token → List Value × Option Error
  | [] => ([], atEnd fault stack)
  | token :: tokens =>
    match push nesting stack token with
    | .error e => ([], some e)
    | .ok (stack, form?) =>
      let r := run nesting fault stack tokens
      (form?.toList ++ r.1, r.2)

/-! ### Texts -/

/-- The forms of a text up to the first fault, and the fault. -/
def readAll (nesting : Nat) (s : String) : List Value × Option Error :=
  let r := Token.ofText s
  run nesting r.2 [] r.1

/-- The first form of a text, and `nil` if it has none. What follows the form is not looked at. -/
def readFirst (nesting : Nat) (s : String) : Except Error Value :=
  match readAll nesting s with
  | (form :: _, _) => .ok form
  | ([], some e) => .error e
  | ([], none) => .ok .nil

end Reader

end AtomLisp
