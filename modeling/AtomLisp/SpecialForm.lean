import AtomLisp.Expansion
import AtomLisp.Template

/-! # Special forms

  Forms that are not evaluated by calling a function: definitions, conditionals, functions, quoted
  forms, macros and handlers. Their shape is checked when they are evaluated.
-/

namespace AtomLisp

/-- The kinds of special forms. -/
inductive SpecialForm where
  | define
  | letStar
  | sequence
  | conditional
  | function
  | quote
  | quasiquote
  | quasiquoteExpand
  | defineMacro
  | expandMacro
  | handle
  deriving DecidableEq, Repr

namespace SpecialForm

/-- The symbol that a special form starts with. -/
def name : SpecialForm → String
  | define => "def!"
  | letStar => "let*"
  | sequence => "do"
  | conditional => "if"
  | function => "fn*"
  | quote => "quote"
  | quasiquote => "quasiquote"
  | quasiquoteExpand => "quasiquoteexpand"
  | defineMacro => "defmacro!"
  | expandMacro => "macroexpand"
  | handle => "try*"

/-- Every special form once. -/
def all : List SpecialForm := [define, letStar, sequence, conditional, function, quote, quasiquote,
  quasiquoteExpand, defineMacro, expandMacro, handle]

theorem mem_all (form : SpecialForm) : form ∈ all := by
  cases form <;> decide

/-- The special form that starts with a symbol. -/
def ofName? (name : String) : Option SpecialForm := all.find? (·.name == name)

/-! ### Shapes -/

/-- The form has not the right shape. -/
def misuse {α : Type} (form : SpecialForm) (why : Misuse) : Run α :=
  Run.fail (.invalidArguments form.name why)

/-- A form stands where a name should, and is shown in the message. -/
def unbindable {α : Type} (form : SpecialForm) (v : Value) : Run α := do
  form.misuse (.bound (← Run.read (·.inspect v)))

/-- The names of parameters. -/
def paramNames : List Value → Run (List String)
  | [] => pure []
  | .symbol name :: rest => do return name :: (← paramNames rest)
  | v :: _ => do function.misuse (.parameter (← Run.read (·.inspect v)))

/-- The body of a function, from any number of forms. -/
def body : List Value → Value
  | [] => .nil
  | [form] => form
  | forms => .form (.symbol sequence.name :: forms)

/-- The name and the handler of a clause. -/
def clause? : Value → Option (String × Value)
  | .list _ [.symbol keyword, .symbol name, handler] =>
    if keyword = "catch*" then some (name, handler) else none
  | _ => none

/-! ### Evaluation -/

variable (c : Caller)

/-- Binds a name in the frame. -/
def evalDefine (frame : FrameId) : List Value → Run Value
  | [.symbol name, form] => do
    let v ← c.value form frame
    Run.modify (·.define frame name v)
    return v
  | [v, _] => define.unbindable v
  | _ => define.misuse .nameAndValue

/-- Binds a macro made of a function in the frame. -/
def evalDefineMacro (frame : FrameId) : List Value → Run Value
  | [.symbol name, form] => do
    match ← c.value form frame with
    | .closure _ params body home _ =>
      let serial ← Run.newSerial
      let v := .closure serial params body home true
      Run.modify (·.define frame name v)
      return v
    | _ => defineMacro.misuse .macroBody
  | [v, _] => defineMacro.unbindable v
  | _ => defineMacro.misuse .nameAndFunction

/-- Binds names in turn, each to the value of the form after it. -/
def bindPairs (frame : FrameId) : List Value → Run Unit
  | .symbol name :: form :: rest => do
    -- The form already sees the names that were bound before it.
    let v ← c.value form frame
    Run.modify (·.define frame name v)
    bindPairs frame rest
  | v :: _ :: _ => letStar.unbindable v
  | _ => pure ()

/-- Evaluates forms in a new frame with bindings of its own. -/
def evalLet (tail : Bool) (frame : FrameId) : List Value → Run Step
  | [] => letStar.misuse .bindingList
  | bindings :: forms =>
    match bindings.items? with
    | none => letStar.misuse .bindingList
    | some items =>
      if items.length % 2 = 0 then do
        let frame ← Run.newFrame frame []
        bindPairs c frame items
        c.inner.sequence tail frame forms
      else letStar.misuse .bindingPairs

/-- Evaluates one of two forms. -/
def evalConditional (tail : Bool) (frame : FrameId) : List Value → Run Step
  | [condition, yes] => do
    if (← c.value condition frame).isTruthy then c.last tail yes frame
    else return .value .nil
  | [condition, yes, no] => do
    if (← c.value condition frame).isTruthy then c.last tail yes frame
    else c.last tail no frame
  | _ => conditional.misuse .conditional

/-- Makes a function. -/
def evalFunction (frame : FrameId) : List Value → Run Value
  | [] => function.misuse .parameterList
  | params :: forms =>
    match params.items? with
    | none => function.misuse .parameterList
    | some items => do
      let names ← paramNames items
      let serial ← Run.newSerial
      return .closure serial names (body forms) frame false

/-- Binds the value that a handler sees, and evaluates the handler. -/
def handleError (tail : Bool) (frame : FrameId) (name : String) (handler : Value) (e : Error) :
    Run Step :=
  match e.caught? with
  | none => Run.fail e
  | some v => do
    Run.modify (·.logCaught v)
    let frame ← Run.newFrame frame [(name, v)]
    c.last tail handler frame

/-- Evaluates a form, and a handler if the form stops with an error. -/
def evalHandle (tail : Bool) (frame : FrameId) : List Value → Run Step
  | [form] => c.last tail form frame
  | [form, clause] =>
    match clause? clause with
    | none => Run.fail (.invalidArguments "catch*" .clause)
    | some (name, handler) => do
      -- The form is in no tail position: its tail calls end before the handler is left.
      match ← (c.value form frame).attempt with
      | .ok v => return .value v
      | .error e => handleError c tail frame name handler e
  | _ => handle.misuse .bodyAndClause

/-- The only form of a special form that has one. -/
def only (form : SpecialForm) : List Value → Run Value
  | [v] => pure v
  | _ => form.misuse .oneArgument

/-- Makes the code of a template, which may not be nested too deeply. -/
def expandTemplate (template : Value) : Run Value := do
  if Template.depth template ≤ (← Run.get).host.limits.nesting then
    Template.expand template
  else Run.fail .tooDeep

/-- Evaluates a special form with the parts after its symbol. -/
def eval (tail : Bool) (frame : FrameId) (form : SpecialForm) (parts : List Value) : Run Step :=
  match form with
  | define => .value <$> evalDefine c frame parts
  | letStar => evalLet c tail frame parts
  | sequence => c.sequence tail frame parts
  | conditional => evalConditional c tail frame parts
  | function => .value <$> evalFunction frame parts
  | quote => .value <$> form.only parts
  | quasiquote => do c.last tail (← expandTemplate (← form.only parts)) frame
  | quasiquoteExpand => do return .value (← expandTemplate (← form.only parts))
  | defineMacro => .value <$> evalDefineMacro c frame parts
  | expandMacro => do return .value (← c.inner.expand frame c.rounds (← form.only parts))
  | handle => evalHandle c tail frame parts

end SpecialForm

end AtomLisp
