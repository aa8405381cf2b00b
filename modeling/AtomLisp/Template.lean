import AtomLisp.Run

/-! # Templates

  A quasiquoted form is a template: it stands for itself, except for the parts marked *unquote*,
  which stand for the value of an expression, and the elements marked *splice-unquote*, which stand
  for the elements of a value. `Template.expand` turns a template into code that builds its value
  with `cons`, `concat` and `vec`, and `Template.depth` says how deep it is nested.

  The code is made anew each time, with serial numbers of its own: a program that has its own idea
  of `cons` may get hold of it.
-/

namespace AtomLisp.Template

/-- The expression in a list of two elements, the first of which is the symbol `head`. -/
def marked? (head : String) : Value → Option Value
  | .list _ [.symbol name, x] => if name = head then some x else none
  | _ => none

mutual

/-- Makes the code that builds the value of a template. -/
def expand : Value → Run Value
  | .list s items =>
    match marked? "unquote" (.list s items) with
    | some x => pure x
    | none => expandItems items
  | .vector _ items => do Run.newList [.symbol "vec", ← expandItems items]
  | .symbol name => Run.newList [.symbol "quote", .symbol name]
  | .map s entries => Run.newList [.symbol "quote", .map s entries]
  | v => pure v
termination_by structural v => v

/-- Makes the code that builds the list of the elements of a template. -/
def expandItems : List Value → Run Value
  | [] => pure (.form [])
  | item :: items => do
    let rest ← expandItems items
    match marked? "splice-unquote" item with
    | some x => Run.newList [.symbol "concat", x, rest]
    | none => Run.newList [.symbol "cons", ← expand item, rest]
termination_by structural vs => vs

end

/-! ### Depth -/

mutual

/-- How many steps deep a template is nested: a list or vector takes two steps, and everything
else one. The marked expressions do not count. -/
def depth : Value → Nat
  | .list s items =>
    match marked? "unquote" (.list s items) with
    | some _ => 1
    | none => depthOfItems items + 2
  | .vector _ items => depthOfItems items + 2
  | _ => 1
termination_by structural v => v

/-- The depth of the deepest of the elements of a template. -/
def depthOfItems : List Value → Nat
  | [] => 0
  | item :: items =>
    match marked? "splice-unquote" item with
    | some _ => depthOfItems items
    | none => max (depth item) (depthOfItems items)
termination_by structural vs => vs

end

end AtomLisp.Template
