import AtomLisp.Builtin
import AtomLisp.Entries
import AtomLisp.Keyword

/-! # Values

  Programs are values and work on values: a form that was read and a value that was computed are of
  one type.

  ## Identity

  A collection that a running program builds is an object of its own, and so is a closure. Both
  carry the *serial number* of their making, which no two of them share. A collection that is only
  written down (read from a text, or made of a form) has the serial number 0, until a program gets
  hold of it. The serial number matters where a value is equal to itself without a look inside,
  however deep it is, and where a hash-map is met inside itself.
-/

namespace AtomLisp

/-- The position of a frame in the machine. -/
abbrev FrameId := Nat

/-- The position of the cell of an atom in the machine. -/
abbrev CellId := Nat

/-- Tells apart the collections and closures that were made at run time. -/
abbrev Serial := Nat

/-- A value, or a form: the two are one. -/
inductive Value where
  | nil
  | bool (b : Bool)
  | int (i : Int)
  /-- A string or a keyword; keywords start with `Keyword.mark`. -/
  | text (s : String)
  | symbol (name : String)
  | list (serial : Serial) (items : List Value)
  | vector (serial : Serial) (items : List Value)
  /-- A hash-map: its keys are strings and keywords, in order of first insertion. -/
  | map (serial : Serial) (entries : List (String × Value))
  /-- A mutable cell, known by its place. -/
  | atom (cell : CellId)
  | builtin (b : Builtin)
  /-- A function or macro of the program, with the frame that it was made in. -/
  | closure (serial : Serial) (params : List String) (body : Value) (frame : FrameId)
      (isMacro : Bool)
  deriving Inhabited, Repr

namespace Value

/-! ### Forms -/

/-- A list that was written down. -/
@[match_pattern] abbrev form (items : List Value) : Value := .list 0 items

/-! ### Tests -/

/-- Everything but `nil` and `false` counts as true. -/
def isTruthy : Value → Bool
  | .nil | .bool false => false
  | _ => true

/-- Is the value an integer? -/
def isNumber : Value → Bool
  | .int _ => true
  | _ => false

/-- Is the value a text that is no keyword? -/
def isString : Value → Bool
  | .text s => !Keyword.isKeyword s
  | _ => false

/-- Is the value a keyword? -/
def isKeyword : Value → Bool
  | .text s => Keyword.isKeyword s
  | _ => false

/-- The elements of a list or vector. -/
def items? : Value → Option (List Value)
  | .list _ items | .vector _ items => some items
  | _ => none

/-- Lists and vectors are the sequences. -/
def isSequential (v : Value) : Bool := v.items?.isSome

/-- Can the value be called? Macros are functions here. -/
def isFunction : Value → Bool
  | .builtin _ | .closure .. => true
  | _ => false

/-- Is the value a macro? -/
def isMacro : Value → Bool
  | .closure _ _ _ _ isMacro => isMacro
  | _ => false

/-! ### Sameness

Two values are the same when they agree in everything, serial numbers included. A value is seen to
be the same as itself without a look inside. That matters where a value holds its parts many times
over: it can have more parts than could ever be visited one by one. -/

/-- Decides a conjunction; the second part is only looked at if the first one holds. -/
def decideAnd {p q r : Prop} (first : Decidable p) (second : Unit → Decidable q)
    (h : r ↔ p ∧ q) : Decidable r :=
  match first with
  | isFalse hp => isFalse fun hr => hp (h.1 hr).1
  | isTrue hp =>
    match second () with
    | isTrue hq => isTrue (h.2 ⟨hp, hq⟩)
    | isFalse hq => isFalse fun hr => hq (h.1 hr).2

mutual

/-- Are two values the same? -/
def decEq (a b : Value) : Decidable (a = b) :=
  withPtrEqDecEq a b fun _ => by
    cases a <;> cases b
    case nil.nil => exact isTrue rfl
    case bool.bool x y => exact decidable_of_iff (x = y) (by simp)
    case int.int x y => exact decidable_of_iff (x = y) (by simp)
    case text.text x y => exact decidable_of_iff (x = y) (by simp)
    case symbol.symbol x y => exact decidable_of_iff (x = y) (by simp)
    case list.list s xs t ys =>
      exact decideAnd (Nat.decEq s t) (fun _ => decEqAll xs ys) (by simp)
    case vector.vector s xs t ys =>
      exact decideAnd (Nat.decEq s t) (fun _ => decEqAll xs ys) (by simp)
    case map.map s xs t ys =>
      exact decideAnd (Nat.decEq s t) (fun _ => decEqEntries xs ys) (by simp)
    case atom.atom x y => exact decidable_of_iff (x = y) (by simp)
    case builtin.builtin x y => exact decidable_of_iff (x = y) (by simp)
    case closure.closure s ps x f m t qs y g n =>
      exact decideAnd (p := s = t ∧ ps = qs ∧ f = g ∧ m = n) inferInstance
        (fun _ => decEq x y) (by simp; grind)
    all_goals exact isFalse nofun
termination_by structural a

/-- Are two lists of values the same? -/
def decEqAll (xs ys : List Value) : Decidable (xs = ys) :=
  match xs, ys with
  | [], [] => isTrue rfl
  | x :: xs, y :: ys => decideAnd (decEq x y) (fun _ => decEqAll xs ys) (by simp)
  | [], _ :: _ => isFalse nofun
  | _ :: _, [] => isFalse nofun
termination_by structural xs

/-- Are two lists of entries the same? -/
def decEqEntries (xs ys : List (String × Value)) : Decidable (xs = ys) :=
  match xs, ys with
  | [], [] => isTrue rfl
  | (k, x) :: xs, (l, y) :: ys =>
    decideAnd (decideAnd (instDecidableEqString k l) (fun _ => decEq x y) Iff.rfl)
      (fun _ => decEqEntries xs ys) (by simp)
  | [], _ :: _ => isFalse nofun
  | _ :: _, [] => isFalse nofun
termination_by structural xs

end

instance : DecidableEq Value := decEq

end Value

/-! ### Cells -/

/-- The contents of the atoms, each at the place of its cell. -/
abbrev Cells := Array Value

/-- What a cell holds. Atoms are only made together with their cells, so there is one. -/
def Cells.content (cells : Cells) (cell : CellId) : Value := cells[cell]?.getD .nil

end AtomLisp
