/-! # Limits of nesting

  How deep a program may nest its calls, and how deep the parts of a value may be nested that is
  read, printed or compared. Depth is counted in steps, and the kinds of nesting take different
  numbers of them.
-/

namespace AtomLisp

/-- The two limits of nesting. -/
structure Limits where
  /-- How many steps evaluation may be deep; `none` sets no limit. -/
  calls   : Option Nat
  /-- How many steps the parts of a value may be deep. -/
  nesting : Nat
  deriving DecidableEq, Repr

namespace Limits

/-- The limits of a setting. -/
def ofSteps (steps : Nat) : Limits := ⟨some steps, steps⟩

/-- The steps that are always granted. -/
def leastSteps : Nat := 1000

/-- The limits that hold when nothing is set. -/
def least : Limits := ofSteps leastSteps

/-- May evaluation go on at this level? -/
def allows (limits : Limits) (level : Nat) : Bool :=
  match limits.calls with
  | none => true
  | some most => level < most

theorem allows_of_le {limits : Limits} {level deeper : Nat} (h : limits.allows deeper = true)
    (hle : level ≤ deeper) : limits.allows level = true := by
  unfold allows at h ⊢
  cases hcalls : limits.calls with
  | none => rfl
  | some most =>
    simp only [hcalls, decide_eq_true_eq] at h ⊢
    omega

end Limits

/-! ### The steps of evaluation -/

namespace Steps

/-- From a call to the form in front. -/
def head : Nat := 1

/-- From a form to one of its parts. -/
def part : Nat := 2

/-- From a vector to an element. -/
def element : Nat := 3

/-- From a call to the body of the function. -/
def body : Nat := 3

/-- From a call to a body that is evaluated in the place of another one. -/
def again : Nat := 4

/-- From a builtin to a call that it makes. -/
def call : Nat := 3

end Steps

end AtomLisp
