import AtomLisp.Text.Blank
import AtomLisp.Text.Digit

/-! # Numerals

  The text of integers. Integers are unbounded, their texts are not: a text of more than
  `Numeral.maxDigits` digits is neither written nor read.

  * `Numeral.write?` writes an integer in decimal;
  * `Numeral.isNumeral` says which words are numerals, and `Numeral.read?` reads them;
  * `Numeral.readSetting?` reads the looser form of a setting.
-/

namespace AtomLisp.Numeral

/-- The largest number of digits in the text of an integer. -/
def maxDigits : Nat := 4300

/-- The first natural number whose text is too long. -/
def bound : Nat := Nat.pow 10 maxDigits

/-- The decimal text of an integer; `none` when it would be too long. -/
def write? (i : Int) : Option String :=
  if i.natAbs < bound then some (toString i) else none

/-- The number that a run of digits stands for; other characters are passed over. -/
def value (cs : List Char) : Nat :=
  (cs.filterMap Text.digitValue?).foldl (fun n d => 10 * n + d) 0

/-- A numeral is one digit or more, of any script, after at most one minus sign. -/
def isNumeral : List Char → Bool
  | '-' :: cs => !cs.isEmpty && cs.all Text.isDigit
  | cs => !cs.isEmpty && cs.all Text.isDigit

/-- The integer that a numeral stands for; `none` when it has too many digits. -/
def read? : List Char → Option Int
  | '-' :: cs => if cs.length ≤ maxDigits then some (-(value cs : Int)) else none
  | cs => if cs.length ≤ maxDigits then some (value cs) else none

/-! ### Settings -/

/-- Digits with at most one underscore between any two of them. -/
def isGrouped : List Char → Bool
  | [] => false
  | [c] => Text.isDigit c
  | c :: '_' :: cs => Text.isDigit c && isGrouped cs
  | c :: cs => Text.isDigit c && isGrouped cs

/-- The blanks that may stand around the number of a setting: those of every script, without the
information separators. -/
def isSettingBlank (c : Char) : Bool :=
  Text.isBlank c && !(0x1c ≤ c.toNat && c.toNat ≤ 0x1f)

/-- The digits of an unsigned number, as a natural number. -/
def readGrouped? (cs : List Char) : Option Nat :=
  if isGrouped cs && (cs.filter Text.isDigit).length ≤ maxDigits then some (value cs) else none

/-- The integer in the text of a setting: blanks around it, a sign of either kind and underscores
between digits are allowed. -/
def readSetting? (s : String) : Option Int :=
  match Text.trimBoth isSettingBlank s.toList with
  | '-' :: cs => (readGrouped? cs).map fun n => -(n : Int)
  | '+' :: cs => (readGrouped? cs).map fun n => (n : Int)
  | cs => (readGrouped? cs).map fun n => (n : Int)

end AtomLisp.Numeral
