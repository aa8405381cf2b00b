import AtomLisp.Text.Uppercase

/-! # The journal

  What an interpreter reports about its work, line by line. Each line has a severity and a source;
  lines below the threshold are dropped. Until a threshold has been chosen, lines are written
  without their severity and source.
-/

namespace AtomLisp

/-- How much a line of the journal matters. -/
inductive Severity where
  | debug
  | warning
  deriving DecidableEq, Repr

namespace Severity

/-- The rank of a severity among the thresholds. -/
def rank : Severity → Nat
  | debug => 10
  | warning => 30

/-- The label in front of a line. -/
def label : Severity → String
  | debug => "DEBUG"
  | warning => "WARNING"

end Severity

/-- The part of the interpreter that a line comes from. -/
inductive Source where
  | session
  | expansion
  | handler
  deriving DecidableEq, Repr

/-- The name of a source in the journal. -/
def Source.label : Source → String
  | session => "mal.interpreter"
  | expansion => "mal.evaluation.macros"
  | handler => "mal.evaluation.special_forms.try_catch_form"

/-- Which lines are kept, and how they are written. -/
structure Journal where
  /-- The least rank of the lines that are kept. -/
  threshold : Nat
  /-- Are severity and source written in front of a line? -/
  labelled  : Bool
  deriving DecidableEq, Repr

namespace Journal

/-- The journal before a threshold has been chosen. -/
def unset : Journal := ⟨Severity.warning.rank, false⟩

/-- The names of the thresholds. -/
def thresholds : List (String × Nat) := [
  ("CRITICAL", 50), ("FATAL", 50), ("ERROR", 40), ("WARN", 30), ("WARNING", 30), ("INFO", 20),
  ("DEBUG", 10), ("NOTSET", 0)]

/-- The journal of a named threshold. -/
def ofName? (name : String) : Option Journal := (thresholds.lookup name).map (⟨·, true⟩)

/-- Are lines of this severity kept? -/
def keeps (journal : Journal) (severity : Severity) : Bool := journal.threshold ≤ severity.rank

/-- A line as it is written. -/
def line (journal : Journal) (severity : Severity) (source : Source) (message : String) : String :=
  if journal.labelled then s!"{severity.label}:{source.label}:{message}\n" else message ++ "\n"

end Journal

end AtomLisp
