import AtomLisp.Frames
import AtomLisp.Input
import AtomLisp.Journal
import AtomLisp.Limits
import AtomLisp.Value.Equality
import AtomLisp.Value.Inspected

/-! # The machine

  Everything that evaluation can read or change: frames, the cells of atoms, the input that is still
  to be read, and what has been written.
-/

namespace AtomLisp

/-- What a program finds around itself; evaluation reads it and never changes it. -/
structure Host where
  files   : FileTree
  /-- What the clock shows when it is read for the `n`-th time, in milliseconds since the start of
  the epoch. -/
  clock   : (n : Nat) → Int
  journal : Journal
  limits  : Limits

/-- The state of an interpreter. -/
structure Machine where
  frames     : Frames
  /-- The contents of the atoms. -/
  cells      : Cells
  /-- The serial number of the next collection or closure. -/
  nextSerial : Serial
  /-- The input that is still to be read. -/
  input      : Input
  /-- How often the clock has been read. -/
  readings   : Nat
  /-- What has been written. The output takes every text. -/
  output     : String
  /-- What has been reported. -/
  report     : String
  host       : Host

namespace Machine

/-- A machine without frames and atoms, which has not run yet. -/
def initial (host : Host) (input : Input) : Machine where
  frames := .empty
  cells := #[]
  nextSerial := 1
  input
  readings := 0
  output := ""
  report := ""
  host

/-! ### Texts of values -/

/-- The printed form of a value. -/
def print (m : Machine) (readable : Bool) (v : Value) : Except Error String :=
  v.print m.cells readable m.host.limits.nesting

/-- The printed forms of several values, with `separator` between them. -/
def printAll (m : Machine) (readable : Bool) (separator : String) (vs : List Value) :
    Except Error String :=
  Value.printAll m.cells readable m.host.limits.nesting separator vs

/-- The inspected form of a value. -/
def inspect (m : Machine) (v : Value) : Except Error String :=
  v.inspect m.cells m.host.limits.nesting

/-! ### Changes -/

/-- Binds `name` in one frame. -/
def define (m : Machine) (frame : FrameId) (name : String) (value : Value) : Machine :=
  { m with frames := m.frames.define frame name value }

/-- Makes a frame; its number is the old number of frames. -/
def pushFrame (m : Machine) (outer : Option FrameId) (vars : Entries Value) : Machine :=
  { m with frames := m.frames.push outer vars }

/-- Makes a cell; its number is the old number of cells. -/
def pushCell (m : Machine) (value : Value) : Machine := { m with cells := m.cells.push value }

/-- Writes a cell. -/
def setCell (m : Machine) (cell : CellId) (value : Value) : Machine :=
  { m with cells := m.cells.modify cell fun _ => value }

/-- Writes text to the output. -/
def write (m : Machine) (text : String) : Machine := { m with output := m.output ++ text }

/-- Reports a line, if the journal keeps lines of its severity. -/
def log (m : Machine) (severity : Severity) (source : Source) (message : String) : Machine :=
  if m.host.journal.keeps severity then
    { m with report := m.report ++ m.host.journal.line severity source message }
  else m

/-- Reports a value that a handler sees, if it has an inspected form. -/
def logCaught (m : Machine) (v : Value) : Machine :=
  if m.host.journal.keeps .debug then
    match m.inspect v with
    | .ok text => m.log .debug .handler s!"try* caught {text}"
    | .error _ => m
  else m

end Machine

end AtomLisp
