import AtomLisp.Proofs.InputLines
import AtomLisp.Proofs.Refusals
import AtomLisp.Session
import Mathlib.Logic.Relation

/-! # The conduct of runs

  Whatever a program does, what it has written stays written, the input is read line by line, and
  the host stays as it is. And a run stops only with errors that the machines account for: what is
  thrown has an inspected form, no name that reaches a frame is anything but a symbol, a file is
  not decoded only if its bytes are no UTF-8, and the input cannot be read only if it has a fault.

  * `Machine.Change`: the changes that runs are made of, and `Machine.Reaches`: any number of them;
  * `Machine.Precedes`: what is the same, or was there before, on a machine that is reached;
  * `Machine.AccountFor`: the errors that runs stop with;
  * `Run.Regular`: the run makes such changes only and stops with such errors;
  * `regular_perform`: so does every job, by induction on the fuel: one lemma per special form and
    per builtin shows what the jobs keep that they are made of.
-/

namespace AtomLisp

variable {α β : Type}

/-! ### Later machines -/

namespace Machine

/-- A run may lead from one machine to the other. -/
structure Precedes (m n : Machine) : Prop where
  host   : n.host = m.host
  /-- Nothing that was written is lost. -/
  output : ∃ text, n.output = m.output ++ text
  /-- What has been read of the input stood first in it. -/
  input  : ∃ readings, m.input.Reads readings n.input

variable {m n o : Machine}

namespace Precedes

/-- What touches neither host nor output nor input. -/
theorem of_eq (hhost : n.host = m.host) (houtput : n.output = m.output)
    (hinput : n.input = m.input) : m.Precedes n :=
  ⟨hhost, ⟨"", by simp [houtput]⟩, [], hinput ▸ .nil m.input⟩

theorem refl (m : Machine) : m.Precedes m := of_eq rfl rfl rfl

theorem trans (h : m.Precedes n) (h' : n.Precedes o) : m.Precedes o := by
  obtain ⟨hhost, ⟨text, houtput⟩, readings, hinput⟩ := h
  obtain ⟨hhost', ⟨text', houtput'⟩, readings', hinput'⟩ := h'
  refine ⟨hhost'.trans hhost, ⟨text ++ text', ?_⟩, _, hinput.append hinput'⟩
  rw [houtput', houtput, String.append_assoc]

theorem write (m : Machine) (text : String) : m.Precedes (m.write text) :=
  ⟨rfl, ⟨text, rfl⟩, [], .nil m.input⟩

theorem takeLine {r : Input.Reading} {rest : Input} (h : m.input.Splits r rest) :
    m.Precedes { m with input := rest } := ⟨rfl, ⟨"", by simp⟩, [r], h.reads⟩

end Precedes

/-- One change that a run makes. -/
inductive Change (m : Machine) : Machine → Prop
  | define (frame : FrameId) (name : String) (v : Value) : Change m (m.define frame name v)
  | pushFrame (outer : FrameId) (vars : Entries Value) : Change m (m.pushFrame (some outer) vars)
  | pushCell (v : Value) : Change m (m.pushCell v)
  | setCell (cell : CellId) (v : Value) : Change m (m.setCell cell v)
  | write (text : String) : Change m (m.write text)
  | report (text : String) : Change m { m with report := m.report ++ text }
  /-- Serial numbers have been given. -/
  | number (next : Serial) : Change m { m with nextSerial := next }
  | readClock : Change m { m with readings := m.readings + 1 }
  | takeLine {r : Input.Reading} {rest : Input} (h : m.input.Splits r rest) :
    Change m { m with input := rest }

theorem Change.precedes (h : m.Change n) : m.Precedes n := by
  cases h with
  | write text => exact .write m text
  | takeLine h => exact .takeLine h
  | _ => exact .of_eq rfl rfl rfl

/-- No cell is ever taken away. -/
theorem Change.size_le (h : m.Change n) : m.cells.size ≤ n.cells.size := by
  cases h with
  | pushCell v => simp [Machine.pushCell]
  | setCell cell v => simp [Machine.setCell]
  | _ => exact Nat.le_refl _

/-- Changes lead from one machine to the other. -/
def Reaches : Machine → Machine → Prop := Relation.ReflTransGen Change

namespace Reaches

theorem refl (m : Machine) : m.Reaches m := Relation.ReflTransGen.refl

theorem of_change (h : m.Change n) : m.Reaches n := Relation.ReflTransGen.single h

theorem trans (h : m.Reaches n) (h' : n.Reaches o) : m.Reaches o :=
  Relation.ReflTransGen.trans h h'

theorem precedes (h : m.Reaches n) : m.Precedes n := by
  induction h with
  | refl => exact .refl m
  | tail _ hchange ih => exact ih.trans hchange.precedes

theorem size_le (h : m.Reaches n) : m.cells.size ≤ n.cells.size := by
  induction h with
  | refl => exact Nat.le_refl _
  | tail _ hchange ih => exact Nat.le_trans ih hchange.size_le

theorem log (m : Machine) (severity : Severity) (source : Source) (message : String) :
    m.Reaches (m.log severity source message) := by
  unfold Machine.log
  split
  · exact of_change (.report _)
  · exact refl m

theorem logCaught (m : Machine) (v : Value) : m.Reaches (m.logCaught v) := by
  unfold Machine.logCaught
  split
  · split
    · exact log m _ _ _
    · exact refl m
  · exact refl m

end Reaches

theorem Precedes.logCaught (m : Machine) (v : Value) : m.Precedes (m.logCaught v) :=
  (Reaches.logCaught m v).precedes

end Machine

/-! ### Errors -/

namespace FileTree

/-- A file holds bytes that are no UTF-8. -/
def HoldsUndecodable (files : FileTree) : Prop :=
  ∃ names bytes, files.at? names = some (.file bytes) ∧ String.fromUTF8? bytes = none

theorem exists_of_walk {files : FileTree} {here steps : List String} {bytes : ByteArray}
    (h : files.walk here steps = .ok (.file bytes)) :
    ∃ names, files.at? names = some (.file bytes) := by
  induction steps generalizing here with
  | nil =>
    unfold walk at h
    cases hat : files.at? here with
    | none =>
      rw [hat] at h
      cases h
    | some entry =>
      rw [hat] at h
      cases h
      exact ⟨here, hat⟩
  | cons name steps ih =>
    unfold walk at h
    split at h
    · cases h
    · cases h
    · split at h
      · exact ih h
      · split at h
        · exact ih h
        · cases h

theorem holdsUndecodable_of_resolve {files : FileTree} {path : Path} {bytes : ByteArray}
    (hfile : files.resolve path = .ok (.file bytes)) (hbytes : String.fromUTF8? bytes = none) :
    files.HoldsUndecodable := by
  unfold resolve at hfile
  split at hfile
  · cases hfile
  · obtain ⟨names, hnames⟩ := exists_of_walk hfile
    exact ⟨names, bytes, hnames, hbytes⟩

end FileTree

namespace Machine

/-- A run from `m` may stop with the error and leave `n`. -/
def AccountFor (m n : Machine) : Error → Prop
  | .thrown v => ∃ text, n.inspect v = .ok text
  | .undecodable => m.host.files.HoldsUndecodable
  | .badInput f => m.input.Holds f
  | .invalidSymbol _ | .preludeUnreadable _ => False
  | _ => True

theorem accountFor_of_isPlain (m n : Machine) {e : Error} (h : e.IsPlain) :
    m.AccountFor n e := by
  cases e <;> trivial

theorem accountFor_of_wordless {m n : Machine} {cells : Cells} {v : Value} {e : Error}
    (h : v.Wordless cells e) : m.AccountFor n e := by
  rcases h with rfl | ⟨rfl, -⟩ <;> trivial

theorem accountFor_of_raises {m : Machine} {args : List Value} {b : Builtin} {e : Error}
    (h : b.Raises m args e) : m.AccountFor m e := by
  cases h with
  | plain h => exact m.accountFor_of_isPlain m h
  | thrown _ _ htext => exact ⟨_, htext⟩
  | uncatchable h =>
    cases h with
    | wordless | unread | nulInPath => trivial
    | undecodable _ hfile hbytes => exact FileTree.holdsUndecodable_of_resolve hfile hbytes

/-- What accounts for an error was there before: files do not change, and the input never gets a
fault that it had not. -/
theorem AccountFor.of_precedes {m n o : Machine} {e : Error} (hmn : m.Precedes n)
    (h : n.AccountFor o e) : m.AccountFor o e := by
  obtain ⟨hhost, -, readings, hinput⟩ := hmn
  cases e with
  | undecodable =>
    have hfiles : n.host.files.HoldsUndecodable := h
    rwa [hhost] at hfiles
  | badInput f => exact hinput.holds_of_holds h
  | _ => exact h

end Machine

/-! ### Regular runs -/

/-- What a run from `m` may end with. -/
def Result.Leads (m : Machine) : Result α → Prop
  | .done _ n => m.Reaches n
  | .failed e n => m.Reaches n ∧ m.AccountFor n e
  | .unfinished => True

theorem Result.Leads.trans {m n : Machine} {r : Result α} (hmn : m.Reaches n)
    (h : r.Leads n) : r.Leads m := by
  cases r with
  | done a o => exact hmn.trans h
  | failed e o => exact ⟨hmn.trans h.1, h.2.of_precedes hmn.precedes⟩
  | unfinished => trivial

/-- What is seen of it, however it came about. -/
def Result.Follows (m : Machine) : Result α → Prop
  | .done _ n => m.Precedes n
  | .failed e n => m.Precedes n ∧ m.AccountFor n e
  | .unfinished => True

theorem Result.Leads.follows {m : Machine} {r : Result α} (h : r.Leads m) : r.Follows m := by
  cases r with
  | done a n => exact Machine.Reaches.precedes h
  | failed e n => exact ⟨h.1.precedes, h.2⟩
  | unfinished => trivial

/-- The run makes changes only that lead to later machines, and stops with errors that the machines
account for. -/
def Run.Regular (x : Run α) : Prop := ∀ m, (x m).Leads m

namespace Run.Regular

variable {x : Run α} {f : α → Run β}

theorem leads (hx : x.Regular) {m : Machine} {r : Result α} (h : x m = r) : r.Leads m :=
  h ▸ hx m

theorem follows (hx : x.Regular) {m : Machine} {r : Result α} (h : x m = r) : r.Follows m :=
  (hx.leads h).follows

theorem pure (a : α) : Regular (Pure.pure a : Run α) := Machine.Reaches.refl

theorem fail {e : Error} (h : e.IsPlain) : Regular (Run.fail e : Run α) :=
  fun m => ⟨.refl m, m.accountFor_of_isPlain m h⟩

theorem bind (hx : x.Regular) (hf : ∀ a, (f a).Regular) : Regular (x >>= f) := by
  intro m
  rw [bind_apply]
  cases hr : x m with
  | done a n => exact (hf a n).trans (hx.leads hr)
  | failed e n => exact hx.leads hr
  | unfinished => trivial

theorem map (hx : x.Regular) (g : α → β) : Regular (g <$> x) := hx.bind fun _ => pure _

/-- What is done with an error goes on where the run stopped. -/
theorem attempt_bind {g : Except Error α → Run β} (hx : x.Regular) (hok : ∀ a, (g (.ok a)).Regular)
    (herror : ∀ e m n, m.Reaches n → m.AccountFor n e → (g (.error e) n).Leads m) :
    Regular (x.attempt >>= g) := by
  intro m
  rw [bind_apply, attempt]
  cases hr : x m with
  | done a n => exact (hok a n).trans (hx.leads hr)
  | failed e n =>
    obtain ⟨hlater, haccount⟩ := hx.leads hr
    exact herror e m n hlater haccount
  | unfinished => trivial

theorem iterate {step : β → Run (β ⊕ α)} (h : ∀ b, (step b).Regular) (n : Nat) :
    ∀ b, Regular (Run.iterate step n b) := by
  induction n with
  | zero => exact fun _ _ => trivial
  | succ n ih =>
    intro b
    refine (h b).bind fun s => ?_
    cases s with
    | inl b => exact ih b
    | inr a => exact pure a

theorem get : Run.get.Regular := Machine.Reaches.refl

theorem modify {g : Machine → Machine} (h : ∀ m : Machine, m.Reaches (g m)) :
    (Run.modify g).Regular := h

theorem read {g : Machine → Except Error α} (h : ∀ m, ErrorsAre (m.AccountFor m) (g m)) :
    (Run.read g).Regular := by
  intro m
  unfold Run.read
  cases hr : g m with
  | ok a => exact .refl m
  | error e => exact ⟨.refl m, h m e hr⟩

theorem ofExcept {r : Except Error α} (h : PlainErrors r) : (Run.ofExcept r).Regular := by
  cases r with
  | ok a => exact pure a
  | error e => exact fail (h e rfl)

theorem define (frame : FrameId) (name : String) (v : Value) :
    (Run.modify (·.define frame name v)).Regular := fun _ => .of_change (.define frame name v)

theorem newFrame (outer : FrameId) (vars : Entries Value) : (Run.newFrame outer vars).Regular :=
  fun _ => .of_change (.pushFrame outer vars)

theorem newSerial : Run.newSerial.Regular := fun _ => .of_change (.number _)

theorem readClock : Run.readClock.Regular := fun _ => .of_change .readClock

/-- Reading a line loses what has been read even where a fault comes of it. -/
theorem takeLine : Run.takeLine.Regular := by
  intro m
  unfold Run.takeLine
  split
  · next hline => exact .of_change (.takeLine (Input.takeLine_eq_iff.1 hline))
  · next hline =>
    have hsplits := Input.takeLine_eq_iff.1 hline
    exact ⟨.of_change (.takeLine hsplits), hsplits.holds⟩

theorem ask (prompt : String) : (Run.ask prompt).Regular :=
  (modify fun _ => .of_change (.write prompt)).bind fun _ => takeLine

theorem newAtom (v : Value) : (Run.newAtom v).Regular := fun _ => .of_change (.pushCell v)

theorem number (form : Value) : (Run.number form).Regular := fun _ => .of_change (.number _)

theorem newList (items : List Value) : (Run.newList items).Regular :=
  newSerial.bind fun _ => pure _

theorem newVector (items : List Value) : (Run.newVector items).Regular :=
  newSerial.bind fun _ => pure _

theorem newMap (entries : Entries Value) : (Run.newMap entries).Regular :=
  newSerial.bind fun _ => pure _

/-- A value is shown, or it has no text. -/
theorem print (readable : Bool) (v : Value) : (Run.read (·.print readable v)).Regular :=
  read fun _ _ he => Machine.accountFor_of_wordless (Value.print_error he)

theorem inspect (v : Value) : (Run.read (·.inspect v)).Regular :=
  read fun _ _ he => Machine.accountFor_of_wordless (Value.inspectWithin_error he)

theorem bindParameters (params : List String) (args : List Value) (home : FrameId) :
    (Parameters.bind params args home).Regular := by
  unfold Parameters.bind
  split
  · exact fail trivial
  · exact newFrame _ _
  · exact newSerial.bind fun _ => newFrame _ _

end Run.Regular

/-! ### Builtins that call nothing -/

namespace Builtin

open Run.Regular

theorem regular_make (answer : Answer) : answer.make.Regular := by
  cases answer with
  | value v => exact .pure v
  | form v => exact .number v
  | list items => exact .newList items
  | vector items => exact .newVector items
  | map entries => exact .newMap entries
  | time => exact Run.Regular.readClock.bind fun _ => .pure _

theorem regular_query (q : Query) (args : List Value) :
    Run.Regular (do (← Run.read (q.answer · args)).make) :=
  .bind (.read fun m e he => Machine.accountFor_of_raises (answer_raises q m args e he))
    regular_make

theorem regular_printLine (readable : Bool) (args : List Value) :
    (printLine readable args).Regular := by
  refine .bind (.read fun m e he => ?_) fun text => ?_
  · obtain ⟨v, -, hwordless⟩ := Value.printAll_error he
    exact Machine.accountFor_of_wordless hwordless
  · exact .bind (.modify fun m => .of_change (.write _)) fun _ => .pure _

theorem regular_promptLine (args : List Value) : (promptLine args).Regular :=
  .bind (.ofExcept (Arguments.oneText_plain _ args)) fun prompt =>
    (Run.Regular.ask prompt).bind fun _ => .pure _

theorem regular_makeAtom (args : List Value) : (makeAtom args).Regular :=
  .bind (.ofExcept (Arguments.one_plain _ args)) fun _ => .newAtom _

theorem regular_writeCell (cell : CellId) (v : Value) : (writeCell cell v).Regular :=
  .bind (.modify fun _ => .of_change (.setCell cell v)) fun _ => .pure _

theorem regular_misuse (callee : String) (why : Misuse) :
    (Run.ofExcept (Arguments.misuse callee why : Except Error α)).Regular :=
  .ofExcept (Arguments.misuse_plain callee why)

theorem regular_resetAtom (args : List Value) : (resetAtom args).Regular := by
  refine .bind (.ofExcept (Arguments.two_plain _ args)) fun p => ?_
  split
  · exact regular_writeCell _ _
  · exact regular_misuse _ _

end Builtin

/-! ### Parts of special forms that evaluate nothing -/

namespace SpecialForm

theorem regular_unbindable (form : SpecialForm) (v : Value) :
    (form.unbindable v : Run α).Regular :=
  (Run.Regular.inspect v).bind fun _ => .fail trivial

theorem regular_paramNames (items : List Value) : (paramNames items).Regular := by
  induction items with
  | nil => exact .pure []
  | cons name rest ih =>
    cases name with
    | symbol name => exact ih.bind fun _ => .pure _
    | _ => exact (Run.Regular.inspect _).bind fun _ => .fail trivial

theorem regular_evalFunction (frame : FrameId) (parts : List Value) :
    (evalFunction frame parts).Regular := by
  unfold evalFunction
  split
  · exact .fail trivial
  · split
    · exact .fail trivial
    · exact (regular_paramNames _).bind fun _ => Run.Regular.newSerial.bind fun _ => .pure _

theorem regular_only (form : SpecialForm) (parts : List Value) : (form.only parts).Regular := by
  unfold only
  split
  · exact .pure _
  · exact .fail trivial

end SpecialForm

namespace Template

mutual

theorem regular_expand : ∀ template : Value, (expand template).Regular
  | .list s items => by
    unfold expand
    split
    · exact .pure _
    · exact regular_expandItems items
  | .vector _ items => by
    unfold expand
    exact (regular_expandItems items).bind fun _ => .newList _
  | .symbol name => .newList _
  | .map s entries => .newList _
  | .nil | .bool _ | .int _ | .text _ | .atom _ | .builtin _ | .closure .. => .pure _

theorem regular_expandItems : ∀ items : List Value, (expandItems items).Regular
  | [] => .pure _
  | item :: items => by
    unfold expandItems
    apply (regular_expandItems items).bind
    intro rest
    split
    · exact .newList _
    · exact (regular_expand item).bind fun _ => .newList _

end

end Template

theorem SpecialForm.regular_expandTemplate (template : Value) :
    (expandTemplate template).Regular := by
  refine Run.Regular.get.bind fun m => ?_
  split
  · exact Template.regular_expand template
  · exact .fail trivial

/-! ### Callers -/

/-- The jobs that are given on are regular. -/
structure Caller.Regular (c : Caller) : Prop where
  work : ∀ (level : Nat) (job : Job), (c.work level job).Regular
  /-- Repeating a regular step is regular. -/
  rounds : ∀ {β α : Type} {step : β → Run (β ⊕ α)}, (∀ b, (step b).Regular) →
    ∀ b, (c.rounds.run step b).Regular

namespace Caller.Regular

open Run.Regular

variable {c : Caller} (hc : c.Regular)

include hc

/-! ### Jobs that are given on -/

theorem inner : c.inner.Regular := ⟨hc.work, hc.rounds⟩

theorem settle (step : Step) : (c.settle step).Regular := by
  refine hc.rounds (fun s => ?_) step
  cases s with
  | value v => exact .pure _
  | tailCall body frame => exact (hc.work _ _).bind fun _ => .pure _

theorem finish (steps : Nat) (job : Job) : (c.finish steps job).Regular :=
  (hc.work _ job).bind hc.settle

theorem value (form : Value) (frame : FrameId) : (c.value form frame).Regular := hc.finish _ _

theorem complete (form : Value) (frame : FrameId) : (c.complete form frame).Regular :=
  hc.finish _ _

theorem call (f : Value) (args : List Value) (frame : FrameId) : (c.call f args frame).Regular :=
  hc.finish _ _

theorem last (tail : Bool) (form : Value) (frame : FrameId) : (c.last tail form frame).Regular :=
  hc.work _ _

theorem values (frame : FrameId) (forms : List Value) : (c.values frame forms).Regular := by
  induction forms with
  | nil => exact .pure []
  | cons form forms ih => exact (hc.value form frame).bind fun _ => ih.bind fun _ => .pure _

theorem elementValues (frame : FrameId) (forms : List Value) :
    (c.elementValues frame forms).Regular := by
  induction forms with
  | nil => exact .pure []
  | cons form forms ih => exact (hc.finish _ _).bind fun _ => ih.bind fun _ => .pure _

theorem entryValues (frame : FrameId) (entries : List (String × Value)) :
    (c.entryValues frame entries).Regular := by
  induction entries with
  | nil => exact .pure []
  | cons entry entries ih => exact (hc.value entry.2 frame).bind fun _ => ih.bind fun _ => .pure _

theorem sequence (tail : Bool) (frame : FrameId) (forms : List Value) :
    (c.sequence tail frame forms).Regular := by
  induction forms with
  | nil => exact .pure _
  | cons form forms ih =>
    cases forms with
    | nil => exact hc.last tail form frame
    | cons next forms => exact (hc.value form frame).bind fun _ => ih

/-! ### Macro expansion -/

theorem expandCall (call : MacroCall) : (c.expandCall call).Regular := by
  refine .bind (.modify fun m => .log m _ _ _) fun _ => ?_
  exact (bindParameters call.params call.args call.home).bind fun _ => hc.inner.complete call.body _

theorem expand (frame : FrameId) (form : Value) : (c.expand frame c.rounds form).Regular := by
  refine hc.rounds (fun form => get.bind fun m => ?_) form
  cases m.macroCall? form frame with
  | none => exact .pure _
  | some call => exact (hc.expandCall call).bind fun _ => .pure _

/-! ### Special forms -/

theorem evalDefine (frame : FrameId) (parts : List Value) :
    (SpecialForm.evalDefine c frame parts).Regular := by
  unfold SpecialForm.evalDefine
  split
  · exact (hc.value _ frame).bind fun v => (define frame _ v).bind fun _ => .pure v
  · exact SpecialForm.regular_unbindable _ _
  · exact .fail trivial

theorem evalDefineMacro (frame : FrameId) (parts : List Value) :
    (SpecialForm.evalDefineMacro c frame parts).Regular := by
  unfold SpecialForm.evalDefineMacro
  split
  · refine (hc.value _ frame).bind fun v => ?_
    split
    · exact newSerial.bind fun serial => (define frame _ _).bind fun _ => .pure _
    · exact .fail trivial
  · exact SpecialForm.regular_unbindable _ _
  · exact .fail trivial

theorem bindPairs (frame : FrameId) : ∀ items : List Value,
    (SpecialForm.bindPairs c frame items).Regular
  | [] => .pure _
  | [name] => by cases name <;> exact .pure _
  | name :: form :: rest => by
    cases name with
    | symbol name =>
      apply (hc.value form frame).bind
      intro v
      exact (define frame name v).bind fun _ => bindPairs frame rest
    | _ => exact SpecialForm.regular_unbindable _ _

theorem evalLet (tail : Bool) (frame : FrameId) (parts : List Value) :
    (SpecialForm.evalLet c tail frame parts).Regular := by
  unfold SpecialForm.evalLet
  split
  · exact .fail trivial
  · split
    · exact .fail trivial
    · split
      · refine (newFrame frame []).bind fun inner => ?_
        exact (hc.bindPairs inner _).bind fun _ => hc.inner.sequence tail inner _
      · exact .fail trivial

theorem evalConditional (tail : Bool) (frame : FrameId) (parts : List Value) :
    (SpecialForm.evalConditional c tail frame parts).Regular := by
  unfold SpecialForm.evalConditional
  split
  · refine (hc.value _ frame).bind fun v => ?_
    split
    · exact hc.last tail _ frame
    · exact .pure _
  · refine (hc.value _ frame).bind fun v => ?_
    split
    · exact hc.last tail _ frame
    · exact hc.last tail _ frame
  · exact .fail trivial

/-- An error that no handler sees goes on, and the machines still account for it. -/
theorem handleError (tail : Bool) (frame : FrameId) (name : String) (handler : Value) {e : Error}
    {m n : Machine} (hmn : m.Reaches n) (hm : m.AccountFor n e) :
    (SpecialForm.handleError c tail frame name handler e n).Leads m := by
  unfold SpecialForm.handleError
  cases e.caught? with
  | none => exact ⟨hmn, hm⟩
  | some v =>
    have hrun : Run.Regular (do
        Run.modify (·.logCaught v)
        c.last tail handler (← Run.newFrame frame [(name, v)])) :=
      .bind (.modify fun m => .logCaught m v) fun _ =>
        (newFrame frame _).bind fun inner => hc.last tail handler inner
    exact (hrun n).trans hmn

theorem evalHandle (tail : Bool) (frame : FrameId) (parts : List Value) :
    (SpecialForm.evalHandle c tail frame parts).Regular := by
  unfold SpecialForm.evalHandle
  split
  · exact hc.last tail _ frame
  · split
    · exact .fail trivial
    · exact (hc.value _ frame).attempt_bind (fun v => .pure _)
        fun e m n hmn hm => hc.handleError tail frame _ _ hmn hm
  · exact .fail trivial

theorem special (tail : Bool) (frame : FrameId) (form : SpecialForm) (parts : List Value) :
    (form.eval c tail frame parts).Regular := by
  cases form with
  | define => exact (hc.evalDefine frame parts).map _
  | letStar => exact hc.evalLet tail frame parts
  | sequence => exact hc.sequence tail frame parts
  | conditional => exact hc.evalConditional tail frame parts
  | function => exact (SpecialForm.regular_evalFunction frame parts).map _
  | quote => exact (SpecialForm.regular_only _ parts).map _
  | quasiquote =>
    refine (SpecialForm.regular_only _ parts).bind fun template => ?_
    exact (SpecialForm.regular_expandTemplate template).bind fun code => hc.last tail code frame
  | quasiquoteExpand =>
    refine (SpecialForm.regular_only _ parts).bind fun template => ?_
    exact (SpecialForm.regular_expandTemplate template).bind fun _ => .pure _
  | defineMacro => exact (hc.evalDefineMacro frame parts).map _
  | expandMacro =>
    refine (SpecialForm.regular_only _ parts).bind fun form => ?_
    exact (hc.inner.expand frame form).bind fun _ => .pure _
  | handle => exact hc.evalHandle tail frame parts

/-! ### Builtins -/

theorem swapAtom (frame : FrameId) (args : List Value) :
    (Builtin.swapAtom c frame args).Regular := by
  unfold Builtin.swapAtom
  split
  · split
    · refine get.bind fun m => ?_
      exact (hc.call _ _ frame).bind fun v => Builtin.regular_writeCell _ v
    · exact Builtin.regular_misuse _ _
  · exact Builtin.regular_misuse _ _
  · exact Builtin.regular_misuse _ _

theorem callEach (f : Value) (frame : FrameId) (vs : List Value) :
    (Builtin.callEach c f frame vs).Regular := by
  induction vs with
  | nil => exact .pure []
  | cons v vs ih => exact (hc.call f [v] frame).bind fun _ => ih.bind fun _ => .pure _

theorem mapItems (frame : FrameId) (args : List Value) :
    (Builtin.mapItems c frame args).Regular := by
  refine .bind (.ofExcept (Arguments.two_plain _ args)) fun p => ?_
  dsimp only
  split
  · exact (hc.inner.callEach p.1 frame _).bind fun vs => .newList vs
  · exact Builtin.regular_misuse _ _

theorem applyTo (frame : FrameId) (args : List Value) :
    (Builtin.applyTo c frame args).Regular := by
  unfold Builtin.applyTo
  split
  · split
    · exact hc.call _ _ frame
    · exact Builtin.regular_misuse _ _
  · exact Builtin.regular_misuse _ _

theorem evalInRoot (frame : FrameId) (args : List Value) :
    (Builtin.evalForm c frame args).Regular := by
  refine .bind (.ofExcept (Arguments.one_plain _ args)) fun form => ?_
  exact get.bind fun m => hc.inner.complete form _

theorem builtin (frame : FrameId) (args : List Value) (b : Builtin) :
    (b.call c frame args).Regular := by
  cases b with
  | query q => exact Builtin.regular_query q args
  | action a =>
    cases a with
    | prn => exact Builtin.regular_printLine true args
    | println => exact Builtin.regular_printLine false args
    | readline => exact Builtin.regular_promptLine args
    | atom => exact Builtin.regular_makeAtom args
    | reset => exact Builtin.regular_resetAtom args
    | swap => exact hc.swapAtom frame args
    | map => exact hc.mapItems frame args
    | apply => exact hc.applyTo frame args
    | eval => exact hc.evalInRoot frame args

/-! ### Calls and evaluation -/

theorem apply (tail : Bool) (f : Value) (args : List Value) (frame : FrameId) :
    (c.apply tail f args frame).Regular := by
  cases f with
  | closure serial params body home isMacro =>
    refine (bindParameters params args home).bind fun inner => ?_
    split
    · exact .pure _
    · exact (hc.complete body inner).bind fun _ => .pure _
  | builtin b => exact (hc.builtin frame args b).bind fun _ => .pure _
  | _ => exact (print true _).bind fun _ => .fail trivial

theorem evalForm (tail : Bool) (form : Value) (frame : FrameId) :
    (c.evalForm tail form frame).Regular := by
  cases form with
  | list serial parts =>
    cases parts with
    | nil => exact .pure _
    | cons head parts =>
      simp only [Caller.evalForm]
      split
      · exact hc.special tail frame _ parts
      · refine (hc.finish Steps.head _).bind fun f => ?_
        exact (hc.values frame parts).bind fun args => hc.apply tail f args frame
  | symbol name =>
    refine get.bind fun m => ?_
    split
    · exact .pure _
    · exact .fail trivial
  | vector serial items =>
    refine (hc.elementValues frame items).bind fun vs => ?_
    exact (newVector vs).bind fun _ => .pure _
  | map serial entries =>
    refine (hc.entryValues frame entries).bind fun es => ?_
    exact (newMap es).bind fun _ => .pure _
  | _ => exact .pure _

theorem perform (job : Job) : (c.perform job).Regular := by
  cases job with
  | eval tail form frame => exact (hc.expand frame form).bind fun _ => hc.evalForm tail _ frame
  | call f args frame => exact hc.apply false f args frame

end Caller.Regular

/-! ### All jobs -/

/-- **Every job is regular.** -/
theorem regular_perform (fuel level : Nat) (job : Job) : (perform fuel level job).Regular := by
  induction fuel generalizing level job with
  | zero => exact fun _ => trivial
  | succ fuel ih =>
    -- What a job gives on is done with less fuel.
    have hc : Caller.Regular ⟨AtomLisp.perform fuel, fuel, level⟩ := ⟨ih, fun h => .iterate h fuel⟩
    refine Run.Regular.get.bind fun m => ?_
    split
    · exact hc.perform job
    · exact .fail trivial

theorem regular_outermost (fuel : Nat) : (outermost fuel).Regular :=
  ⟨regular_perform fuel, fun h => .iterate h fuel⟩

/-- **Evaluation is regular.** -/
theorem regular_evaluate (fuel : Nat) (form : Value) (frame : FrameId) :
    (evaluate fuel form frame).Regular := (regular_outermost fuel).complete form frame

/-! ### Texts -/

namespace Session

variable {c : Caller}

theorem regular_evalEach (hc : c.Regular) (forms : List Value) : (evalEach c forms).Regular := by
  induction forms with
  | nil => exact .pure []
  | cons form forms ih =>
    refine (Run.Regular.number form).bind fun numbered => ?_
    exact (hc.complete numbered root).bind fun _ => ih.bind fun _ => .pure _

theorem regular_evalText (hc : c.Regular) (source : String) : (evalText c source).Regular := by
  refine Run.Regular.get.bind fun m => ?_
  apply (regular_evalEach hc _).bind
  intro vs
  split
  · exact .pure vs
  · rename_i e hread
    intro m
    refine ⟨.refl m, ?_⟩
    rcases Reader.run_stops _ _ _ _ hread with hplain | rfl
    · exact m.accountFor_of_isPlain m hplain
    · trivial

theorem regular_rep (fuel : Nat) (source : String) : (rep fuel source).Regular :=
  (regular_evalText (regular_outermost fuel) source).bind fun _ => .print true _

end Session

end AtomLisp
