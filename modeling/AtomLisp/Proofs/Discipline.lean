import AtomLisp.Evaluation

/-! # Disciplines of runs

  Whatever evaluation keeps, and however two evaluations correspond, has to be checked for every
  special form, every builtin and every way to give a job on. A *discipline* is what such a check
  needs to know:

  * **Inv**: the machines that runs start from and leave behind;
  * **Free**: the frames that jobs may work in;
  * **Rel**: how the results of runs relate that are carried out side by side, one for each index
    of a family.

  `Discipline.Good` says that a family of runs keeps a discipline. This module shows it for the
  basic runs; `Discipline.Callers` shows it for all of evaluation.
-/

namespace AtomLisp

variable {α β ι : Type}

/-! ### Results -/

namespace Result

/-- The result came about: the run was not cut off. -/
def Ended : Result α → Prop
  | .unfinished => False
  | _ => True

/-- The value, if there is one. -/
def value? : Result α → Option α
  | .done a _ => some a
  | _ => none

/-- The error, if there is one. -/
def error? : Result α → Option Error
  | .failed e _ => some e
  | _ => none

/-- What has been written in the end. -/
def written? : Result α → Option String
  | .done _ m | .failed _ m => some m.output
  | .unfinished => none

/-- Goes on with the value, if there is one. -/
def andThen (r : Result α) (f : α → Run β) : Result β :=
  match r with
  | .done a m => f a m
  | .failed e m => .failed e m
  | .unfinished => .unfinished

/-- Takes an error for a value. -/
def attempt : Result α → Result (Except Error α)
  | .done a m => .done (.ok a) m
  | .failed e m => .done (.error e) m
  | .unfinished => .unfinished

/-- The machine that is left satisfies `I`, and the value, if there is one, satisfies `Q`. -/
def Sat (I : Machine → Prop) (Q : α → Prop) : Result α → Prop
  | .done a m => I m ∧ Q a
  | .failed _ m => I m
  | .unfinished => True

theorem exists_of_value? {r : Result α} {a : α} (h : r.value? = some a) : ∃ m, r = .done a m := by
  cases r with
  | done b m =>
    cases h
    exact ⟨m, rfl⟩
  | _ => cases h

theorem exists_of_error? {r : Result α} {e : Error} (h : r.error? = some e) :
    ∃ m, r = .failed e m := by
  cases r with
  | failed e' m =>
    cases h
    exact ⟨m, rfl⟩
  | _ => cases h

theorem ended_of_value? {r : Result α} {a : α} (h : r.value? = some a) : r.Ended := by
  obtain ⟨m, rfl⟩ := exists_of_value? h
  trivial

theorem Sat.mono {I J : Machine → Prop} {P Q : α → Prop} {r : Result α} (h : r.Sat I P)
    (hI : ∀ m, I m → J m) (hQ : ∀ a, P a → Q a) : r.Sat J Q := by
  cases r with
  | done a m => exact ⟨hI m h.1, hQ a h.2⟩
  | failed e m => exact hI m h
  | unfinished => trivial

theorem sat_of_forall {I : Machine → Prop} {Q : α → Prop} (hI : ∀ m, I m) (hQ : ∀ a, Q a)
    (r : Result α) : r.Sat I Q := by
  cases r with
  | done a m => exact ⟨hI m, hQ a⟩
  | failed e m => exact hI m
  | unfinished => trivial

end Result

theorem Run.bind_eq_andThen (x : Run α) (f : α → Run β) (m : Machine) :
    (x >>= f) m = (x m).andThen f := rfl

theorem Run.bind_congr_at {x y : Run α} {m : Machine} (h : x m = y m) (f : α → Run β) :
    (x >>= f) m = (y >>= f) m := by
  rw [Run.bind_eq_andThen, Run.bind_eq_andThen, h]

/-- A run of two parts ends with a result when both parts do. -/
theorem Run.bind_eq_done_iff {x : Run α} {f : α → Run β} {m o : Machine} {b : β} :
    (x >>= f) m = .done b o ↔ ∃ a n, x m = .done a n ∧ f a n = .done b o := by
  rw [Run.bind_apply]
  cases x m <;> simp [and_assoc]

/-- It fails when the first part does, or when the second part does after the first. -/
theorem Run.bind_eq_failed_iff {x : Run α} {f : α → Run β} {m o : Machine} {e : Error} :
    (x >>= f) m = .failed e o ↔
      x m = .failed e o ∨ ∃ a n, x m = .done a n ∧ f a n = .failed e o := by
  rw [Run.bind_apply]
  cases x m <;> simp [and_assoc]

/-! ### Runs that keep still -/

/-- The run comes to an end and touches neither the frames nor the host. -/
def Run.Still (x : Run α) : Prop :=
  ∀ m, (x m).Sat (fun m' => m'.frames = m.frames ∧ m'.host = m.host) fun _ => True

namespace Run.Still

variable {x : Run α} {f : α → Run β}

theorem pure (a : α) : Still (Pure.pure a : Run α) := fun _ => ⟨⟨rfl, rfl⟩, trivial⟩

theorem fail (e : Error) : Still (Run.fail e : Run α) := fun _ => ⟨rfl, rfl⟩

theorem get : Still Run.get := fun _ => ⟨⟨rfl, rfl⟩, trivial⟩

theorem bind (hx : Still x) (hf : ∀ a, Still (f a)) : Still (x >>= f) := by
  intro m
  have h := hx m
  rw [Run.bind_apply]
  cases hr : x m with
  | done a m' =>
    rw [hr] at h
    obtain ⟨⟨hframes, hhost⟩, -⟩ := h
    exact (hf a m').mono (fun _ h => ⟨h.1.trans hframes, h.2.trans hhost⟩) fun _ => id
  | failed e m' =>
    rw [hr] at h
    exact h
  | unfinished => trivial

theorem read (f : Machine → Except Error α) : Still (Run.read f) := by
  intro m
  unfold Run.read
  cases f m with
  | ok a => exact ⟨⟨rfl, rfl⟩, trivial⟩
  | error e => exact ⟨rfl, rfl⟩

theorem ofExcept (r : Except Error α) : Still (Run.ofExcept r) := by
  cases r with
  | ok a => exact pure a
  | error e => exact fail e

theorem modify {f : Machine → Machine} (h : ∀ m, (f m).frames = m.frames ∧ (f m).host = m.host) :
    Still (Run.modify f) := fun m => ⟨h m, trivial⟩

theorem newSerial : Still Run.newSerial := fun _ => ⟨⟨rfl, rfl⟩, trivial⟩

theorem newAtom (v : Value) : Still (Run.newAtom v) := fun _ => ⟨⟨rfl, rfl⟩, trivial⟩

theorem number (form : Value) : Still (Run.number form) := fun _ => ⟨⟨rfl, rfl⟩, trivial⟩

theorem newList (items : List Value) : Still (Run.newList items) := newSerial.bind fun _ => pure _

theorem newVector (items : List Value) : Still (Run.newVector items) :=
  newSerial.bind fun _ => pure _

theorem newMap (entries : Entries Value) : Still (Run.newMap entries) :=
  newSerial.bind fun _ => pure _

theorem readClock : Still Run.readClock := fun _ => ⟨⟨rfl, rfl⟩, trivial⟩

/-- Reading a line changes the input only, whatever comes of it. -/
theorem takeLine : Still Run.takeLine := by
  intro m
  unfold Run.takeLine
  split
  · exact ⟨⟨rfl, rfl⟩, trivial⟩
  · exact ⟨rfl, rfl⟩

theorem ask (prompt : String) : Still (Run.ask prompt) :=
  (modify (f := (·.write prompt)) fun _ => ⟨rfl, rfl⟩).bind fun _ => takeLine

/-- Reporting a line changes the report only. -/
theorem log (severity : Severity) (source : Source) (message : String) :
    Still (Run.modify (·.log severity source message)) := by
  refine modify fun m => ?_
  unfold Machine.log
  split <;> exact ⟨rfl, rfl⟩

/-- Reporting what a handler sees changes the report only. -/
theorem logCaught (v : Value) : Still (Run.modify (·.logCaught v)) := by
  refine modify fun m => ?_
  unfold Machine.logCaught
  split
  · split
    · unfold Machine.log
      split <;> exact ⟨rfl, rfl⟩
    · exact ⟨rfl, rfl⟩
  · exact ⟨rfl, rfl⟩

end Run.Still

/-! ### Disciplines -/

/-- What runs keep that are carried out side by side. -/
structure Discipline (ι : Type) where
  /-- The machines that runs start from and leave behind. -/
  Inv : Machine → Prop
  /-- The frames that jobs work in. -/
  Free : FrameId → Prop
  /-- How the results of corresponding runs relate. -/
  Rel : {α : Type} → (ι → Result α) → Prop
  /-- The same result everywhere is related. -/
  rel_same : ∀ {α : Type} (r : Result α), Rel fun _ : ι => r
  /-- Related results stay related when something is done with them that never goes on after a
  run that was cut off. -/
  rel_next : ∀ {α β : Type} {r : ι → Result α} (next : ι → Result α → Result β),
    (∀ i, next i .unfinished = .unfinished) → Rel r →
    (∀ s, (∃ i, r i = s) → Rel fun i => next i s) → Rel fun i => next i (r i)
  inv_still : ∀ {m m' : Machine}, Inv m → m'.frames = m.frames → m'.host = m.host → Inv m'
  inv_define : ∀ {m : Machine} {frame : FrameId} (name : String) (v : Value),
    Inv m → Free frame → Inv (m.define frame name v)
  inv_push : ∀ {m : Machine} (outer : FrameId) (vars : Entries Value),
    Inv m → Inv (m.pushFrame (some outer) vars)
  free_size : ∀ {m : Machine}, Inv m → Free m.frames.size
  free_root : ∀ {m : Machine} {frame : FrameId},
    Inv m → Free frame → Free (m.frames.root frame)

namespace Discipline

variable {D : Discipline ι}

/-- A family of runs keeps a discipline, and its values satisfy `Q`. -/
def Good (D : Discipline ι) (x : ι → Run α) (Q : α → Prop) : Prop :=
  ∀ m, D.Inv m → D.Rel (fun i => x i m) ∧ ∀ i, (x i m).Sat D.Inv Q

/-- A step ends in a frame that jobs may work in. -/
def FreeStep (D : Discipline ι) : Step → Prop
  | .value _ => True
  | .tailCall _ frame => D.Free frame

theorem freeStep_of_forall (h : ∀ frame, D.Free frame) (step : Step) : D.FreeStep step := by
  cases step with
  | value v => trivial
  | tailCall body frame => exact h frame

namespace Good

variable {x : ι → Run α} {f : ι → α → Run β} {Q Q' : α → Prop} {R : β → Prop}

theorem mono (hx : D.Good x Q) (h : ∀ a, Q a → Q' a) : D.Good x Q' :=
  fun m hm => ⟨(hx m hm).1, fun i => ((hx m hm).2 i).mono (fun _ => id) h⟩

theorem pure {a : α} (h : Q a) : D.Good (fun _ => Pure.pure a) Q :=
  fun _ hm => ⟨D.rel_same _, fun _ => ⟨hm, h⟩⟩

/-- One run after another keeps what both keep. -/
theorem bind (hx : D.Good x Q) (hf : ∀ a, Q a → D.Good (fun i => f i a) R) :
    D.Good (fun i => x i >>= f i) R := by
  intro m hm
  obtain ⟨hrel, hsat⟩ := hx m hm
  constructor
  · -- What follows is compared from the machine that the first run leaves.
    refine D.rel_next (fun i r => r.andThen (f i)) (fun _ => rfl) hrel fun s hs => ?_
    obtain ⟨i, rfl⟩ := hs
    have h := hsat i
    cases hr : x i m with
    | done a m' =>
      rw [hr] at h
      exact (hf a h.2 m' h.1).1
    | failed e m' => exact D.rel_same _
    | unfinished => exact D.rel_same _
  · intro i
    have h := hsat i
    show ((x i m).andThen (f i)).Sat D.Inv R
    cases hr : x i m with
    | done a m' =>
      rw [hr] at h
      exact (hf a h.2 m' h.1).2 i
    | failed e m' =>
      rw [hr] at h
      exact h
    | unfinished => trivial

theorem map (hx : D.Good x Q) (g : α → β) (h : ∀ a, Q a → R (g a)) :
    D.Good (fun i => g <$> x i) R :=
  hx.bind fun a ha => pure (h a ha)

/-- An error that becomes a result keeps the machine that it left. -/
theorem attempt (hx : D.Good x Q) :
    D.Good (fun i => (x i).attempt) fun r => ∀ a, r = .ok a → Q a := by
  intro m hm
  obtain ⟨hrel, hsat⟩ := hx m hm
  constructor
  · exact D.rel_next (fun _ r => r.attempt) (fun _ => rfl) hrel fun s _ => D.rel_same s.attempt
  · intro i
    have h := hsat i
    show (x i m).attempt.Sat D.Inv _
    cases hr : x i m with
    | done a m' =>
      rw [hr] at h
      exact ⟨h.1, fun b hb => by cases hb; exact h.2⟩
    | failed e m' =>
      rw [hr] at h
      exact ⟨h, fun b hb => by cases hb⟩
    | unfinished => trivial

/-- A run that keeps still keeps every discipline. -/
theorem of_still {x : Run α} (hx : x.Still) : D.Good (fun _ => x) fun _ => True :=
  fun m hm => ⟨D.rel_same _, fun _ =>
    (hx m).mono (fun _ h => D.inv_still hm h.1 h.2) fun _ => id⟩

/-- A run that keeps still and cannot give a value satisfies whatever is asked of values. -/
theorem fail (e : Error) : D.Good (fun _ => (Run.fail e : Run α)) Q :=
  fun _ hm => ⟨D.rel_same _, fun _ => hm⟩

/-- What follows a run that fails does not matter. -/
theorem fail_bind (e : Error) : D.Good (fun i => (Run.fail e : Run α) >>= f i) R := fail e

theorem get : D.Good (fun _ => Run.get) D.Inv :=
  fun _ hm => ⟨D.rel_same _, fun _ => ⟨hm, hm⟩⟩

theorem define {frame : FrameId} (hf : D.Free frame) (name : String) (v : Value) :
    D.Good (fun _ => Run.modify (·.define frame name v)) fun _ => True :=
  fun _ hm => ⟨D.rel_same _, fun _ => ⟨D.inv_define name v hm hf, trivial⟩⟩

theorem newFrame (outer : FrameId) (vars : Entries Value) :
    D.Good (fun _ => Run.newFrame outer vars) D.Free :=
  fun _ hm => ⟨D.rel_same _, fun _ => ⟨D.inv_push outer vars hm, D.free_size hm⟩⟩

/-- The frame of a call is a new one, so jobs may work in it. -/
theorem bindParameters (params : List String) (args : List Value) (home : FrameId) :
    D.Good (fun _ => Parameters.bind params args home) D.Free := by
  unfold Parameters.bind
  -- There are too few or too many arguments, or they fit, with a list of the others or without.
  split
  · exact .fail _
  · exact .newFrame _ _
  · exact (of_still .newSerial).bind fun serial _ => .newFrame _ _

/-- Repeating a step equally often keeps what the step keeps. -/
theorem iterate {step : ι → β → Run (β ⊕ α)} {P : β → Prop}
    (hstep : ∀ b, P b → D.Good (fun i => step i b) (Sum.elim P Q)) (n : Nat) :
    ∀ b, P b → D.Good (fun i => Run.iterate (step i) n b) Q := by
  induction n with
  | zero => exact fun b _ m hm => ⟨D.rel_same _, fun _ => trivial⟩
  | succ n ih =>
    intro b hb
    refine (hstep b hb).bind ?_
    -- The step has come to a result, or to where the next step starts.
    intro s hs
    cases s with
    | inl b => exact ih b hs
    | inr a => exact .pure hs

end Good

end Discipline

end AtomLisp
