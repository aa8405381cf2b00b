import AtomLisp.Machine
import AtomLisp.Value.Numbered

/-! # Runs

  A run works on a machine and either ends with a result, or stops with an error; both come with the
  machine as it was left, so what was done before an error stays done. A third outcome,
  *unfinished*, stands for a run that was cut off before it came to an end; it says nothing.

  * `Run.fail` stops, and `Run.attempt` turns an error into a result;
  * `Run.iterate` repeats a step;
  * `Run.get`, `Run.modify` and the operations after them work on the machine.
-/

namespace AtomLisp

/-- How a run ends. -/
inductive Result (α : Type) where
  | done (a : α) (m : Machine)
  | failed (e : Error) (m : Machine)
  | unfinished

/-- Work on a machine. -/
def Run (α : Type) : Type := Machine → Result α

namespace Run

variable {α β γ : Type}

instance : Monad Run where
  pure a := fun m => .done a m
  bind x f := fun m =>
    match x m with
    | .done a m => f a m
    | .failed e m => .failed e m
    | .unfinished => .unfinished

@[simp] theorem pure_apply (a : α) (m : Machine) : (pure a : Run α) m = .done a m := rfl

theorem bind_apply (x : Run α) (f : α → Run β) (m : Machine) :
    (x >>= f) m =
      match x m with
      | .done a m => f a m
      | .failed e m => .failed e m
      | .unfinished => .unfinished := rfl

theorem id_map_run (x : Run α) : (id <$> x : Run α) = x := by
  funext m
  show (x >>= fun a => pure (id a)) m = x m
  rw [bind_apply]
  cases x m <;> rfl

theorem bind_assoc_run (x : Run α) (f : α → Run β) (g : β → Run γ) :
    x >>= f >>= g = x >>= fun a => f a >>= g := by
  funext m
  simp only [bind_apply]
  cases x m <;> rfl

instance : LawfulMonad Run :=
  LawfulMonad.mk' Run id_map_run (fun _ _ => rfl) bind_assoc_run

/-! ### Ends -/

/-- Stops with an error. -/
def fail (e : Error) : Run α := fun m => .failed e m

/-- Is cut off. -/
def unfinished : Run α := fun _ => .unfinished

/-- The result of a computation that needs no machine, or its error. -/
def ofExcept : Except Error α → Run α
  | .ok a => pure a
  | .error e => fail e

/-- The result of a run, or its error as a result. -/
def attempt (x : Run α) : Run (Except Error α) := fun m =>
  match x m with
  | .done a m => .done (.ok a) m
  | .failed e m => .done (.error e) m
  | .unfinished => .unfinished

/-- Repeats a step, at most so many times, until it comes to a result. -/
def iterate (step : β → Run (β ⊕ α)) : (times : Nat) → β → Run α
  | 0, _ => unfinished
  | times + 1, b => do
    match ← step b with
    | .inl b => iterate step times b
    | .inr a => pure a

/-! ### The machine -/

/-- The machine as it is. -/
def get : Run Machine := fun m => .done m m

/-- Changes the machine. -/
def modify (f : Machine → Machine) : Run Unit := fun m => .done () (f m)

/-- A computation that reads the machine. -/
def read (f : Machine → Except Error α) : Run α := fun m =>
  match f m with
  | .ok a => .done a m
  | .error e => .failed e m

/-- Makes a frame below `outer` with its first bindings. -/
def newFrame (outer : FrameId) (vars : Entries Value) : Run FrameId := fun m =>
  .done m.frames.size (m.pushFrame (some outer) vars)

/-- Makes an atom. -/
def newAtom (value : Value) : Run Value := fun m => .done (.atom m.cells.size) (m.pushCell value)

/-- A serial number that nothing else has. -/
def newSerial : Run Serial := fun m =>
  .done m.nextSerial { m with nextSerial := m.nextSerial + 1 }

/-- What the clock shows. -/
def readClock : Run Int := fun m =>
  .done (m.host.clock m.readings) { m with readings := m.readings + 1 }

/-- The next line of the input, if there is one. What has been read when a fault comes is lost. -/
def takeLine : Run (Option String) := fun m =>
  match m.input.takeLine with
  | (.ok line, rest) => .done (line.map String.ofList) { m with input := rest }
  | (.error f, rest) => .failed (.badInput f) { m with input := rest }

/-- Writes a prompt, and takes the next line of the input. -/
def ask (prompt : String) : Run (Option String) := do
  modify (·.write prompt)
  takeLine

/-! ### New collections -/

/-- A new list. -/
def newList (items : List Value) : Run Value := do return .list (← newSerial) items

/-- A new vector. -/
def newVector (items : List Value) : Run Value := do return .vector (← newSerial) items

/-- A new hash-map. -/
def newMap (entries : Entries Value) : Run Value := do return .map (← newSerial) entries

/-- Numbers the collections of a form that were only written down. -/
def number (form : Value) : Run Value := fun m =>
  let r := form.number m.nextSerial
  .done r.1 { m with nextSerial := r.2 }

end Run

end AtomLisp
