import AtomLisp.Proofs.Quasiquote

/-! # Handlers

  A form `(try* body (catch* name handler))` evaluates its body to the end, however many tail calls,
  macro calls and calls from builtins that takes. An error of the body never gets past the handler,
  unless it is one of the few that no handler sees.

  * `Run.catching`: goes on with an error as a handler sees it;
  * `Caller.evalForm_tryForm`: what the form does with the jobs that it gives on;
  * `Caller.complete_tryForm`: without bound, body and handler are evaluated like forms that stand
    alone;
  * `evaluate_tryForm`: so they are with enough fuel, in tail position and elsewhere.
-/

namespace AtomLisp

variable {α β ι : Type}

/-! ### Catching errors -/

namespace Run

/-- Ends as `x` does if that is with a value, and goes on with `handler` if that is with an error:
with what was thrown, or else with the message. An error without a message goes through. -/
def catching (x : Run α) (handler : Value → Run α) : Run α := do
  match ← x.attempt with
  | .ok a => pure a
  | .error (.thrown v) => handler v
  | .error e =>
    match e.message? with
    | some message => handler (.text message)
    | none => fail e

/-- A handler has a frame of its own below that of the form, and there `name` is bound to what the
handler sees. What it sees is reported to the journal. -/
def inHandlerFrame (frame : FrameId) (name : String) (handler : FrameId → Run α) (v : Value) :
    Run α := do
  modify (·.logCaught v)
  handler (← newFrame frame [(name, v)])

theorem catching_eq (x : Run α) (handler : Value → Run α) :
    x.catching handler = (do
      match ← x.attempt with
      | .ok a => pure a
      | .error e => (e.caught?.map handler).getD (fail e)) := by
  unfold catching
  congr 1
  funext r
  cases r with
  | ok a => rfl
  | error e => cases e <;> rfl

theorem catching_of_done {x : Run α} {a : α} {m m' : Machine} (h : x m = .done a m')
    (handler : Value → Run α) : x.catching handler m = .done a m' := by
  simp only [catching_eq, attempt, bind_apply, h]
  rfl

theorem catching_of_failed {x : Run α} {e : Error} {m m' : Machine} (h : x m = .failed e m')
    (handler : Value → Run α) :
    x.catching handler m = (e.caught?.map handler).getD (fail e) m' := by
  simp only [catching_eq, attempt, bind_apply, h]

theorem catching_of_unfinished {x : Run α} {m : Machine} (h : x m = .unfinished)
    (handler : Value → Run α) : x.catching handler m = .unfinished := by
  simp only [catching_eq, attempt, bind_apply, h]

end Run

/-- Catching errors keeps what the run and the handler keep. -/
theorem Discipline.Good.catching {D : Discipline ι} {x : ι → Run α} {handler : ι → Value → Run α}
    (hx : D.Good x fun _ => True) (hhandler : ∀ v, D.Good (fun i => handler i v) fun _ => True) :
    D.Good (fun i => (x i).catching (handler i)) fun _ => True := by
  simp only [Run.catching_eq]
  apply hx.attempt.bind
  intro r _
  cases r with
  | ok a => exact .pure trivial
  | error e =>
    change D.Good (fun i => (e.caught?.map (handler i)).getD (Run.fail e)) _
    cases e.caught? with
    | none => exact .fail e
    | some v => exact hhandler v

theorem Discipline.Good.inHandlerFrame {D : Discipline ι} {handler : ι → FrameId → Run α}
    (hhandler : ∀ inner, D.Free inner → D.Good (fun i => handler i inner) fun _ => True)
    (frame : FrameId) (name : String) (v : Value) :
    D.Good (fun i => Run.inHandlerFrame frame name (handler i) v) fun _ => True := by
  apply (Good.of_still (.logCaught v)).bind
  intro _ _
  exact (Good.newFrame frame _).bind hhandler

/-! ### What the form does -/

/-- The form of a body with a handler. -/
def tryForm (serial clause : Serial) (body : Value) (name : String) (handler : Value) : Value :=
  .list serial [.symbol "try*", body,
    .list clause [.symbol "catch*", .symbol name, handler]]

namespace Caller

variable {m : Machine} {frame : FrameId}

/-- The jobs that the form gives on: its body, in no tail position, and its handler. -/
theorem evalForm_tryForm (c : Caller) (tail : Bool) (serial clause : Serial) (body : Value)
    (name : String) (handler : Value) (frame : FrameId) :
    c.evalForm tail (tryForm serial clause body name handler) frame =
      Run.catching (.value <$> c.value body frame)
        (Run.inHandlerFrame frame name (c.last tail handler)) := by
  have hspecial : SpecialForm.ofName? "try*" = some .handle := by decide
  simp only [evalForm, tryForm, evalForm.specialForm?, hspecial, SpecialForm.eval,
    SpecialForm.evalHandle, SpecialForm.clause?, if_true]
  funext m
  simp only [Run.catching, Run.attempt, Run.bind_apply, map_eq_pure_bind]
  cases c.value body frame m with
  | done v m' => rfl
  | failed e m' => cases e <;> rfl
  | unfinished => rfl

/-- A form that is no macro call is evaluated as it is, once there is fuel to see that. -/
theorem eval_of_none {c : Caller} {rounds : Nat} (hrounds : c.rounds = (rounds + 1 : Nat))
    {form : Value} (h : m.macroCall? form frame = none) (tail : Bool) :
    c.eval tail form frame m = c.evalForm tail form frame m := by
  have hexpand : c.expand frame c.rounds form m = .done form m :=
    hrounds ▸ expand_succ_of_none c h rounds
  rw [eval, Run.bind_apply, hexpand]

theorem macroCall?_tryForm (hplain : m.NoMacro "try*" frame) (serial clause : Serial)
    (body : Value) (name : String) (handler : Value) :
    m.macroCall? (tryForm serial clause body name handler) frame = none :=
  Machine.macroCall?_eq_none hplain serial _

/-- Without bound, body and handler are evaluated to the end, like forms that stand alone. -/
theorem complete_tryForm (hplain : m.NoMacro "try*" frame) (serial clause : Serial) (body : Value)
    (name : String) (handler : Value) :
    unbounded.complete (tryForm serial clause body name handler) frame m =
      Run.catching (unbounded.complete body frame)
        (Run.inHandlerFrame frame name (unbounded.complete handler)) m := by
  have hvalue : ∀ r, unbounded.complete body frame m = r →
      (Step.value <$> unbounded.value body frame : Run Step) m = r.map .value := by
    rintro _ rfl
    rw [value_eq_complete, map_eq_pure_bind, Run.bind_apply]
    cases unbounded.complete body frame m <;> rfl
  rw [complete_of_none (macroCall?_tryForm hplain serial clause body name handler),
    evalForm_tryForm, Run.bind_apply]
  cases hbody : unbounded.complete body frame m with
  | done v m' =>
    rw [Run.catching_of_done (hvalue _ hbody), Run.catching_of_done hbody]
    simp only [settle_value, Run.pure_apply]
  | unfinished =>
    rw [Run.catching_of_unfinished (hvalue _ hbody), Run.catching_of_unfinished hbody]
  | failed e m' =>
    rw [Run.catching_of_failed (hvalue _ hbody), Run.catching_of_failed hbody]
    cases e.caught? with
    | none => rfl
    | some v =>
      -- The handler is settled as when it stands alone.
      rfl

end Caller

/-! ### Forms with handlers -/

section

variable (serial clause : Serial) (body : Value) (name : String) (handler : Value)
  {frame : FrameId} {m : Machine} (hplain : m.NoMacro "try*" frame)

include hplain

/-- Whatever the position of the form, its body is evaluated to the end before it goes on. -/
theorem perform_tryForm (fuel : Nat) {level : Nat} (hallows : m.host.limits.allows level = true)
    (tail : Bool) :
    let c : Caller := ⟨perform (fuel + 1), (fuel + 1 : Nat), level⟩
    perform (fuel + 2) level (.eval tail (tryForm serial clause body name handler) frame) m =
      Run.catching (.value <$> c.value body frame)
        (Run.inHandlerFrame frame name (c.last tail handler)) m := by
  intro c
  rw [perform_succ_of_allows hallows]
  show c.eval tail (tryForm serial clause body name handler) frame m = _
  rw [Caller.eval_of_none rfl (Caller.macroCall?_tryForm hplain serial clause body name handler),
    Caller.evalForm_tryForm]

/-- With enough fuel the form comes to what its body and its handler come to. -/
theorem finish_tryForm_iff (hm : m.Unlimited) (level : Nat) (tail : Bool) {r : Result Value}
    (hr : r.Ended) :
    (∃ fuel, (outermost fuel).finish level
        (.eval tail (tryForm serial clause body name handler) frame) m = r) ↔
      ∃ fuel, Run.catching (evaluate fuel body frame)
        (Run.inHandlerFrame frame name (evaluate fuel handler)) m = r := by
  have hform : (∃ fuel, (outermost fuel).finish level
      (.eval tail (tryForm serial clause body name handler) frame) m = r) ↔
      Caller.unbounded.finish level
        (.eval tail (tryForm serial clause body name handler) frame) m = r :=
    exists_fuel_iff (converging_outermost.finish level _ trivial) hm hr
  have hgood : (Discipline.converging Host.Unlimited).Good (fun i =>
      let c := Discipline.numbered outermost Caller.unbounded i
      Run.catching (c.complete body frame) (Run.inHandlerFrame frame name (c.complete handler)))
      fun _ => True :=
    (converging_outermost.complete trivial body).catching fun v => .inHandlerFrame
      (fun inner hinner => converging_outermost.complete hinner handler) frame name v
  have hparts : (∃ fuel, Run.catching (evaluate fuel body frame)
      (Run.inHandlerFrame frame name (evaluate fuel handler)) m = r) ↔
      Run.catching (Caller.unbounded.complete body frame)
        (Run.inHandlerFrame frame name (Caller.unbounded.complete handler)) m = r :=
    exists_fuel_iff hgood hm hr
  -- Without bound, the position of the form does not matter.
  have hposition : Caller.unbounded.finish level
      (.eval tail (tryForm serial clause body name handler) frame) =
      Caller.unbounded.complete (tryForm serial clause body name handler) frame :=
    Caller.settle_denote_eval tail true _ frame
  rw [hform, hparts, hposition, Caller.complete_tryForm hplain]

/-- **A handler sees every error of its body that can be seen, however deep it arises.** For a form
with a handler in a frame in which `try*` is no macro:

  * at every level that the machine allows, the form evaluates its body to the end, and goes on with
    the handler in its own position: tail calls, macro calls and calls from builtins in the body
    give nothing on to whoever evaluates the form;
  * where no limit is set, at every level, in tail position and elsewhere, the form ends as its body
    does if that is with a value or with an error that no handler sees, and otherwise as its handler
    does, from the machine that the body left, in a new frame below that of the form in which only
    `name` is bound: to what was thrown, or to the message of the error. -/
theorem evaluate_tryForm :
    let form := tryForm serial clause body name handler
    (∀ (fuel level : Nat) (tail : Bool), m.host.limits.allows level = true →
      let c : Caller := ⟨perform (fuel + 1), (fuel + 1 : Nat), level⟩
      perform (fuel + 2) level (.eval tail form frame) m =
        Run.catching (.value <$> c.value body frame)
          (Run.inHandlerFrame frame name (c.last tail handler)) m) ∧
    (m.Unlimited → ∀ (level : Nat) (tail : Bool) (r : Result Value), r.Ended →
      ((∃ fuel, (outermost fuel).finish level (.eval tail form frame) m = r) ↔
        ∃ fuel, Run.catching (evaluate fuel body frame)
          (Run.inHandlerFrame frame name (evaluate fuel handler)) m = r)) :=
  ⟨fun fuel _ tail hallows =>
    perform_tryForm serial clause body name handler hplain fuel hallows tail,
    fun hm level tail _ hr =>
      finish_tryForm_iff serial clause body name handler hplain hm level tail hr⟩

end

/-- `(map (fn* (x) (throw x)) (list 7))`, which fails in a call that a builtin makes. -/
def throwingCallback : Value :=
  .form [.symbol "map",
    .form [.symbol "fn*", .form [.symbol "x"], .form [.symbol "throw", .symbol "x"]],
    .form [.symbol "list", .int 7]]

/-- A handler gets what the callback throws. -/
theorem tryForm_throwingCallback :
    let form := tryForm 0 0 throwingCallback "e" (.symbol "e")
    Machine.bare.NoMacro "try*" Session.root ∧ Machine.bare.Unlimited ∧
      (evaluate 9 form Session.root Machine.bare).value? = some (.int 7) ∧
      Machine.bare.host.limits.allows 0 = true ∧
      perform 9 0 (.eval true form Session.root) Machine.bare =
        Run.catching (.value <$> Caller.value ⟨perform 8, (8 : Nat), 0⟩ throwingCallback
            Session.root)
          (Run.inHandlerFrame Session.root "e"
            (Caller.last ⟨perform 8, (8 : Nat), 0⟩ true (.symbol "e"))) Machine.bare ∧
      ∃ fuel, Run.catching (evaluate fuel throwingCallback Session.root)
          (Run.inHandlerFrame Session.root "e" (evaluate fuel (.symbol "e"))) Machine.bare =
        evaluate 9 form Session.root Machine.bare := by
  intro form
  have hlookup : Machine.bare.frames.lookup? "try*" Session.root = none := by decide +kernel
  have hplain : Machine.bare.NoMacro "try*" Session.root := Machine.noMacro_of_none hlookup
  have hvalue : (evaluate 9 form Session.root Machine.bare).value? = some (.int 7) := by
    decide +kernel
  have hform := evaluate_tryForm 0 0 throwingCallback "e" (.symbol "e") hplain
  exact ⟨hplain, rfl, hvalue, rfl, hform.1 7 0 true rfl,
    (hform.2 rfl Steps.body true _ (Result.ended_of_value? hvalue)).1 ⟨9, rfl⟩⟩

/-- A machine whose root frame binds `try*` to a macro that answers 2. -/
def Machine.overridden : Machine :=
  Machine.bare.define Session.root "try*" (.closure 1 ["b", "c"] (.int 2) Session.root true)

/-- A macro of the name comes before the special form: the body of `(try* 1 (catch* e 3))` has the
value 1, and the form has the value 2. -/
theorem tryForm_macro :
    Machine.overridden.Unlimited ∧
      (evaluate 5 (.int 1) Session.root Machine.overridden).value? = some (.int 1) ∧
      (evaluate 5 (tryForm 0 0 (.int 1) "e" (.int 3)) Session.root
        Machine.overridden).value? = some (.int 2) :=
  ⟨rfl, by decide +kernel, by decide +kernel⟩

end AtomLisp
