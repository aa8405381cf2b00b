import AtomLisp.Proofs.MacroExpansion
import AtomLisp.Proofs.Nesting

/-! # Tail positions

  A form in tail position gives its own place to some part of it: a branch of a conditional, the
  last form of a sequence, the code of a template, a handler. However such parts are nested, and
  however many macro calls are expanded on the way, a closure that is called in the last of them is
  called in tail position, so its body is left for later.

  * `Caller.PartInPlace`: the part that takes the place of a form, and the run up to there;
  * `Caller.PartInPlace.evalForm`: the form is evaluated by evaluating that part;
  * `CallsInPlace`: a closure is called at the end of such parts;
  * `CallsInPlace.perform`: the job ends with the tail call, and the body is not evaluated;
  * `tail_calls_do_not_nest`: so evaluation nests no deeper than from one tail call to the next.
-/

namespace AtomLisp

namespace Caller

/-- Evaluating the form in a frame, which is no macro call, goes on with the part, in another frame
and from another machine, at a level, in the place of the form itself. -/
inductive PartInPlace (c : Caller) (frame : FrameId) (m : Machine) :
    (form part : Value) → FrameId → Machine → (level : Nat) → Prop
  /-- The condition of a conditional has come out true. -/
  | yes {serial : Serial} {condition yes v : Value} {no : List Value} {n : Machine}
      (hno : no.length ≤ 1) (hcondition : c.value condition frame m = .done v n)
      (htrue : v.isTruthy = true) :
      PartInPlace c frame m (.list serial (.symbol "if" :: condition :: yes :: no)) yes frame n
        (c.level + Steps.part)
  /-- The condition of a conditional has come out false. -/
  | no {serial : Serial} {condition yes no v : Value} {n : Machine}
      (hcondition : c.value condition frame m = .done v n) (hfalse : v.isTruthy = false) :
      PartInPlace c frame m (.list serial [.symbol "if", condition, yes, no]) no frame n
        (c.level + Steps.part)
  /-- The forms before the last one have been evaluated. -/
  | sequence {serial : Serial} {forms vs : List Value} {last : Value} {n : Machine}
      (hforms : c.values frame forms m = .done vs n) :
      PartInPlace c frame m (.list serial (.symbol "do" :: (forms ++ [last]))) last frame n
        (c.level + Steps.part)
  /-- The names have been bound, and the forms before the last one have been evaluated. The forms
  are evaluated a step deeper than those under the names. -/
  | letStar {serial : Serial} {bindings last : Value} {items forms vs : List Value}
      {m' n : Machine} (hitems : bindings.items? = some items) (heven : items.length % 2 = 0)
      (hbind : SpecialForm.bindPairs c m.frames.size items (m.pushFrame (some frame) []) =
        .done () m')
      (hforms : c.inner.values m.frames.size forms m' = .done vs n) :
      PartInPlace c frame m (.list serial (.symbol "let*" :: bindings :: (forms ++ [last]))) last
        m.frames.size n (c.inner.level + Steps.part)
  /-- The template has been expanded to its code. -/
  | quasiquote {serial : Serial} {template code : Value} {n : Machine}
      (hcode : SpecialForm.expandTemplate template m = .done code n) :
      PartInPlace c frame m (.list serial [.symbol "quasiquote", template]) code frame n
        (c.level + Steps.part)
  /-- There is no handler. -/
  | unhandled {serial : Serial} {body : Value} :
      PartInPlace c frame m (.list serial [.symbol "try*", body]) body frame m
        (c.level + Steps.part)
  /-- The body has failed with an error that the handler sees. -/
  | handler {serial clause : Serial} {body handler v : Value} {name : String} {e : Error}
      {n : Machine} (hbody : c.value body frame m = .failed e n) (hcaught : e.caught? = some v) :
      PartInPlace c frame m (tryForm serial clause body name handler) handler
        (n.logCaught v).frames.size ((n.logCaught v).pushFrame (some frame) [(name, v)])
        (c.level + Steps.part)

variable {c : Caller} {frame inner : FrameId} {m n : Machine} {form part : Value}

/-- All forms but the last one are evaluated like arguments. -/
theorem sequence_append {forms vs : List Value} (h : c.values frame forms m = .done vs n)
    (tail : Bool) (last : Value) :
    c.sequence tail frame (forms ++ [last]) m = c.last tail last frame n := by
  induction forms generalizing m vs with
  | nil =>
    cases h
    rfl
  | cons form forms ih =>
    have hsequence : c.sequence tail frame (form :: forms ++ [last]) = (do
        let _ ← c.value form frame
        c.sequence tail frame (forms ++ [last])) := by
      cases forms <;> rfl
    rw [values, Run.bind_apply] at h
    rw [hsequence, Run.bind_apply]
    cases hvalue : c.value form frame m with
    | done v m' =>
      rw [hvalue] at h
      simp only [Run.bind_apply] at h
      cases hvalues : c.values frame forms m' with
      | done vs' n' =>
        rw [hvalues] at h
        cases h
        exact ih hvalues
      | failed e n' =>
        rw [hvalues] at h
        cases h
      | unfinished =>
        rw [hvalues] at h
        cases h
    | failed e n' =>
      rw [hvalue] at h
      cases h
    | unfinished =>
      rw [hvalue] at h
      cases h

/-- The form is evaluated by evaluating the part, in tail position if the form is. -/
theorem PartInPlace.evalForm {level : Nat} (h : c.PartInPlace frame m form part inner n level)
    (tail : Bool) : c.evalForm tail form frame m = c.work level (.eval tail part inner) n := by
  cases h with
  | @yes serial condition yes v no n hno hcondition htrue =>
    have hspecial : SpecialForm.ofName? "if" = some .conditional := by decide
    simp only [Caller.evalForm, evalForm.specialForm?, hspecial, SpecialForm.eval]
    rcases no with _ | ⟨no, _ | ⟨more, rest⟩⟩
    · simp only [SpecialForm.evalConditional, Run.bind_apply, hcondition, htrue, if_true, last]
    · simp only [SpecialForm.evalConditional, Run.bind_apply, hcondition, htrue, if_true, last]
    · simp at hno
  | no hcondition hfalse =>
    have hspecial : SpecialForm.ofName? "if" = some .conditional := by decide
    simp only [Caller.evalForm, evalForm.specialForm?, hspecial, SpecialForm.eval,
      SpecialForm.evalConditional, Run.bind_apply, hcondition, hfalse, Bool.false_eq_true, if_false,
      last]
  | sequence hforms =>
    have hspecial : SpecialForm.ofName? "do" = some .sequence := by decide
    simp only [Caller.evalForm, evalForm.specialForm?, hspecial, SpecialForm.eval]
    exact sequence_append hforms tail part
  | letStar hitems heven hbind hforms =>
    have hspecial : SpecialForm.ofName? "let*" = some .letStar := by decide
    simp only [Caller.evalForm, evalForm.specialForm?, hspecial, SpecialForm.eval,
      SpecialForm.evalLet, hitems, heven, if_true, Run.bind_apply, Run.newFrame, hbind]
    exact sequence_append hforms tail part
  | quasiquote hcode =>
    have hspecial : SpecialForm.ofName? "quasiquote" = some .quasiquote := by decide
    simp only [Caller.evalForm, evalForm.specialForm?, hspecial, SpecialForm.eval,
      SpecialForm.only, Run.bind_apply, Run.pure_apply, hcode, last]
  | unhandled =>
    have hspecial : SpecialForm.ofName? "try*" = some .handle := by decide
    simp only [Caller.evalForm, evalForm.specialForm?, hspecial, SpecialForm.eval,
      SpecialForm.evalHandle, last]
  | @handler serial clause body handler v name e n hbody hcaught =>
    have hfailed : (Step.value <$> c.value body frame) m = .failed e n := by
      rw [map_eq_pure_bind, Run.bind_apply, hbody]
    rw [evalForm_tryForm, Run.catching_of_failed hfailed, hcaught]
    rfl

end Caller

/-! ### Calls in tail position -/

/-- The call of a closure that is about to be made: its arguments have been evaluated. -/
structure ClosureCall where
  params : List String
  body   : Value
  home   : FrameId
  args   : List Value

namespace ClosureCall

/-- The tail call: the frame of the call is made, and the body is left to be evaluated in it. -/
def tailCall (call : ClosureCall) : Run Step := do
  return .tailCall call.body (← Parameters.bind call.params call.args call.home)

end ClosureCall

/-- Evaluating a form in a frame, at a level and with an amount of fuel, comes to the call of a
closure in tail position: the form is expanded, and then it is the call, or else a part takes its
place that comes to the call. -/
inductive CallsInPlace (call : ClosureCall) (n : Machine) :
    (fuel level : Nat) → Value → FrameId → Machine → Prop
  | call {fuel level : Nat} {form head : Value} {frame : FrameId} {m m₁ m₂ : Machine}
      {serial closure : Serial} {parts : List Value} {isMacro : Bool}
      (hallows : m.host.limits.allows level = true)
      (hexpand : (⟨perform fuel, fuel, level⟩ : Caller).expand frame fuel form m =
        .done (.list serial (head :: parts)) m₁)
      (hspecial : Caller.evalForm.specialForm? head = none)
      (hhead : (⟨perform fuel, fuel, level⟩ : Caller).headValue head frame m₁ =
        .done (.closure closure call.params call.body call.home isMacro) m₂)
      (hargs : (⟨perform fuel, fuel, level⟩ : Caller).values frame parts m₂ =
        .done call.args n) :
      CallsInPlace call n (fuel + 1) level form frame m
  | part {fuel level deeper : Nat} {form expanded part : Value} {frame inner : FrameId}
      {m m₁ m₂ : Machine} (hallows : m.host.limits.allows level = true)
      (hexpand : (⟨perform fuel, fuel, level⟩ : Caller).expand frame fuel form m =
        .done expanded m₁)
      (hpart : (⟨perform fuel, fuel, level⟩ : Caller).PartInPlace frame m₁ expanded part inner m₂
        deeper)
      (hcall : CallsInPlace call n fuel deeper part inner m₂) :
      CallsInPlace call n (fuel + 1) level form frame m

/-- The job ends with the tail call. -/
theorem CallsInPlace.perform {call : ClosureCall} {n m : Machine} {fuel level : Nat} {form : Value}
    {frame : FrameId} (h : CallsInPlace call n fuel level form frame m) :
    perform fuel level (.eval true form frame) m = call.tailCall n := by
  induction h with
  | @call fuel level form head frame m m₁ m₂ serial closure parts isMacro hallows hexpand hspecial
      hhead hargs =>
    rw [perform_succ_of_allows hallows]
    show ((⟨AtomLisp.perform fuel, fuel, level⟩ : Caller).expand frame fuel form >>= fun form =>
      Caller.evalForm _ true form frame) m = _
    rw [Run.bind_apply, hexpand]
    simp only [Caller.evalForm, hspecial, Run.bind_apply, hhead, hargs]
    rfl
  | @part fuel level deeper form expanded part frame inner m m₁ m₂ hallows hexpand hpart hcall ih =>
    rw [perform_succ_of_allows hallows]
    show ((⟨AtomLisp.perform fuel, fuel, level⟩ : Caller).expand frame fuel form >>= fun form =>
      Caller.evalForm _ true form frame) m = _
    rw [Run.bind_apply, hexpand]
    exact (hpart.evalForm true).trans ih

/-- **Tail calls do not nest.**

  * If each tail call of a form, and its end, is come to in jobs that nest at most so deep, then so
    is the end from the start, however many tail calls there are. Where the machine grants six
    steps for each nested job, evaluation comes to that end with every amount of fuel that is
    enough, and to no other. It never fails if no tail call does.
  * A closure that is called in tail position, at the end of parts that take the place of the form,
    ends the job with the tail call: the frame of the call is made, and the body is left to be
    evaluated in it. -/
theorem tail_calls_do_not_nest :
    (∀ (depth : Nat) (form : Value) (frame : FrameId) (m : Machine),
      let p : TailState := ⟨form, frame, m⟩
      p.StaysWithin depth → m.host.limits.allows (Steps.most * depth) = true →
        (∀ fuel, evaluate fuel form frame m = .unfinished ∨
          p.ComesTo depth (evaluate fuel form frame m)) ∧
        (∀ r : Result Value, r.Ended → p.ComesTo depth r →
          evaluateWithin .unbounded depth form frame m = r ∧
            ∃ N, ∀ fuel ≥ N, evaluate fuel form frame m = r) ∧
        ((∀ q, Relation.ReflTransGen (TailState.Next depth) p q →
            ∃ s n, q.step .unbounded depth = .done s n) →
          ∀ fuel, (evaluate fuel form frame m).error? = none)) ∧
    ∀ (call : ClosureCall) (n m : Machine) (fuel level : Nat) (form : Value) (frame : FrameId),
      CallsInPlace call n fuel level form frame m →
        perform fuel level (.eval true form frame) m = call.tailCall n := by
  refine ⟨?_, fun _ _ _ _ _ _ _ h => h.perform⟩
  intro depth form frame m p hstays hgranted
  have hp : p.Granted depth := hgranted
  obtain ⟨hevaluate, hcomes⟩ := hstays.evaluate hp
  exact ⟨hevaluate, hcomes, TailState.error?_evaluate hp⟩

/-- A machine with few steps for nested calls, in which `(loop n)` counts down to 0 in tail
calls. -/
def Machine.looping : Machine :=
  let m := Session.machine
    { files := ⟨[], []⟩, clock := fun _ => 0, journal := .unset,
      limits := ⟨some 25, Limits.leastSteps⟩ } .ended []
  let again := .form [.symbol "loop", .form [.symbol "-", .symbol "n", .int 1]]
  m.define Session.root "loop" (.closure 1 ["n"]
    (.form [.symbol "if", .form [.symbol "=", .symbol "n", .int 0], .int 7, again])
    Session.root false)

/-- `(if true (loop times))`. -/
def loopForm (times : Int) : Value :=
  .form [.symbol "if", .bool true, .form [.symbol "loop", .int times]]

/-- The call of `loop` that the form makes in tail position. -/
def loopCall (times : Int) : ClosureCall where
  params := ["n"]
  body := .form [.symbol "if", .form [.symbol "=", .symbol "n", .int 0], .int 7,
    .form [.symbol "loop", .form [.symbol "-", .symbol "n", .int 1]]]
  home := Session.root
  args := [.int times]

theorem callsInPlace_loop :
    CallsInPlace (loopCall 50) Machine.looping 9 Steps.body (loopForm 50) Session.root
      Machine.looping := by
  let call : Value := .form [.symbol "loop", .int 50]
  let c : Caller := ⟨perform 8, (8 : Nat), Steps.body⟩
  let c' : Caller := ⟨perform 7, (7 : Nat), Steps.body + Steps.part⟩
  have hif : Machine.looping.frames.lookup? "if" Session.root = none := by decide +kernel
  have hloop : Machine.looping.frames.lookup? "loop" Session.root =
      some (.closure 1 ["n"] (loopCall 50).body Session.root false) := by decide +kernel
  have hplain : Machine.looping.NoMacro "loop" Session.root := by
    intro v hv
    rw [hloop] at hv
    cases hv
    rfl
  have hexpand : c.expand Session.root (8 : Nat) (loopForm 50) Machine.looping =
      .done (loopForm 50) Machine.looping :=
    c.expand_succ_of_none (Machine.macroCall?_eq_none (Machine.noMacro_of_none hif) _ _) 7
  have hexpand' : c'.expand Session.root (7 : Nat) call Machine.looping =
      .done call Machine.looping :=
    c'.expand_succ_of_none (Machine.macroCall?_eq_none hplain _ _) 6
  have hhead : c'.headValue (.symbol "loop") Session.root Machine.looping =
      .done (.closure 1 ["n"] (loopCall 50).body Session.root false) Machine.looping :=
    finish_symbol hloop Steps.head rfl 5 false
  have hcondition : c.value (.bool true) Session.root Machine.looping =
      .done (.bool true) Machine.looping := rfl
  -- The condition of the conditional is true, so the call takes its place.
  have hpart : c.PartInPlace Session.root Machine.looping (loopForm 50) call Session.root
      Machine.looping (Steps.body + Steps.part) := .yes (Nat.zero_le 1) hcondition rfl
  exact .part rfl hexpand hpart (.call rfl hexpand' rfl hhead rfl)

/-- With fifty tail calls evaluation stays within twenty-four steps, and comes to 7. -/
theorem tail_calls_loop :
    let p : TailState := ⟨loopForm 50, Session.root, Machine.looping⟩
    p.StaysWithin 4 ∧ Machine.looping.host.limits.allows (Steps.most * 4) = true ∧
      (∃ n, p.ComesTo 4 (.done (.int 7) n) ∧
        evaluateWithin .unbounded 4 (loopForm 50) Session.root Machine.looping =
          .done (.int 7) n) ∧
      (∀ fuel, (evaluate fuel (loopForm 50) Session.root Machine.looping).error? = none) ∧
      CallsInPlace (loopCall 50) Machine.looping 9 Steps.body (loopForm 50) Session.root
        Machine.looping ∧
      perform 9 Steps.body (.eval true (loopForm 50) Session.root) Machine.looping =
        (loopCall 50).tailCall Machine.looping := by
  intro p
  have hsettles : TailState.settles 5 4 60 p = true := by decide +kernel
  have hdone := TailState.done_of_settles hsettles
  have hstays : p.StaysWithin 4 := by
    intro q hq
    obtain ⟨s, n, hstep⟩ := hdone q hq
    rw [hstep]
    trivial
  have hvalue : (evaluate 100 (loopForm 50) Session.root Machine.looping).value? =
      some (.int 7) := by decide +kernel
  obtain ⟨n, hn⟩ := Result.exists_of_value? hvalue
  obtain ⟨hnest, hcall⟩ := tail_calls_do_not_nest
  obtain ⟨hevaluate, hcomes, herror⟩ :=
    hnest 4 (loopForm 50) Session.root Machine.looping hstays rfl
  have hp : p.ComesTo 4 (.done (.int 7) n) := by
    rcases hevaluate 100 with hcut | hp
    · rw [hn] at hcut
      cases hcut
    · rwa [hn] at hp
  have hended : (Result.done (Value.int 7) n).Ended := trivial
  exact ⟨hstays, rfl, ⟨n, hp, (hcomes _ hended hp).1⟩, herror hdone, callsInPlace_loop,
    hcall _ _ _ _ _ _ _ callsInPlace_loop⟩

end AtomLisp
