import AtomLisp.Proofs.Discipline

/-! # Evaluation keeps every discipline

  A family of callers is *disciplined* when the jobs that they give on and the steps that they
  repeat keep a discipline. Then every job that they do keeps it: this is shown here for each way
  to give a job on, for macro expansion, for each special form and for each builtin.

  * `Discipline.Callers`: the family of callers is disciplined;
  * `Discipline.Ends`: what is done with a step in tail position is disciplined. The members of the
    family may differ in whether they are in tail position, so long as the ends make up for it;
  * `Callers.perform`: the jobs are disciplined, and `callers_perform`: so are all single runs.
-/

namespace AtomLisp

variable {ι β : Type}

/-- The frame that a job works in. -/
def Job.frame : Job → FrameId
  | .eval _ _ frame => frame
  | .call _ _ frame => frame

namespace Discipline

/-! ### Builtins that call nothing -/

theorem answer_still (answer : Answer) : answer.make.Still := by
  cases answer with
  | value v => exact .pure v
  | form v => exact .number v
  | list items => exact .newList items
  | vector items => exact .newVector items
  | map entries => exact .newMap entries
  | time => exact .bind .readClock fun _ => .pure _

theorem printLine_still (readable : Bool) (args : List Value) :
    (Builtin.printLine readable args).Still :=
  .bind (.read _) fun _ => .bind (.modify fun _ => ⟨rfl, rfl⟩) fun _ => .pure _

theorem promptLine_still (args : List Value) : (Builtin.promptLine args).Still :=
  .bind (.ofExcept _) fun prompt => .bind (.ask prompt) fun _ => .pure _

theorem writeCell_still (cell : CellId) (v : Value) : (Builtin.writeCell cell v).Still :=
  .bind (.modify fun _ => ⟨rfl, rfl⟩) fun _ => .pure v

theorem resetAtom_still (args : List Value) : (Builtin.resetAtom args).Still := by
  refine .bind (.ofExcept _) fun p => ?_
  split
  · exact writeCell_still _ _
  · exact .ofExcept _

/-! ### Parts of special forms that evaluate nothing -/

theorem paramNames_still (items : List Value) : (SpecialForm.paramNames items).Still := by
  induction items with
  | nil => exact .pure []
  | cons name rest ih =>
    cases name with
    | symbol name => exact ih.bind fun _ => .pure _
    | _ => exact .bind (.read _) fun _ => .fail _

theorem evalFunction_still (frame : FrameId) (parts : List Value) :
    (SpecialForm.evalFunction frame parts).Still := by
  unfold SpecialForm.evalFunction
  split
  · exact .fail _
  · split
    · exact .fail _
    · exact (paramNames_still _).bind fun _ => .bind .newSerial fun _ => .pure _

theorem only_still (form : SpecialForm) (parts : List Value) : (form.only parts).Still := by
  unfold SpecialForm.only
  split
  · exact .pure _
  · exact .fail _

mutual

theorem template_still : ∀ template : Value, (Template.expand template).Still
  | .list s items => by
    unfold Template.expand
    split
    · exact .pure _
    · exact templateItems_still items
  | .vector _ items => by
    unfold Template.expand
    exact (templateItems_still items).bind fun _ => .newList _
  | .symbol name => .newList _
  | .map s entries => .newList _
  | .nil | .bool _ | .int _ | .text _ | .atom _ | .builtin _ | .closure .. => .pure _

theorem templateItems_still : ∀ items : List Value, (Template.expandItems items).Still
  | [] => .pure _
  | item :: items => by
    unfold Template.expandItems
    apply (templateItems_still items).bind
    intro rest
    split
    · exact .newList _
    · exact (template_still item).bind fun _ => .newList _

end

theorem expandTemplate_still (template : Value) : (SpecialForm.expandTemplate template).Still := by
  refine .bind .get fun m => ?_
  split
  · exact template_still template
  · exact .fail _

/-! ### Families of callers -/

/-- A family of callers keeps a discipline. -/
structure Callers (D : Discipline ι) (c : ι → Caller) : Prop where
  work : ∀ (levels : ι → Nat) (job : Job), D.Free job.frame →
    D.Good (fun i => (c i).work (levels i) job) D.FreeStep
  /-- Repeating a step keeps what the step keeps. -/
  rounds : ∀ {β α : Type} {step : ι → β → Run (β ⊕ α)} {P : β → Prop} {Q : α → Prop},
    (∀ b, P b → D.Good (fun i => step i b) (Sum.elim P Q)) →
    ∀ b, P b → D.Good (fun i => (c i).rounds.run (step i) b) Q

/-- What a family of callers does with the step that a job ends with. `tail` tells which of them
are in tail position. -/
structure Ends (D : Discipline ι) (c : ι → Caller) (tail : ι → Bool) (last : ι → Step → Run β)
    (R : β → Prop) : Prop where
  value : ∀ v, D.Good (fun i => last i (.value v)) R
  /-- A part in the place of the job itself ends as the job does, at whatever level. -/
  part : ∀ (levels : ι → Nat) (form : Value) (frame : FrameId), D.Free frame →
    D.Good (fun i => (c i).work (levels i) (.eval (tail i) form frame) >>= last i) R
  /-- The body of a closure ends as the job does, whether it is left for later or not. -/
  body : ∀ (body : Value) (frame : FrameId), D.Free frame →
    D.Good (fun i => (if tail i then pure (.tailCall body frame)
      else .value <$> (c i).complete body frame) >>= last i) R

variable {D : Discipline ι} {c : ι → Caller}

namespace Callers

/-! ### Jobs that are given on -/

theorem onLevel (hc : D.Callers c) (levels : ι → Nat) :
    D.Callers fun i => (c i).onLevel (levels i) := ⟨hc.work, hc.rounds⟩

theorem inner (hc : D.Callers c) : D.Callers fun i => (c i).inner := hc.onLevel _

theorem settle (hc : D.Callers c) (step : Step) (hs : D.FreeStep step) :
    D.Good (fun i => (c i).settle step) fun _ => True := by
  -- A body that is left for later works in a frame that jobs may work in, and so does the next.
  have honce : ∀ s, D.FreeStep s →
      D.Good (fun i => (c i).settleOnce s) (Sum.elim D.FreeStep fun _ => True) := by
    intro s hs
    cases s with
    | value v => exact .pure trivial
    | tailCall body frame =>
      have hwork := hc.work (fun i => (c i).level + Steps.again) (.eval true body frame) hs
      exact hwork.map _ fun _ hs => hs
  exact hc.rounds honce step hs

theorem finish (hc : D.Callers c) (steps : Nat) (job : Job) (hf : D.Free job.frame) :
    D.Good (fun i => (c i).finish steps job) fun _ => True := by
  have hwork := hc.work (fun i => (c i).level + steps) job hf
  exact hwork.bind hc.settle

variable {frame : FrameId}

theorem value (hc : D.Callers c) (hf : D.Free frame) (form : Value) :
    D.Good (fun i => (c i).value form frame) fun _ => True :=
  hc.finish Steps.part (.eval false form frame) hf

theorem headValue (hc : D.Callers c) (hf : D.Free frame) (form : Value) :
    D.Good (fun i => (c i).headValue form frame) fun _ => True :=
  hc.finish Steps.head (.eval false form frame) hf

theorem complete (hc : D.Callers c) (hf : D.Free frame) (form : Value) :
    D.Good (fun i => (c i).complete form frame) fun _ => True :=
  hc.finish Steps.body (.eval true form frame) hf

theorem call (hc : D.Callers c) (hf : D.Free frame) (f : Value) (args : List Value) :
    D.Good (fun i => (c i).call f args frame) fun _ => True :=
  hc.finish Steps.call (.call f args frame) hf

theorem values (hc : D.Callers c) (hf : D.Free frame) (forms : List Value) :
    D.Good (fun i => (c i).values frame forms) fun _ => True := by
  induction forms with
  | nil => exact .pure trivial
  | cons form forms ih =>
    apply (hc.value hf form).bind
    intro v _
    exact ih.map _ fun _ _ => trivial

theorem elementValues (hc : D.Callers c) (hf : D.Free frame) (forms : List Value) :
    D.Good (fun i => (c i).elementValues frame forms) fun _ => True := by
  induction forms with
  | nil => exact .pure trivial
  | cons form forms ih =>
    apply (hc.finish Steps.element (.eval false form frame) hf).bind
    intro v _
    exact ih.map _ fun _ _ => trivial

theorem entryValues (hc : D.Callers c) (hf : D.Free frame) (entries : List (String × Value)) :
    D.Good (fun i => (c i).entryValues frame entries) fun _ => True := by
  induction entries with
  | nil => exact .pure trivial
  | cons entry entries ih =>
    apply (hc.value hf entry.2).bind
    intro v _
    exact ih.map _ fun _ _ => trivial

/-! ### Macro expansion -/

theorem expandCall (hc : D.Callers c) (call : MacroCall) :
    D.Good (fun i => (c i).expandCall call) fun _ => True := by
  apply (Good.of_still (.log _ _ _)).bind
  intro _ _
  have hbind := Good.bindParameters (D := D) call.params call.args call.home
  apply hbind.bind
  -- The body of the macro runs in the frame of its call.
  intro inner hinner
  exact hc.inner.complete hinner call.body

theorem expand (hc : D.Callers c) (frame : FrameId) (form : Value) :
    D.Good (fun i => (c i).expand frame (c i).rounds form) fun _ => True := by
  have hnext : ∀ form, True → D.Good (fun i => (c i).expandNext frame form)
      (Sum.elim (fun _ => True) fun _ => True) := by
    intro form _
    apply Good.get.bind
    intro m _
    cases m.macroCall? form frame with
    | none => exact .pure trivial
    | some call => exact (hc.expandCall call).map _ fun _ _ => trivial
  exact hc.rounds hnext form trivial

/-! ### Special forms in no tail position -/

theorem unbindable {α : Type} {Q : α → Prop} (form : SpecialForm) (v : Value) :
    D.Good (fun _ => form.unbindable v) Q :=
  (Good.of_still (.read _)).bind fun _ _ => .fail _

theorem evalDefine (hc : D.Callers c) (hf : D.Free frame) (parts : List Value) :
    D.Good (fun i => SpecialForm.evalDefine (c i) frame parts) fun _ => True := by
  unfold SpecialForm.evalDefine
  split
  · refine (hc.value hf _).bind ?_
    intro v _
    exact (Good.define hf _ v).bind fun _ _ => .pure trivial
  · exact unbindable _ _
  · exact .fail _

theorem evalDefineMacro (hc : D.Callers c) (hf : D.Free frame) (parts : List Value) :
    D.Good (fun i => SpecialForm.evalDefineMacro (c i) frame parts) fun _ => True := by
  unfold SpecialForm.evalDefineMacro
  split
  · refine (hc.value hf _).bind ?_
    intro v _
    split
    · refine (Good.of_still .newSerial).bind ?_
      intro serial _
      exact (Good.define hf _ _).bind fun _ _ => .pure trivial
    · exact .fail _
  · exact unbindable _ _
  · exact .fail _

theorem bindPairs (hc : D.Callers c) (hf : D.Free frame) : ∀ items : List Value,
    D.Good (fun i => SpecialForm.bindPairs (c i) frame items) fun _ => True
  | [] => .pure trivial
  | [name] => by cases name <;> exact .pure trivial
  | name :: form :: rest => by
    cases name with
    | symbol name =>
      apply (hc.value hf form).bind
      intro v _
      apply (Good.define hf name v).bind
      intro _ _
      exact bindPairs hc hf rest
    | _ => exact unbindable _ _

/-! ### Builtins -/

theorem swapAtom (hc : D.Callers c) (hf : D.Free frame) (args : List Value) :
    D.Good (fun i => Builtin.swapAtom (c i) frame args) fun _ => True := by
  unfold Builtin.swapAtom
  split
  · split
    · refine Good.get.bind ?_
      intro m _
      apply (hc.call hf _ _).bind
      intro v _
      exact .of_still (writeCell_still _ v)
    · exact .of_still (.ofExcept _)
  · exact .of_still (.ofExcept _)
  · exact .of_still (.ofExcept _)

theorem callEach (hc : D.Callers c) (hf : D.Free frame) (f : Value) (vs : List Value) :
    D.Good (fun i => Builtin.callEach (c i) f frame vs) fun _ => True := by
  induction vs with
  | nil => exact .pure trivial
  | cons v vs ih =>
    apply (hc.call hf f [v]).bind
    intro w _
    exact ih.map _ fun _ _ => trivial

theorem mapItems (hc : D.Callers c) (hf : D.Free frame) (args : List Value) :
    D.Good (fun i => Builtin.mapItems (c i) frame args) fun _ => True := by
  apply (Good.of_still (.ofExcept _)).bind
  intro p _
  dsimp only
  split
  · exact (hc.inner.callEach hf p.1 _).bind fun vs _ => .of_still (.newList vs)
  · exact .of_still (.ofExcept _)

theorem applyTo (hc : D.Callers c) (hf : D.Free frame) (args : List Value) :
    D.Good (fun i => Builtin.applyTo (c i) frame args) fun _ => True := by
  unfold Builtin.applyTo
  split
  · split
    · exact hc.call hf _ _
    · exact .of_still (.ofExcept _)
  · exact .of_still (.ofExcept _)

/-- The root of a frame that jobs may work in is another one. -/
theorem evalInRoot (hc : D.Callers c) (hf : D.Free frame) (args : List Value) :
    D.Good (fun i => Builtin.evalForm (c i) frame args) fun _ => True := by
  apply (Good.of_still (.ofExcept _)).bind
  intro form _
  apply Good.get.bind
  intro m hm
  have hroot : D.Free (m.frames.root frame) := D.free_root hm hf
  exact hc.inner.complete hroot form

/-- The builtins that call nothing keep still. -/
theorem action (hc : D.Callers c) (hf : D.Free frame) (a : Builtin.Action) (args : List Value) :
    D.Good (fun i => a.perform (c i) frame args) fun _ => True := by
  cases a with
  | prn => exact .of_still (printLine_still true args)
  | println => exact .of_still (printLine_still false args)
  | readline => exact .of_still (promptLine_still args)
  | atom => exact .of_still (.bind (.ofExcept _) .newAtom)
  | reset => exact .of_still (resetAtom_still args)
  | swap => exact hc.swapAtom hf args
  | map => exact hc.mapItems hf args
  | apply => exact hc.applyTo hf args
  | eval => exact hc.evalInRoot hf args

theorem builtin (hc : D.Callers c) (hf : D.Free frame) (b : Builtin) (args : List Value) :
    D.Good (fun i => b.call (c i) frame args) fun _ => True := by
  cases b with
  | query q => exact .of_still (.bind (.read _) answer_still)
  | action a => exact hc.action hf a args

end Callers

namespace Ends

variable {frame : FrameId} {tail : ι → Bool} {last : ι → Step → Run β} {R : β → Prop}

/-- A run for a value ends with that value, in tail position and elsewhere. -/
theorem ofValue (he : D.Ends c tail last R) {x : ι → Run Value} {Q : Value → Prop}
    (hx : D.Good x Q) : D.Good (fun i => Step.value <$> x i >>= last i) R := by
  simp only [map_eq_pure_bind, bind_assoc, pure_bind]
  exact hx.bind fun v _ => he.value v

theorem inPlace (he : D.Ends c tail last R) (hf : D.Free frame) (form : Value) :
    D.Good (fun i => (c i).last (tail i) form frame >>= last i) R :=
  he.part (fun i => (c i).level + Steps.part) form frame hf

/-- Forms in turn: only the last of them may be in tail position. -/
theorem sequence (he : D.Ends c tail last R) (hc : D.Callers c) (hf : D.Free frame)
    (levels : ι → Nat) (forms : List Value) :
    D.Good (fun i => ((c i).onLevel (levels i)).sequence (tail i) frame forms >>= last i) R := by
  induction forms with
  | nil => exact he.value .nil
  | cons form forms ih =>
    cases forms with
    | nil => exact he.part (fun i => levels i + Steps.part) form frame hf
    | cons next forms =>
      simp only [Caller.sequence, bind_assoc]
      apply ((hc.onLevel levels).value hf form).bind
      intro _ _
      exact ih

/-- The forms of a `let*` are evaluated in a new frame, so jobs may work in it. -/
theorem evalLet (he : D.Ends c tail last R) (hc : D.Callers c) (parts : List Value) :
    D.Good (fun i => SpecialForm.evalLet (c i) (tail i) frame parts >>= last i) R := by
  cases parts with
  | nil => exact .fail_bind _
  | cons bindings forms =>
    simp only [SpecialForm.evalLet]
    cases bindings.items? with
    | none => exact .fail_bind _
    | some items =>
      dsimp only
      split
      · simp only [bind_assoc]
        apply (Good.newFrame frame []).bind
        intro inner hinner
        apply (hc.bindPairs hinner items).bind
        intro _ _
        exact he.sequence hc hinner _ forms
      · exact .fail_bind _

theorem evalConditional (he : D.Ends c tail last R) (hc : D.Callers c) (hf : D.Free frame) :
    ∀ parts : List Value,
      D.Good (fun i => SpecialForm.evalConditional (c i) (tail i) frame parts >>= last i) R
  | [condition, yes] => by
    simp only [SpecialForm.evalConditional, bind_assoc]
    apply (hc.value hf condition).bind
    intro v _
    cases v.isTruthy with
    | true => exact he.inPlace hf yes
    | false => exact he.value .nil
  | [condition, yes, no] => by
    simp only [SpecialForm.evalConditional, bind_assoc]
    apply (hc.value hf condition).bind
    intro v _
    cases v.isTruthy with
    | true => exact he.inPlace hf yes
    | false => exact he.inPlace hf no
  | [] | [_] | _ :: _ :: _ :: _ :: _ => .fail_bind _

theorem handleError (he : D.Ends c tail last R) (name : String) (handler : Value) (e : Error) :
    D.Good (fun i => SpecialForm.handleError (c i) (tail i) frame name handler e >>= last i) R := by
  unfold SpecialForm.handleError
  cases e.caught? with
  | none => exact .fail_bind _
  | some v =>
    simp only [bind_assoc]
    apply (Good.of_still (.logCaught v)).bind
    intro _ _
    apply (Good.newFrame frame _).bind
    intro inner hinner
    exact he.inPlace hinner handler

theorem evalHandle (he : D.Ends c tail last R) (hc : D.Callers c) (hf : D.Free frame) :
    ∀ parts : List Value,
      D.Good (fun i => SpecialForm.evalHandle (c i) (tail i) frame parts >>= last i) R
  | [form] => he.inPlace hf form
  | [form, clause] => by
    simp only [SpecialForm.evalHandle]
    cases SpecialForm.clause? clause with
    | none => exact .fail_bind _
    | some named =>
      simp only [bind_assoc]
      -- The form is in no tail position, so an error in it reaches the handler.
      apply (hc.value hf form).attempt.bind
      intro r _
      cases r with
      | ok v => exact he.value v
      | error e => exact he.handleError named.1 named.2 e
  | [] | _ :: _ :: _ :: _ => .fail_bind _

theorem special (he : D.Ends c tail last R) (hc : D.Callers c) (hf : D.Free frame)
    (form : SpecialForm) (parts : List Value) :
    D.Good (fun i => form.eval (c i) (tail i) frame parts >>= last i) R := by
  cases form with
  | define => exact he.ofValue (hc.evalDefine hf parts)
  | letStar => exact he.evalLet hc parts
  | sequence => exact he.sequence hc hf (fun i => (c i).level) parts
  | conditional => exact he.evalConditional hc hf parts
  | function => exact he.ofValue (.of_still (evalFunction_still frame parts))
  | quote => exact he.ofValue (.of_still (only_still _ parts))
  | quasiquote =>
    simp only [SpecialForm.eval, bind_assoc]
    apply (Good.of_still (only_still _ parts)).bind
    intro template _
    apply (Good.of_still (expandTemplate_still template)).bind
    intro code _
    exact he.inPlace hf code
  | quasiquoteExpand =>
    simp only [SpecialForm.eval, bind_assoc, pure_bind]
    apply (Good.of_still (only_still _ parts)).bind
    intro template _
    apply (Good.of_still (expandTemplate_still template)).bind
    intro code _
    exact he.value code
  | defineMacro => exact he.ofValue (hc.evalDefineMacro hf parts)
  | expandMacro =>
    simp only [SpecialForm.eval, bind_assoc, pure_bind]
    apply (Good.of_still (only_still _ parts)).bind
    intro form _
    apply (hc.inner.expand frame form).bind
    intro v _
    exact he.value v
  | handle => exact he.evalHandle hc hf parts

/-! ### Calls and evaluation -/

theorem apply (he : D.Ends c tail last R) (hc : D.Callers c) (hf : D.Free frame) (f : Value)
    (args : List Value) :
    D.Good (fun i => (c i).apply (tail i) f args frame >>= last i) R := by
  cases f with
  | closure serial params body home isMacro =>
    simp only [Caller.apply, bind_assoc]
    apply (Good.bindParameters params args home).bind
    intro inner hinner
    exact he.body body inner hinner
  | builtin b => exact he.ofValue (hc.builtin hf b args)
  | _ =>
    simp only [Caller.apply, bind_assoc]
    exact (Good.of_still (.read _)).bind fun _ _ => .fail_bind _

theorem evalForm (he : D.Ends c tail last R) (hc : D.Callers c) (hf : D.Free frame)
    (form : Value) :
    D.Good (fun i => (c i).evalForm (tail i) form frame >>= last i) R := by
  cases form with
  | list serial parts =>
    cases parts with
    | nil => exact he.value _
    | cons head parts =>
      simp only [Caller.evalForm]
      split
      · exact he.special hc hf _ parts
      · simp only [bind_assoc]
        apply (hc.headValue hf head).bind
        intro f _
        apply (hc.values hf parts).bind
        intro args _
        exact he.apply hc hf f args
  | symbol name =>
    simp only [Caller.evalForm, bind_assoc]
    apply Good.get.bind
    intro m _
    cases m.frames.lookup? name frame with
    | some v => exact he.value v
    | none => exact .fail_bind _
  | vector serial items =>
    simp only [Caller.evalForm, bind_assoc, pure_bind]
    apply (hc.elementValues hf items).bind
    intro vs _
    apply (Good.of_still (.newVector vs)).bind
    intro v _
    exact he.value v
  | map serial entries =>
    simp only [Caller.evalForm, bind_assoc, pure_bind]
    apply (hc.entryValues hf entries).bind
    intro es _
    apply (Good.of_still (.newMap es)).bind
    intro v _
    exact he.value v
  | _ => exact he.value _

theorem eval (he : D.Ends c tail last R) (hc : D.Callers c) (hf : D.Free frame)
    (form : Value) :
    D.Good (fun i => (c i).eval (tail i) form frame >>= last i) R := by
  simp only [Caller.eval, bind_assoc]
  apply (hc.expand frame form).bind
  intro form _
  exact he.evalForm hc hf form

end Ends

namespace Callers

/-- Steps that are handed on as they are. -/
theorem ends (hc : D.Callers c) (tail : Bool) :
    D.Ends c (fun _ => tail) (fun _ => pure) D.FreeStep where
  value _ := .pure trivial
  part levels form frame hf := by
    simp only [bind_pure]
    exact hc.work levels (.eval tail form frame) hf
  body body frame hf := by
    simp only [bind_pure]
    cases tail with
    | true => exact .pure hf
    | false => exact (hc.complete hf body).map _ fun _ _ => trivial

/-- Whatever job a disciplined family of callers does, it keeps the discipline. -/
theorem perform (hc : D.Callers c) (job : Job) (hf : D.Free job.frame) :
    D.Good (fun i => (c i).perform job) D.FreeStep := by
  cases job with
  | eval tail form frame =>
    have h := (hc.ends tail).eval hc hf form
    simp only [bind_pure] at h
    exact h
  | call f args frame =>
    have h := (hc.ends false).apply hc hf f args
    simp only [bind_pure] at h
    exact h

end Callers

/-! ### Single runs -/

/-- A discipline of single runs is kept by every job, whatever its fuel and its level. -/
theorem callers_perform (D : Discipline Unit) (fuel level : Nat) :
    D.Callers fun _ => ⟨AtomLisp.perform fuel, fuel, level⟩ := by
  have hrounds : ∀ n : Nat, ∀ {β α : Type} {step : Unit → β → Run (β ⊕ α)} {P : β → Prop}
      {Q : α → Prop}, (∀ b, P b → D.Good (fun i => step i b) (Sum.elim P Q)) →
      ∀ b, P b → D.Good (fun i => (n : Rounds).run (step i) b) Q :=
    fun n _ _ _ _ _ hstep b hb => Good.iterate hstep n b hb
  induction fuel generalizing level with
  | zero => exact ⟨fun _ _ _ _ _ => ⟨D.rel_same _, fun _ => trivial⟩, hrounds 0⟩
  | succ fuel ih =>
    refine ⟨fun levels job hf => ?_, hrounds (fuel + 1)⟩
    show D.Good (fun _ => AtomLisp.perform (fuel + 1) (levels ()) job) D.FreeStep
    apply Good.get.bind
    intro m _
    -- The job is either refused, or done with one unit of fuel less.
    split
    · exact (ih (levels ())).perform job hf
    · exact .fail _

end Discipline

end AtomLisp
