import AtomLisp.Evaluation
import AtomLisp.Proofs.Renaming.Operations

/-! # Evaluation with other numbers

  Evaluation does not see the numbers of frames and serial numbers: from machines that are renamings
  of each other, a form and the same form with other numbers evaluate to results that are renamings
  of each other. This is checked for each builtin, each special form and each way to give a job on.

  * `Caller.Blind`: the jobs that a caller gives on do not see the numbers;
  * `Caller.Blind.perform`: then neither does any job that the caller does;
  * `blind_perform`: so no job at all sees them.
-/

namespace AtomLisp

open Run

/-! ### Jobs and steps with other numbers -/

namespace Renaming

/-- A step with other numbers. -/
def step (r : Renaming) : Step → Step
  | .value v => .value (r.value v)
  | .tailCall body frame => .tailCall (r.value body) (r.frameId frame)

/-- A job with other numbers. -/
def job (r : Renaming) : Job → Job
  | .eval tail form frame => .eval tail (r.value form) (r.frameId frame)
  | .call f args frame => .call (r.value f) (r.values args) (r.frameId frame)

end Renaming

namespace Machine.Knows

variable {m : Machine} {v : Value} {args : List Value} {frame : FrameId}

theorem value (hv : m.Knows Renaming.value v) : m.Knows Renaming.step (.value v) :=
  fun s t h => congrArg Step.value (hv s t h)

theorem tailCall (hv : m.Knows Renaming.value v) (hframe : m.Knows Renaming.frameId frame) :
    m.Knows Renaming.step (.tailCall v frame) :=
  fun s t h => congrArg₂ Step.tailCall (hv s t h) (hframe s t h)

theorem evalJob (tail : Bool) (hv : m.Knows Renaming.value v)
    (hframe : m.Knows Renaming.frameId frame) : m.Knows Renaming.job (.eval tail v frame) :=
  fun s t h => congrArg₂ (Job.eval tail) (hv s t h) (hframe s t h)

theorem callJob (hv : m.Knows Renaming.value v) (hargs : m.Knows Renaming.values args)
    (hframe : m.Knows Renaming.frameId frame) : m.Knows Renaming.job (.call v args frame) := by
  intro s t h
  rw [Renaming.job, Renaming.job, hv s t h, hargs s t h, hframe s t h]

end Machine.Knows

/-! ### Callers -/

/-- The jobs that a caller gives on, and the steps that it repeats, do not see the numbers. -/
structure Caller.Blind (r : Renaming) (c : Caller) : Prop where
  work : ∀ {m : Machine} (level : Nat) {job : Job}, m.Knows Renaming.job job →
    Alike r Renaming.step m (c.work level job) (c.work level (r.job job))
  rounds : ∀ {α β : Type} {act : Renaming → α → α} {act' : Renaming → β → β} {m : Machine}
    {step step' : α → Run (α ⊕ β)} {a : α},
    (∀ n a, m.Older n → n.Knows act a →
      Alike r (Renaming.sum act act') n (step a) (step' (act r a))) →
    m.Knows act a → Alike r act' m (c.rounds.run step a) (c.rounds.run step' (act r a))

namespace Caller.Blind

variable {r : Renaming} {c : Caller} {m : Machine} {frame : FrameId} {v form : Value}
  {args forms parts vs : List Value} {entries : Entries Value}

/-! ### Jobs that are given on -/

/-- Nor do the jobs that are given on from inside a part of the job. -/
theorem inner (hc : c.Blind r) : c.inner.Blind r := ⟨hc.work, hc.rounds⟩

theorem settle (hc : c.Blind r) {step : Step} (hs : m.Knows Renaming.step step) :
    Alike r Renaming.value m (c.settle step) (c.settle (r.step step)) := by
  refine hc.rounds ?_ hs
  intro n s _ hs
  cases s with
  | value v => exact .pure fun s t h => congrArg Sum.inr (Step.value.inj (hs s t h))
  | tailCall body frame =>
    -- The next round has a job whose numbers were in the step.
    have hjob : n.Knows Renaming.job (.eval true body frame) :=
      .evalJob true (fun s t h => (Step.tailCall.inj (hs s t h)).1)
        fun s t h => (Step.tailCall.inj (hs s t h)).2
    exact (hc.work _ hjob).map fun o s _ hs => ⟨fun s t h => congrArg Sum.inl (hs s t h), rfl⟩

theorem finish (hc : c.Blind r) (steps : Nat) {job : Job} (hjob : m.Knows Renaming.job job) :
    Alike r Renaming.value m (c.finish steps job) (c.finish steps (r.job job)) :=
  (hc.work _ hjob).bind fun _ _ _ hs => hc.settle hs

theorem value (hc : c.Blind r) (hv : m.Knows Renaming.value v)
    (hf : m.Knows Renaming.frameId frame) :
    Alike r Renaming.value m (c.value v frame) (c.value (r.value v) (r.frameId frame)) :=
  hc.finish Steps.part (.evalJob false hv hf)

theorem headValue (hc : c.Blind r) (hv : m.Knows Renaming.value v)
    (hf : m.Knows Renaming.frameId frame) :
    Alike r Renaming.value m (c.headValue v frame) (c.headValue (r.value v) (r.frameId frame)) :=
  hc.finish Steps.head (.evalJob false hv hf)

theorem complete (hc : c.Blind r) (hv : m.Knows Renaming.value v)
    (hf : m.Knows Renaming.frameId frame) :
    Alike r Renaming.value m (c.complete v frame) (c.complete (r.value v) (r.frameId frame)) :=
  hc.finish Steps.body (.evalJob true hv hf)

theorem call (hc : c.Blind r) (hv : m.Knows Renaming.value v)
    (hargs : m.Knows Renaming.values args) (hf : m.Knows Renaming.frameId frame) :
    Alike r Renaming.value m (c.call v args frame)
      (c.call (r.value v) (r.values args) (r.frameId frame)) :=
  hc.finish Steps.call (.callJob hv hargs hf)

theorem last (hc : c.Blind r) (tail : Bool) (hv : m.Knows Renaming.value v)
    (hf : m.Knows Renaming.frameId frame) :
    Alike r Renaming.step m (c.last tail v frame)
      (c.last tail (r.value v) (r.frameId frame)) :=
  hc.work _ (.evalJob tail hv hf)

theorem values (hc : c.Blind r) (hvs : m.Knows Renaming.values vs)
    (hf : m.Knows Renaming.frameId frame) :
    Alike r Renaming.values m (c.values frame vs) (c.values (r.frameId frame) (r.values vs)) := by
  induction vs generalizing m with
  | nil => exact .pure .nil
  | cons v vs ih =>
    refine (hc.value hvs.head hf).bind ?_
    intro n w hmn hw
    refine (ih (hvs.tail.mono hmn) (hf.mono hmn)).map ?_
    intro o ws hno hws
    exact ⟨.cons (hw.mono hno) hws, rfl⟩

theorem elementValues (hc : c.Blind r) (hvs : m.Knows Renaming.values vs)
    (hf : m.Knows Renaming.frameId frame) :
    Alike r Renaming.values m (c.elementValues frame vs)
      (c.elementValues (r.frameId frame) (r.values vs)) := by
  induction vs generalizing m with
  | nil => exact .pure .nil
  | cons v vs ih =>
    refine (hc.finish Steps.element (.evalJob false hvs.head hf)).bind ?_
    intro n w hmn hw
    refine (ih (hvs.tail.mono hmn) (hf.mono hmn)).map ?_
    intro o ws hno hws
    exact ⟨.cons (hw.mono hno) hws, rfl⟩

theorem entryValues (hc : c.Blind r) (hentries : m.Knows Renaming.entriesOf entries)
    (hf : m.Knows Renaming.frameId frame) :
    Alike r Renaming.entriesOf m (c.entryValues frame entries)
      (c.entryValues (r.frameId frame) (r.entriesOf entries)) := by
  induction entries generalizing m with
  | nil => exact .pure fun _ _ _ => rfl
  | cons e rest ih =>
    obtain ⟨k, v⟩ := e
    have hv : m.Knows Renaming.value v := fun s t h =>
      (Prod.mk.inj (List.cons.inj (hentries s t h)).1).2
    have hrest : m.Knows Renaming.entriesOf rest := fun s t h =>
      (List.cons.inj (hentries s t h)).2
    refine (hc.value hv hf).bind ?_
    intro n w hmn hw
    refine (ih (hrest.mono hmn) (hf.mono hmn)).map ?_
    intro o ws hno hws
    refine ⟨?_, rfl⟩
    intro s t h
    rw [Renaming.entriesOf, Renaming.entriesOf, hw.mono hno s t h, hws s t h]

theorem sequence (hc : c.Blind r) (tail : Bool) (hforms : m.Knows Renaming.values forms)
    (hf : m.Knows Renaming.frameId frame) :
    Alike r Renaming.step m (c.sequence tail frame forms)
      (c.sequence tail (r.frameId frame) (r.values forms)) := by
  induction forms generalizing m with
  | nil => exact .pure fun _ _ _ => rfl
  | cons form forms ih =>
    cases forms with
    | nil => exact hc.last tail hforms.head hf
    | cons next forms =>
      refine (hc.value hforms.head hf).bind ?_
      intro n _ hmn _
      exact ih (hforms.tail.mono hmn) (hf.mono hmn)

/-! ### Macro expansion -/

theorem expandCall (hc : c.Blind r) {call : MacroCall} (hbody : m.Knows Renaming.value call.body)
    (hargs : m.Knows Renaming.values call.args) :
    Alike r Renaming.value m (c.expandCall call) (c.expandCall (r.macroCall call)) := by
  refine (Alike.log _ _ _).bind ?_
  intro n _ hmn _
  refine (Alike.bindParameters call.params (hargs.mono hmn)).bind ?_
  intro o inner hno hinner
  exact hc.inner.complete (hbody.mono (hmn.trans hno)) hinner

theorem expandNext (hc : c.Blind r) (hform : m.Knows Renaming.value form) :
    Alike r (Renaming.sum Renaming.value Renaming.value) m (c.expandNext frame form)
      (c.expandNext (r.frameId frame) (r.value form)) := by
  refine .get_bind ?_
  intro n n' hmn hr
  rw [hr.macroCall? form frame]
  cases hcall : n.macroCall? form frame with
  | none =>
    have hform' := hform.mono hmn
    exact .pure fun s t h => congrArg Sum.inr (hform' s t h)
  | some call =>
    -- The body of the macro was looked up, so it is known.
    obtain ⟨hbody, hargs⟩ := hr.proper.knows_macroCall (hform.mono hmn) hcall
    exact (hc.expandCall hbody hargs).map fun o v _ hv =>
      ⟨fun s t h => congrArg Sum.inl (hv s t h), rfl⟩

theorem expand (hc : c.Blind r) (hform : m.Knows Renaming.value form) :
    Alike r Renaming.value m (c.expand frame c.rounds form)
      (c.expand (r.frameId frame) c.rounds (r.value form)) :=
  hc.rounds (fun _ _ _ hform => hc.expandNext hform) hform

/-! ### Special forms -/

theorem evalDefine (hc : c.Blind r) (h : m.Knows Renaming.values parts)
    (hf : m.Knows Renaming.frameId frame) :
    Alike r Renaming.value m (SpecialForm.evalDefine c frame parts)
      (SpecialForm.evalDefine c (r.frameId frame) (r.values parts)) := by
  match parts, h with
  | [], _ => exact SpecialForm.misuse_alike _ _
  | [v], _ => cases v <;> exact SpecialForm.misuse_alike _ _
  | [v, form], h =>
    cases v with
    | symbol name =>
      refine (hc.value h.tail.head hf).bind ?_
      intro n w hmn hw
      exact (Alike.define name hw).bind fun _ _ hno _ => .pure (hw.mono hno)
    | _ => exact SpecialForm.unbindable_alike _ h.head
  | v :: _ :: _ :: _, _ => cases v <;> exact SpecialForm.misuse_alike _ _

theorem evalDefineMacro (hc : c.Blind r) (h : m.Knows Renaming.values parts)
    (hf : m.Knows Renaming.frameId frame) :
    Alike r Renaming.value m (SpecialForm.evalDefineMacro c frame parts)
      (SpecialForm.evalDefineMacro c (r.frameId frame) (r.values parts)) := by
  match parts, h with
  | [], _ => exact SpecialForm.misuse_alike _ _
  | [v], _ => cases v <;> exact SpecialForm.misuse_alike _ _
  | [v, form], h =>
    cases v with
    | symbol name =>
      refine (hc.value h.tail.head hf).bind ?_
      intro n w hmn hw
      cases w with
      | closure serial params body home isMacro =>
        -- The macro is a closure of its own, with the next serial number.
        refine Alike.newSerial.bind ?_
        intro o serial' hno hserial
        have hfunction : o.Knows Renaming.value (.closure serial' params body home true) :=
          .closure hserial (hw.body_of_closure.mono hno) (hw.frame_of_closure.mono hno)
        exact (Alike.define name hfunction).bind fun _ _ ho _ => .pure (hfunction.mono ho)
      | _ => exact SpecialForm.misuse_alike _ _
    | _ => exact SpecialForm.unbindable_alike _ h.head
  | v :: _ :: _ :: _, _ => cases v <;> exact SpecialForm.misuse_alike _ _

theorem bindPairs (hc : c.Blind r) : ∀ {m : Machine} (items : List Value),
    m.Knows Renaming.values items → m.Knows Renaming.frameId frame →
    Alike r Renaming.plain m (SpecialForm.bindPairs c frame items)
      (SpecialForm.bindPairs c (r.frameId frame) (r.values items))
  | m, [], _, _ => .pure fun _ _ _ => rfl
  | m, [v], _, _ => by cases v <;> exact .pure fun _ _ _ => rfl
  | m, v :: form :: rest, h, hf => by
    cases v with
    | symbol name =>
      refine (hc.value h.tail.head hf).bind ?_
      intro n w hmn hw
      refine (Alike.define name hw).bind ?_
      intro o _ hno _
      exact bindPairs hc rest (h.tail.tail.mono (hmn.trans hno)) (hf.mono (hmn.trans hno))
    | _ => exact SpecialForm.unbindable_alike _ h.head

theorem evalLet (hc : c.Blind r) (tail : Bool) (h : m.Knows Renaming.values parts) :
    Alike r Renaming.step m (SpecialForm.evalLet c tail frame parts)
      (SpecialForm.evalLet c tail (r.frameId frame) (r.values parts)) := by
  cases parts with
  | nil => exact SpecialForm.misuse_alike _ _
  | cons bindings forms =>
    simp only [SpecialForm.evalLet, Renaming.values, r.items?_value]
    cases hitems : bindings.items? with
    | none => exact SpecialForm.misuse_alike _ _
    | some items =>
      simp only [Option.map_some, ← r.values_eq_map, r.length_values]
      have hnone : m.Knows Renaming.entriesOf [] := fun _ _ _ => rfl
      split
      · refine (Alike.newFrame frame hnone).bind ?_
        intro n inner hmn hinner
        refine (hc.bindPairs items ((h.head.items_of_eq hitems).mono hmn) hinner).bind ?_
        intro o _ hno _
        exact hc.inner.sequence tail (h.tail.mono (hmn.trans hno)) (hinner.mono hno)
      · exact SpecialForm.misuse_alike _ _

theorem evalConditional (hc : c.Blind r) (tail : Bool) (h : m.Knows Renaming.values parts)
    (hf : m.Knows Renaming.frameId frame) :
    Alike r Renaming.step m (SpecialForm.evalConditional c tail frame parts)
      (SpecialForm.evalConditional c tail (r.frameId frame) (r.values parts)) := by
  match parts, h with
  | [], _ | [_], _ | _ :: _ :: _ :: _ :: _, _ => exact SpecialForm.misuse_alike _ _
  | [condition, yes], h =>
    refine (hc.value h.head hf).bind ?_
    intro n v hmn _
    rw [r.isTruthy_value]
    split
    · exact hc.last tail (h.tail.head.mono hmn) (hf.mono hmn)
    · exact .pure fun _ _ _ => rfl
  | [condition, yes, no], h =>
    refine (hc.value h.head hf).bind ?_
    intro n v hmn _
    rw [r.isTruthy_value]
    split
    · exact hc.last tail (h.tail.head.mono hmn) (hf.mono hmn)
    · exact hc.last tail (h.tail.tail.head.mono hmn) (hf.mono hmn)

theorem handleError (hc : c.Blind r) (tail : Bool) (name : String) {handler : Value} {e : Error}
    (hhandler : m.Knows Renaming.value handler) (he : m.Knows Renaming.error e) :
    Alike r Renaming.step m (SpecialForm.handleError c tail frame name handler e)
      (SpecialForm.handleError c tail (r.frameId frame) name (r.value handler) (r.error e)) := by
  unfold SpecialForm.handleError
  rw [r.caught?_error]
  cases hcaught : e.caught? with
  | none => exact .fail he
  | some v =>
    -- The value is a part of the error.
    have hv : m.Knows Renaming.value v := by
      intro s t h
      have hs := s.caught?_error e
      rw [he s t h, t.caught?_error, hcaught] at hs
      exact (Option.some.inj hs).symm
    refine (Alike.logCaught v).bind ?_
    intro n _ hmn _
    have hvars : n.Knows Renaming.entriesOf [(name, v)] := by
      intro s t h
      rw [Renaming.entriesOf, Renaming.entriesOf, hv.mono hmn s t h]
      rfl
    refine (Alike.newFrame frame hvars).bind ?_
    intro o inner hno hinner
    exact hc.last tail (hhandler.mono (hmn.trans hno)) hinner

theorem evalHandle (hc : c.Blind r) (tail : Bool) (h : m.Knows Renaming.values parts)
    (hf : m.Knows Renaming.frameId frame) :
    Alike r Renaming.step m (SpecialForm.evalHandle c tail frame parts)
      (SpecialForm.evalHandle c tail (r.frameId frame) (r.values parts)) := by
  match parts, h with
  | [], _ | _ :: _ :: _ :: _, _ => exact SpecialForm.misuse_alike _ _
  | [form], h => exact hc.last tail h.head hf
  | [form, clause], h =>
    simp only [SpecialForm.evalHandle, Renaming.values, SpecialForm.clause?_value]
    cases hclause : SpecialForm.clause? clause with
    | none => exact .stop fun _ => rfl
    | some named =>
      obtain ⟨name, handler⟩ := named
      have hhandler := SpecialForm.knows_handler h.tail.head hclause
      -- The handler starts from what the form left, whether it fails or not.
      refine (hc.value h.head hf).attempt.bind ?_
      intro n o hmn ho
      cases o with
      | ok v => exact .pure fun s t h => congrArg Step.value (Except.ok.inj (ho s t h))
      | error e =>
        exact hc.handleError tail name (hhandler.mono hmn) fun s t h => Except.error.inj (ho s t h)

theorem ofValue {x x' : Run Value} (h : Alike r Renaming.value m x x') :
    Alike r Renaming.step m (Step.value <$> x) (Step.value <$> x') :=
  h.map fun _ _ _ hv => ⟨hv.value, rfl⟩

theorem special (hc : c.Blind r) (tail : Bool) (form : SpecialForm)
    (h : m.Knows Renaming.values parts) (hf : m.Knows Renaming.frameId frame) :
    Alike r Renaming.step m (form.eval c tail frame parts)
      (form.eval c tail (r.frameId frame) (r.values parts)) := by
  cases form with
  | define => exact ofValue (hc.evalDefine h hf)
  | letStar => exact hc.evalLet tail h
  | sequence => exact hc.sequence tail h hf
  | conditional => exact hc.evalConditional tail h hf
  | function => exact ofValue (SpecialForm.evalFunction_alike hf h)
  | quote => exact ofValue (SpecialForm.only_alike _ h)
  | quasiquote =>
    refine (SpecialForm.only_alike _ h).bind ?_
    intro n template hmn htemplate
    refine (SpecialForm.expandTemplate_alike htemplate).bind ?_
    intro o code hno hcode
    exact hc.last tail hcode (hf.mono (hmn.trans hno))
  | quasiquoteExpand =>
    refine (SpecialForm.only_alike _ h).bind ?_
    intro n template hmn htemplate
    exact (SpecialForm.expandTemplate_alike htemplate).bind fun _ _ _ hcode => .pure hcode.value
  | defineMacro => exact ofValue (hc.evalDefineMacro h hf)
  | expandMacro =>
    refine (SpecialForm.only_alike _ h).bind ?_
    intro n form hmn hform
    exact (hc.inner.expand hform).bind fun _ _ _ hv => .pure hv.value
  | handle => exact hc.evalHandle tail h hf

/-! ### Builtins -/

theorem swapAtom (hc : c.Blind r) (h : m.Knows Renaming.values args)
    (hf : m.Knows Renaming.frameId frame) :
    Alike r Renaming.value m (Builtin.swapAtom c frame args)
      (Builtin.swapAtom c (r.frameId frame) (r.values args)) := by
  match args, h with
  | [], _ => exact .stop fun _ => rfl
  | [v], _ => cases v <;> exact .stop fun _ => rfl
  | v :: f :: rest, h =>
    cases v with
    | atom cell =>
      simp only [Builtin.swapAtom, Renaming.values, r.value_atom, r.isFunction_value]
      split
      · refine .get_bind ?_
        intro n n' hmn hr
        rw [hr.cells, Value.content_map]
        have hcontent := hr.proper.knows_content cell
        refine (hc.call (h.tail.head.mono hmn) (.cons hcontent (h.tail.tail.mono hmn))
          (hf.mono hmn)).bind ?_
        intro o w _ hw
        exact .writeCell cell hw
      · exact .stop fun _ => rfl
    | _ => exact .stop fun _ => rfl

theorem callEach (hc : c.Blind r) {f : Value} (hv : m.Knows Renaming.value f)
    (hvs : m.Knows Renaming.values vs) (hf : m.Knows Renaming.frameId frame) :
    Alike r Renaming.values m (Builtin.callEach c f frame vs)
      (Builtin.callEach c (r.value f) (r.frameId frame) (r.values vs)) := by
  induction vs generalizing m with
  | nil => exact .pure .nil
  | cons v vs ih =>
    refine (hc.call hv (.cons hvs.head .nil) hf).bind ?_
    intro n w hmn hw
    refine (ih (hv.mono hmn) (hvs.tail.mono hmn) (hf.mono hmn)).map ?_
    intro o ws hno hws
    exact ⟨.cons (hw.mono hno) hws, rfl⟩

theorem mapItems (hc : c.Blind r) (h : m.Knows Renaming.values args)
    (hf : m.Knows Renaming.frameId frame) :
    Alike r Renaming.value m (Builtin.mapItems c frame args)
      (Builtin.mapItems c (r.frameId frame) (r.values args)) := by
  refine (Alike.two _ h).bind ?_
  rintro n ⟨f, xs⟩ hmn hfxs
  have hfn : n.Knows Renaming.value f := fun s t h => (Prod.mk.inj (hfxs s t h)).1
  have hxs : n.Knows Renaming.value xs := fun s t h => (Prod.mk.inj (hfxs s t h)).2
  simp only [Prod.map, r.isFunction_value, r.items?_value]
  cases hfun : f.isFunction with
  | false => exact .stop fun _ => rfl
  | true =>
    cases hitems : xs.items? with
    | none => exact .stop fun _ => rfl
    | some items =>
      simp only [Option.map_some, ← r.values_eq_map]
      refine (hc.inner.callEach hfn (hxs.items_of_eq hitems) (hf.mono hmn)).bind ?_
      intro o ws _ hws
      exact .newList hws

theorem applyTo (hc : c.Blind r) (h : m.Knows Renaming.values args)
    (hf : m.Knows Renaming.frameId frame) :
    Alike r Renaming.value m (Builtin.applyTo c frame args)
      (Builtin.applyTo c (r.frameId frame) (r.values args)) := by
  match args, h with
  | [], _ | [_], _ => exact .stop fun _ => rfl
  | f :: v :: vs, h =>
    have hlast : (r.values (v :: vs)).getLast (List.cons_ne_nil _ _) =
        r.value ((v :: vs).getLast (List.cons_ne_nil v vs)) := r.getLast_values _ _
    have hfront : (r.values (v :: vs)).dropLast = r.values (v :: vs).dropLast :=
      r.dropLast_values _
    simp only [Renaming.values] at hlast hfront
    simp only [Builtin.applyTo, Renaming.values, r.isFunction_value, hlast, hfront,
      r.items?_value, r.spread_values]
    cases hfun : f.isFunction with
    | false => exact .stop fun _ => rfl
    | true =>
      cases hitems : ((v :: vs).getLast (List.cons_ne_nil v vs)).items? with
      | none => exact .stop fun _ => rfl
      | some items =>
        have hargs := h.tail.dropLast.spread.append
          ((h.tail.mem (List.getLast_mem (List.cons_ne_nil v vs))).items_of_eq hitems)
        simp only [Option.map_some, ← r.values_eq_map, ← r.values_append]
        exact hc.call h.head hargs hf

theorem evalInRoot (hc : c.Blind r) (h : m.Knows Renaming.values args)
    (hf : m.Knows Renaming.frameId frame) :
    Alike r Renaming.value m (Builtin.evalForm c frame args)
      (Builtin.evalForm c (r.frameId frame) (r.values args)) := by
  refine (Alike.one _ h).bind ?_
  intro n form hmn hform
  refine .get_bind ?_
  intro o o' hno hr
  rw [hr.root]
  exact hc.inner.complete (hform.mono hno) (hf.mono (hmn.trans hno)).root

theorem builtin (hc : c.Blind r) (b : Builtin) (h : m.Knows Renaming.values args)
    (hf : m.Knows Renaming.frameId frame) :
    Alike r Renaming.value m (b.call c frame args)
      (b.call c (r.frameId frame) (r.values args)) := by
  cases b with
  | query q => exact .query q h
  | action a =>
    cases a with
    | prn => exact .printLine true h
    | println => exact .printLine false h
    | readline => exact .promptLine h
    | atom => exact (Alike.one _ h).bind fun _ _ _ hv => .newAtom hv
    | reset => exact .resetAtom h
    | swap => exact hc.swapAtom h hf
    | map => exact hc.mapItems h hf
    | apply => exact hc.applyTo h hf
    | eval => exact hc.evalInRoot h hf

/-! ### Calls and evaluation -/

theorem apply (hc : c.Blind r) (tail : Bool) {f : Value} (hv : m.Knows Renaming.value f)
    (hargs : m.Knows Renaming.values args) (hf : m.Knows Renaming.frameId frame) :
    Alike r Renaming.step m (c.apply tail f args frame)
      (c.apply tail (r.value f) (r.values args) (r.frameId frame)) := by
  cases f with
  | closure serial params body home isMacro =>
    refine (Alike.bindParameters params hargs).bind ?_
    intro n inner hmn hinner
    have hbody := hv.body_of_closure.mono hmn
    cases tail with
    | true => exact .pure (.tailCall hbody hinner)
    | false => exact ofValue (hc.complete hbody hinner)
  | builtin b => exact ofValue (hc.builtin b hargs hf)
  | _ => exact (Alike.print hv).bind fun _ _ _ _ => .stop fun _ => rfl

theorem evalForm (hc : c.Blind r) (tail : Bool) (hform : m.Knows Renaming.value form)
    (hf : m.Knows Renaming.frameId frame) :
    Alike r Renaming.step m (c.evalForm tail form frame)
      (c.evalForm tail (r.value form) (r.frameId frame)) := by
  cases form with
  | list serial parts =>
    cases parts with
    | nil => exact .pure hform.value
    | cons head parts =>
      have hparts := hform.items_of_list
      have hspecial : Caller.evalForm.specialForm? (r.value head) =
          Caller.evalForm.specialForm? head := by
        cases head <;> rfl
      simp only [Renaming.value, Renaming.values, Caller.evalForm, hspecial]
      split
      · exact hc.special tail _ hparts.tail hf
      · refine (hc.headValue hparts.head hf).bind ?_
        intro n f hmn hv
        refine (hc.values (hparts.tail.mono hmn) (hf.mono hmn)).bind ?_
        intro o args hno hargs
        exact hc.apply tail (hv.mono hno) hargs (hf.mono (hmn.trans hno))
  | symbol name =>
    refine .get_bind ?_
    intro n n' hmn hr
    rw [hr.lookup? name frame]
    cases hlookup : n.frames.lookup? name frame with
    | some v => exact .pure (hr.proper.knows_lookup? hlookup).value
    | none => exact .stop fun _ => rfl
  | vector serial items =>
    refine (hc.elementValues hform.items_of_vector hf).bind ?_
    intro n vs _ hvs
    exact (Alike.newVector hvs).bind fun _ _ _ hv => .pure hv.value
  | map serial entries =>
    refine (hc.entryValues hform.entries_of_map hf).bind ?_
    intro n es _ hes
    exact (Alike.newMap hes).bind fun _ _ _ hv => .pure hv.value
  | _ => exact .pure hform.value

theorem eval (hc : c.Blind r) (tail : Bool) (hform : m.Knows Renaming.value form)
    (hf : m.Knows Renaming.frameId frame) :
    Alike r Renaming.step m (c.eval tail form frame)
      (c.eval tail (r.value form) (r.frameId frame)) :=
  (hc.expand hform).bind fun _ _ hmn hform => hc.evalForm tail hform (hf.mono hmn)

/-- If a caller gives on jobs that do not see the numbers, no job that it does sees them. -/
theorem perform (hc : c.Blind r) {job : Job} (hjob : m.Knows Renaming.job job) :
    Alike r Renaming.step m (c.perform job) (c.perform (r.job job)) := by
  cases job with
  | eval tail form frame =>
    have hform : m.Knows Renaming.value form := fun s t h => (Job.eval.inj (hjob s t h)).2.1
    have hf : m.Knows Renaming.frameId frame := fun s t h => (Job.eval.inj (hjob s t h)).2.2
    exact hc.eval tail hform hf
  | call f args frame =>
    have hv : m.Knows Renaming.value f := fun s t h => (Job.call.inj (hjob s t h)).1
    have hargs : m.Knows Renaming.values args := fun s t h => (Job.call.inj (hjob s t h)).2.1
    have hf : m.Knows Renaming.frameId frame := fun s t h => (Job.call.inj (hjob s t h)).2.2
    exact hc.apply false hv hargs hf

end Caller.Blind

/-! ### All jobs -/

/-- Jobs do not see the numbers, whatever their fuel and their level. -/
theorem blind_perform (r : Renaming) (fuel level : Nat) :
    Caller.Blind r ⟨perform fuel, fuel, level⟩ := by
  have hrounds : ∀ {α β : Type} {act : Renaming → α → α} {act' : Renaming → β → β} {m : Machine}
      {step step' : α → Run (α ⊕ β)} {a : α} (times : Nat),
      (∀ n a, m.Older n → n.Knows act a →
        Alike r (Renaming.sum act act') n (step a) (step' (act r a))) →
      m.Knows act a →
        Alike r act' m (Run.iterate step times a) (Run.iterate step' times (act r a)) :=
    fun times hstep ha => Alike.iterate hstep times _ _ (.refl _) ha
  induction fuel generalizing level with
  | zero => exact ⟨fun _ _ _ _ _ _ _ => ⟨trivial, .unfinished⟩, hrounds 0⟩
  | succ fuel ih =>
    refine ⟨fun level job hjob => ?_, hrounds (fuel + 1)⟩
    refine .get_bind ?_
    intro n n' hmn hr
    rw [hr.host]
    -- The job is either refused, or done with one unit of fuel less.
    split
    · exact (ih level).perform (hjob.mono hmn)
    · exact .stop fun _ => rfl

/-- **Evaluation does not see the numbers of frames and serial numbers.** -/
theorem evaluate_alike (r : Renaming) (fuel : Nat) {m : Machine} {form : Value} {frame : FrameId}
    (hform : m.Knows Renaming.value form) (hframe : m.Knows Renaming.frameId frame) :
    Alike r Renaming.value m (evaluate fuel form frame)
      (evaluate fuel (r.value form) (r.frameId frame)) :=
  (blind_perform r fuel 0).complete hform hframe

end AtomLisp
