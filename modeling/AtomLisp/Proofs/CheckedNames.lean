import AtomLisp.Proofs.Shapes

/-! # Names are checked

  A frame that is given something else than a symbol to bind refuses it: that is the check of
  `Frames.defineNamed`. Evaluation does without the check, since every form that binds looks at its
  names by itself, and a function keeps the names of its parameters only. Here is evaluation with
  the check. A name is what stands in its place in the form, or the parameter of the function that
  is called; whether it is a symbol is found out by the form once, and by the frame again.

  * `Checked.define`: binds a name with the check;
  * `Checked.evaluate`: evaluation in which all names are bound with the check;
  * `Checked.evaluate_eq`: it is the same as evaluation without;
  * `evaluate_checked`: so the check never fails.
-/

namespace AtomLisp

open SpecialForm (Refusal)

/-! ### Symbols and their names -/

namespace Value

/-- The name that a symbol is. -/
def nameOf : Value → String
  | .symbol name => name
  | _ => ""

theorem isSymbol_iff (v : Value) : v.IsSymbol ↔ v = .symbol v.nameOf := by
  constructor
  · rintro ⟨name, rfl⟩
    rfl
  · exact fun h => ⟨_, h⟩

instance (v : Value) : Decidable v.IsSymbol := decidable_of_iff _ v.isSymbol_iff.symm

end Value

/-! ### Evaluation with the check -/

namespace Checked

/-- Binds what stands for a name, if the frame lets it. -/
def define (frame : FrameId) (name v : Value) : Run Unit := fun m =>
  match m.frames.defineNamed m.inspect frame name v with
  | .ok frames => .done () { m with frames }
  | .error e => .failed e m

/-- Binds one after another. -/
def defineEach (frame : FrameId) : List (Value × Value) → Run Unit
  | [] => pure ()
  | (name, v) :: rest => do
    define frame name v
    defineEach frame rest

/-- The check of a form: goes on with a symbol only. -/
def expectName (callee : String) (why : String → Misuse) (v : Value) : Run Unit :=
  if v.IsSymbol then pure () else (Refusal.stray callee why v).refuse

/-- The check of a parameter list. -/
def expectNames : List Value → Run Unit
  | [] => pure ()
  | param :: rest => do
    expectName "fn*" .parameter param
    expectNames rest

/-! #### Calls -/

/-- The parameter in front of the name for the remaining arguments. -/
def marker : Value := .symbol Parameters.restMarker

/-- Makes the frame of a call. -/
def bindArguments (formals args : List Value) (home : FrameId) : Run FrameId :=
  match formals.dropWhile (· ≠ marker) with
  | [] =>
    if args.length = formals.length then do
      let frame ← Run.newFrame home []
      defineEach frame (formals.zip args)
      return frame
    else Run.fail (.invalidArguments "fn*" (.count formals.length args.length))
  | [_, name] =>
    let required := formals.takeWhile (· ≠ marker)
    if required.length ≤ args.length then do
      let frame ← Run.newFrame home []
      defineEach frame (required.zip args)
      define frame name (← Run.newList (args.drop required.length))
      return frame
    else Run.fail (.invalidArguments "fn*" (.atLeast required.length args.length))
  | _ => Run.fail (.invalidArguments "fn*" .oneRestName)

variable (c : Caller)

/-- Calls a value from a frame. -/
def apply (tail : Bool) (f : Value) (args : List Value) (frame : FrameId) : Run Step :=
  match f with
  | .closure _ params body home _ => do
    let frame ← bindArguments (params.map .symbol) args home
    if tail then return .tailCall body frame
    else return .value (← c.complete body frame)
  | f => c.apply tail f args frame

/-- What a macro answers. -/
def expandCall (call : MacroCall) : Run Value := do
  Run.modify (·.log .debug .expansion s!"expanding macro {call.name}")
  let frame ← bindArguments (call.params.map .symbol) call.args call.home
  c.inner.complete call.body frame

/-- Expands a form once and goes on, or ends with the form if it is no macro call. -/
def expandNext (frame : FrameId) (form : Value) : Run (Value ⊕ Value) := do
  match (← Run.get).macroCall? form frame with
  | some call => return .inl (← expandCall c call)
  | none => return .inr form

/-- Expands a form until it is no macro call. -/
def expand (frame : FrameId) (form : Value) : Run Value := c.rounds.run (expandNext c frame) form

/-! #### Special forms -/

/-- Binds a name in the frame. -/
def evalDefine (frame : FrameId) : List Value → Run Value
  | [name, form] => do
    expectName "def!" .bound name
    let v ← c.value form frame
    define frame name v
    return v
  | _ => SpecialForm.define.misuse .nameAndValue

/-- Binds a macro made of a function in the frame. -/
def evalDefineMacro (frame : FrameId) : List Value → Run Value
  | [name, form] => do
    expectName "defmacro!" .bound name
    match ← c.value form frame with
    | .closure _ params body home _ =>
      let serial ← Run.newSerial
      let v := .closure serial params body home true
      define frame name v
      return v
    | _ => SpecialForm.defineMacro.misuse .macroBody
  | _ => SpecialForm.defineMacro.misuse .nameAndFunction

/-- Binds names in turn, each to the value of the form after it. -/
def bindPairs (frame : FrameId) : List Value → Run Unit
  | name :: form :: rest => do
    expectName "let*" .bound name
    let v ← c.value form frame
    define frame name v
    bindPairs frame rest
  | _ => pure ()

/-- Evaluates forms in a new frame with bindings of its own. -/
def evalLet (tail : Bool) (frame : FrameId) : List Value → Run Step
  | [] => SpecialForm.letStar.misuse .bindingList
  | bindings :: forms =>
    match bindings.items? with
    | none => SpecialForm.letStar.misuse .bindingList
    | some items =>
      if items.length % 2 = 0 then do
        let frame ← Run.newFrame frame []
        bindPairs c frame items
        c.inner.sequence tail frame forms
      else SpecialForm.letStar.misuse .bindingPairs

/-- Makes a function. -/
def evalFunction (frame : FrameId) : List Value → Run Value
  | [] => SpecialForm.function.misuse .parameterList
  | params :: forms =>
    match params.items? with
    | none => SpecialForm.function.misuse .parameterList
    | some formals => do
      expectNames formals
      let serial ← Run.newSerial
      return .closure serial (formals.map Value.nameOf) (SpecialForm.body forms) frame false

/-- What stands for the name in a clause, and the handler. -/
def clause? : Value → Option (Value × Value)
  | .list _ [keyword, name, handler] =>
    if keyword = .symbol "catch*" ∧ name.IsSymbol then some (name, handler) else none
  | _ => none

/-- Binds the value that a handler sees, and evaluates the handler. -/
def handleError (tail : Bool) (frame : FrameId) (name handler : Value) (e : Error) : Run Step :=
  match e.caught? with
  | none => Run.fail e
  | some v => do
    Run.modify (·.logCaught v)
    let frame ← Run.newFrame frame []
    define frame name v
    c.last tail handler frame

/-- Evaluates a form, and a handler if the form stops with an error. -/
def evalHandle (tail : Bool) (frame : FrameId) : List Value → Run Step
  | [form] => c.last tail form frame
  | [form, clause] =>
    match clause? clause with
    | none => Run.fail (.invalidArguments "catch*" .clause)
    | some (name, handler) => do
      match ← (c.value form frame).attempt with
      | .ok v => return .value v
      | .error e => handleError c tail frame name handler e
  | _ => SpecialForm.handle.misuse .bodyAndClause

/-- Evaluates a special form with the parts after its symbol. -/
def evalSpecial (tail : Bool) (frame : FrameId) (form : SpecialForm) (parts : List Value) :
    Run Step :=
  match form with
  | .define => .value <$> evalDefine c frame parts
  | .letStar => evalLet c tail frame parts
  | .function => .value <$> evalFunction frame parts
  | .defineMacro => .value <$> evalDefineMacro c frame parts
  | .expandMacro => do return .value (← expand c.inner frame (← form.only parts))
  | .handle => evalHandle c tail frame parts
  -- The others bind nothing.
  | form => form.eval c tail frame parts

/-! #### Jobs -/

/-- Evaluates a form that is no macro call. -/
def evalForm (tail : Bool) (form : Value) (frame : FrameId) : Run Step :=
  match form with
  | .list _ (head :: parts) =>
    match Caller.evalForm.specialForm? head with
    | some special => evalSpecial c tail frame special parts
    | none => do
      let f ← c.headValue head frame
      let args ← c.values frame parts
      apply c tail f args frame
  | form => c.evalForm tail form frame

/-- Does a job. -/
def performJob : Job → Run Step
  | .eval tail form frame => do evalForm c tail (← expand c frame form) frame
  | .call f args frame => apply c false f args frame

/-- Does a job at a level, with an amount of fuel, if the machine allows the level. -/
def perform : (fuel : Nat) → Worker
  | 0 => fun _ _ => Run.unfinished
  | fuel + 1 => fun level job => do
    if (← Run.get).host.limits.allows level then
      performJob ⟨perform fuel, fuel, level⟩ job
    else Run.fail .tooDeep

/-- The value of a form in a frame. -/
def evaluate (fuel : Nat) (form : Value) (frame : FrameId) : Run Value :=
  (⟨perform fuel, fuel, 0⟩ : Caller).complete form frame

/-! ### The check finds symbols -/

theorem define_symbol (frame : FrameId) (name : String) (v : Value) :
    define frame (.symbol name) v = Run.modify (·.define frame name v) := rfl

/-- What is no symbol is not bound. -/
theorem define_stray {m : Machine} {name : Value} (h : ¬ name.IsSymbol) {shown : String}
    (hshown : m.inspect name = .ok shown) (frame : FrameId) (v : Value) :
    define frame name v m = .failed (.invalidSymbol shown) m := by
  have hthrow : (do throw (.invalidSymbol (← m.inspect name)) : Except Error Frames) =
      .error (.invalidSymbol shown) := by
    rw [hshown]
    rfl
  have hrefused : m.frames.defineNamed m.inspect frame name v = .error (.invalidSymbol shown) := by
    cases name with
    | symbol name => exact absurd ⟨name, rfl⟩ h
    | _ => exact hthrow
  rw [define, hrefused]

theorem expectName_symbol (callee : String) (why : String → Misuse) (name : String) :
    expectName callee why (.symbol name) = pure () := if_pos ⟨name, rfl⟩

theorem expectName_stray {v : Value} (h : ¬ v.IsSymbol) (callee : String)
    (why : String → Misuse) : expectName callee why v = (Refusal.stray callee why v).refuse :=
  if_neg h

/-- Parameters that have passed the check are known by their names. -/
theorem paramNames_eq (params : List Value) :
    SpecialForm.paramNames params =
      expectNames params >>= fun _ => pure (params.map Value.nameOf) := by
  induction params with
  | nil => rfl
  | cons param rest ih =>
    by_cases h : param.IsSymbol
    · obtain ⟨name, rfl⟩ := h
      rw [SpecialForm.paramNames, ih, expectNames, expectName_symbol]
      simp only [pure_bind, bind_assoc]
      rfl
    · have hnone : ∀ p ∈ ([] : List Value), p.IsSymbol := fun _ hmem => absurd hmem List.not_mem_nil
      have hstray : SpecialForm.paramNames (param :: rest) =
          (Refusal.stray "fn*" .parameter param).refuse :=
        SpecialForm.paramNames_stray h hnone rest
      rw [hstray, expectNames, expectName_stray h, Refusal.refuse_bind, Refusal.refuse_bind]

end Checked

/-! ### Calls -/

theorem Frames.eq_of_toArray {frames frames' : Frames} (h : frames.toArray = frames'.toArray) :
    frames = frames' := by
  cases frames
  cases frames'
  cases h
  rfl

/-- To bind in a new frame is to make it with one more binding. -/
theorem Frames.define_push (frames : Frames) (outer : Option FrameId) (vars : Entries Value)
    (name : String) (v : Value) :
    (frames.push outer vars).define frames.size name v =
      frames.push outer (Entries.insert name v vars) := by
  refine eq_of_toArray (Array.ext_getElem? fun i => ?_)
  simp only [define, push, size, Array.getElem?_modify, Array.getElem?_push]
  by_cases h : frames.toArray.size = i
  · subst h
    simp only [if_true, Option.map_some]
  · simp only [if_neg h, if_neg (Ne.symm h)]

namespace Checked

/-- Names are bound in a new frame one after another. -/
theorem defineEach_pushFrame (m : Machine) (outer : Option FrameId) (pairs : List (String × Value))
    (vars : Entries Value) :
    defineEach m.frames.size (pairs.map (Prod.map .symbol id)) (m.pushFrame outer vars) =
      .done () (m.pushFrame outer (Entries.insertAll vars pairs)) := by
  induction pairs generalizing vars with
  | nil => rfl
  | cons pair rest ih =>
    have hdefine : (m.pushFrame outer vars).define m.frames.size pair.1 pair.2 =
        m.pushFrame outer (Entries.insert pair.1 pair.2 vars) := by
      rw [Machine.define, Machine.pushFrame, Machine.pushFrame, Frames.define_push]
    have hstep : define m.frames.size (.symbol pair.1) pair.2 (m.pushFrame outer vars) =
        .done () (m.pushFrame outer (Entries.insert pair.1 pair.2 vars)) := by
      rw [← hdefine]
      rfl
    rw [List.map_cons]
    show (define m.frames.size (.symbol pair.1) pair.2 >>= fun _ => defineEach m.frames.size
      (rest.map (Prod.map .symbol id))) (m.pushFrame outer vars) = _
    rw [Run.bind_apply, hstep]
    exact ih (Entries.insert pair.1 pair.2 vars)

theorem marker_test (name : String) :
    decide (Value.symbol name ≠ marker) = (name != Parameters.restMarker) := by
  simp only [marker, ne_eq, Value.symbol.injEq, bne]
  by_cases h : name = Parameters.restMarker <;> simp [h]

theorem dropWhile_marker (params : List String) :
    (params.map Value.symbol).dropWhile (· ≠ marker) =
      (params.dropWhile (· != Parameters.restMarker)).map .symbol := by
  rw [List.dropWhile_map]
  exact congrArg (fun p => (params.dropWhile p).map Value.symbol) (funext marker_test)

theorem takeWhile_marker (params : List String) :
    (params.map Value.symbol).takeWhile (· ≠ marker) =
      (params.takeWhile (· != Parameters.restMarker)).map .symbol := by
  rw [List.takeWhile_map]
  exact congrArg (fun p => (params.takeWhile p).map Value.symbol) (funext marker_test)

/-- Parameters of a function are bound as they are without the check. -/
theorem bindArguments_eq (params : List String) (args : List Value) (home : FrameId) :
    bindArguments (params.map .symbol) args home = Parameters.bind params args home := by
  unfold bindArguments Parameters.bind Parameters.assign
  rw [dropWhile_marker, takeWhile_marker]
  rcases params.dropWhile (· != Parameters.restMarker) with _ | ⟨_, _ | ⟨name, _ | ⟨_, _⟩⟩⟩
  · simp only [List.map_nil, List.length_map, List.zip_map_left]
    by_cases h : args.length = params.length
    · simp only [if_pos h]
      funext m
      simp only [Run.bind_apply, Run.newFrame, defineEach_pushFrame]
      rfl
    · simp only [if_neg h]
  · rfl
  · simp only [List.map_cons, List.map_nil, List.length_map, List.zip_map_left]
    split
    · funext m
      simp only [Run.bind_apply, Run.newFrame, defineEach_pushFrame, define_symbol, Run.modify,
        Run.newList, Run.newSerial, Run.pure_apply]
      -- The list of the remaining arguments is made in the new frame, or before it.
      simp only [Machine.define, Machine.pushFrame, Frames.define_push]
    · rfl
  · rfl

variable (c : Caller)

theorem apply_eq : apply c = c.apply := by
  funext tail f args frame
  cases f with
  | closure serial params body home isMacro =>
    simp only [apply, bindArguments_eq]
    rfl
  | _ => rfl

theorem expand_eq (frame : FrameId) (form : Value) :
    expand c frame form = c.expand frame c.rounds form := by
  have hcall : expandCall c = c.expandCall := by
    funext call
    simp only [expandCall, bindArguments_eq]
    rfl
  have hnext : expandNext c frame = c.expandNext frame := by
    funext form
    simp only [expandNext, hcall]
    rfl
  rw [expand, hnext]
  rfl

/-! ### Special forms -/

theorem evalDefine_eq (frame : FrameId) (parts : List Value) :
    evalDefine c frame parts = SpecialForm.evalDefine c frame parts := by
  obtain ⟨name, form, rfl⟩ | ⟨v, form, rfl, hv⟩ | hcount := SpecialForm.nameAndForm_cases parts
  · rw [evalDefine, expectName_symbol, pure_bind]
    rfl
  · rw [evalDefine, expectName_stray hv, Refusal.refuse_bind,
      SpecialForm.evalDefine_stray c frame hv]
  · rw [SpecialForm.evalDefine_of_length_ne c frame hcount]
    unfold evalDefine
    split
    · exact absurd rfl hcount
    · rfl

theorem evalDefineMacro_eq (frame : FrameId) (parts : List Value) :
    evalDefineMacro c frame parts = SpecialForm.evalDefineMacro c frame parts := by
  obtain ⟨name, form, rfl⟩ | ⟨v, form, rfl, hv⟩ | hcount := SpecialForm.nameAndForm_cases parts
  · rw [evalDefineMacro, expectName_symbol, pure_bind]
    rfl
  · rw [evalDefineMacro, expectName_stray hv, Refusal.refuse_bind,
      SpecialForm.evalDefineMacro_stray c frame hv]
  · rw [SpecialForm.evalDefineMacro_of_length_ne c frame hcount]
    unfold evalDefineMacro
    split
    · exact absurd rfl hcount
    · rfl

theorem bindPairs_eq (frame : FrameId) (items : List Value) :
    bindPairs c frame items = SpecialForm.bindPairs c frame items := by
  induction items using List.twoStepInduction with
  | nil => rfl
  | singleton v => cases v <;> rfl
  | cons_cons name form rest ih _ =>
    by_cases h : name.IsSymbol
    · obtain ⟨name, rfl⟩ := h
      rw [bindPairs, expectName_symbol, pure_bind, SpecialForm.bindPairs]
      simp only [ih, define_symbol]
    · rw [bindPairs, expectName_stray h, Refusal.refuse_bind]
      exact (SpecialForm.bindPairs_stray c frame h .nil form rest).symm

theorem evalLet_eq (tail : Bool) (frame : FrameId) (parts : List Value) :
    evalLet c tail frame parts = SpecialForm.evalLet c tail frame parts := by
  cases parts with
  | nil => rfl
  | cons bindings forms =>
    cases hitems : bindings.items? <;>
      simp only [evalLet, SpecialForm.evalLet, hitems, bindPairs_eq]

theorem evalFunction_eq (frame : FrameId) (parts : List Value) :
    evalFunction frame parts = SpecialForm.evalFunction frame parts := by
  cases parts with
  | nil => rfl
  | cons params forms =>
    cases hitems : params.items? <;>
      simp only [evalFunction, SpecialForm.evalFunction, hitems, paramNames_eq, bind_assoc,
        pure_bind]

/-- The check of a parameter list lets symbols through. -/
theorem isSymbol_of_expectNames {params : List Value} {m n : Machine}
    (h : expectNames params m = .done () n) : ∀ param ∈ params, param.IsSymbol := by
  induction params with
  | nil => exact fun _ hmem => absurd hmem List.not_mem_nil
  | cons param rest ih =>
    by_cases hsymbol : param.IsSymbol
    · have hrest : expectNames rest m = .done () n := by
        obtain ⟨name, rfl⟩ := hsymbol
        rwa [expectNames, expectName_symbol, pure_bind] at h
      exact List.forall_mem_cons.2 ⟨hsymbol, ih hrest⟩
    · rw [expectNames, expectName_stray hsymbol, Refusal.refuse_bind, Refusal.refuse_apply] at h
      cases h

/-- **The parameters of a function are the symbols that were written.** A macro has those of the
function that it is made of. -/
theorem evalFunction_done {frame : FrameId} {parts : List Value} {m n : Machine} {v : Value}
    (h : evalFunction frame parts m = .done v n) :
    ∃ params forms serial names, parts = params :: forms ∧
      params.items? = some (names.map .symbol) ∧
      v = .closure serial names (SpecialForm.body forms) frame false := by
  cases parts with
  | nil => cases h
  | cons params forms =>
    cases hitems : params.items? with
    | none =>
      simp only [evalFunction, hitems] at h
      cases h
    | some formals =>
      simp only [evalFunction, hitems, Run.bind_eq_done_iff] at h
      obtain ⟨⟨⟩, m', hcheck, serial, n', -, hvalue⟩ := h
      have hnames : (formals.map Value.nameOf).map .symbol = formals := by
        have hsame : ∀ param ∈ formals, (Value.symbol ∘ Value.nameOf) param = id param :=
          fun param hmem => (param.isSymbol_iff.1 (isSymbol_of_expectNames hcheck param hmem)).symm
        rw [List.map_map, List.map_congr_left hsame, List.map_id]
      cases hvalue
      exact ⟨params, forms, serial, formals.map Value.nameOf, rfl, hnames.symm ▸ hitems, rfl⟩

theorem clause?_eq (v : Value) :
    clause? v = (SpecialForm.clause? v).map (Prod.map .symbol id) := by
  by_cases h : SpecialForm.IsClause v
  · obtain ⟨serial, name, handler, rfl⟩ := h
    exact if_pos ⟨rfl, name, rfl⟩
  · rw [SpecialForm.clause?_eq_none_iff.2 h]
    unfold clause?
    split
    · next serial keyword name handler =>
      rw [if_neg]
      · rfl
      · rintro ⟨rfl, name, rfl⟩
        exact h ⟨serial, name, handler, rfl⟩
    · rfl

theorem handleError_eq (tail : Bool) (frame : FrameId) (name : String) (handler : Value)
    (e : Error) :
    handleError c tail frame (.symbol name) handler e =
      SpecialForm.handleError c tail frame name handler e := by
  unfold handleError SpecialForm.handleError
  cases e.caught? with
  | none => rfl
  | some v =>
    funext m
    simp only [Run.bind_apply, Run.modify, Run.newFrame, define_symbol, Machine.define,
      Machine.pushFrame, Frames.define_push]
    rfl

theorem evalHandle_eq (tail : Bool) (frame : FrameId) (parts : List Value) :
    evalHandle c tail frame parts = SpecialForm.evalHandle c tail frame parts := by
  rcases parts with _ | ⟨form, _ | ⟨clause, _ | ⟨_, _⟩⟩⟩
  · rfl
  · rfl
  · simp only [evalHandle, SpecialForm.evalHandle, clause?_eq]
    cases SpecialForm.clause? clause with
    | none => rfl
    | some parts =>
      simp only [Option.map_some, Prod.map, handleError_eq]
      rfl
  · rfl

theorem evalSpecial_eq (tail : Bool) (frame : FrameId) (special : SpecialForm)
    (parts : List Value) :
    evalSpecial c tail frame special parts = special.eval c tail frame parts := by
  cases special with
  | define => exact congrArg (Step.value <$> ·) (evalDefine_eq c frame parts)
  | letStar => exact evalLet_eq c tail frame parts
  | function => exact congrArg (Step.value <$> ·) (evalFunction_eq frame parts)
  | defineMacro => exact congrArg (Step.value <$> ·) (evalDefineMacro_eq c frame parts)
  | expandMacro =>
    simp only [evalSpecial, SpecialForm.eval, expand_eq]
    rfl
  | handle => exact evalHandle_eq c tail frame parts
  | _ => rfl

/-! ### Jobs -/

theorem evalForm_eq (tail : Bool) (form : Value) (frame : FrameId) :
    evalForm c tail form frame = c.evalForm tail form frame := by
  cases form with
  | list serial items =>
    cases items with
    | nil => rfl
    | cons head parts =>
      cases hspecial : Caller.evalForm.specialForm? head <;>
        simp only [evalForm, Caller.evalForm, hspecial, evalSpecial_eq, apply_eq]
  | _ => rfl

theorem performJob_eq (job : Job) : performJob c job = c.perform job := by
  cases job with
  | eval tail form frame =>
    simp only [performJob, expand_eq, evalForm_eq]
    rfl
  | call f args frame =>
    rw [performJob, apply_eq]
    rfl

/-- However much fuel there is, the check changes nothing. -/
theorem perform_eq (fuel : Nat) : perform fuel = AtomLisp.perform fuel := by
  induction fuel with
  | zero => rfl
  | succ fuel ih =>
    funext level job
    simp only [perform, AtomLisp.perform, ih, performJob_eq]

/-- **Evaluation with the check is evaluation without it.** -/
theorem evaluate_eq (fuel : Nat) : evaluate fuel = AtomLisp.evaluate fuel := by
  funext form frame
  rw [evaluate, perform_eq]
  rfl

end Checked

/-- **Only symbols are bound.** Names could be bound with the check of the frames, which refuses
what is no symbol:

  * a function is made of a parameter list of symbols, and binds these when it is called;
  * whatever is evaluated, on whatever machine: with the check or without it, in definitions, macro
    definitions, `let*`, handlers, and calls of functions and macros, evaluation is the same;
  * so it never ends with a name that is refused. -/
theorem evaluate_checked :
    (∀ (frame : FrameId) (name v : Value) (m : Machine) (shown : String), ¬ name.IsSymbol →
      m.inspect name = .ok shown →
        Checked.define frame name v m = .failed (.invalidSymbol shown) m) ∧
    (∀ (frame : FrameId) (parts : List Value) (m n : Machine) (v : Value),
      Checked.evalFunction frame parts m = .done v n →
        ∃ params forms serial names, parts = params :: forms ∧
          params.items? = some (names.map .symbol) ∧
          v = .closure serial names (SpecialForm.body forms) frame false) ∧
    ∀ (fuel : Nat) (form : Value) (frame : FrameId) (m : Machine),
      Checked.evaluate fuel form frame m = evaluate fuel form frame m ∧
        ∀ shown n, evaluate fuel form frame m ≠ .failed (.invalidSymbol shown) n := by
  refine ⟨fun frame name v m shown hname hshown => Checked.define_stray hname hshown frame v,
    fun frame parts m n v h => Checked.evalFunction_done h, fun fuel form frame m => ⟨?_, ?_⟩⟩
  · rw [Checked.evaluate_eq]
  · -- Without the check, nothing accounts for the error.
    exact fun shown n hfailed => ((regular_evaluate fuel form frame).follows hfailed).2

/-- A frame refuses 5 as a name. In `(do (def! f (fn* (x & rest) x)) (f 7 8))` all names pass the
check, and the value is 7. -/
theorem evaluate_checked_call :
    let function := .form [.symbol "fn*", .form [.symbol "x", .symbol "&", .symbol "rest"],
      .symbol "x"]
    let form := .form [.symbol "do", .form [.symbol "def!", .symbol "f", function],
      .form [.symbol "f", .int 7, .int 8]]
    Checked.define Session.root (.int 5) .nil Machine.bare =
        .failed (.invalidSymbol "5") Machine.bare ∧
      (evaluate 9 form Session.root Machine.bare).value? = some (.int 7) ∧
      (Checked.evaluate 9 form Session.root Machine.bare).value? = some (.int 7) := by
  intro function form
  have hshown : Machine.bare.inspect (.int 5) = .ok "5" := by decide +kernel
  have hvalue : (evaluate 9 form Session.root Machine.bare).value? = some (.int 7) := by
    decide +kernel
  obtain ⟨hrefused, -, hsame⟩ := evaluate_checked
  refine ⟨hrefused Session.root (.int 5) .nil Machine.bare "5" (Value.not_isSymbol_int 5) hshown,
    hvalue, ?_⟩
  rw [(hsame 9 form Session.root Machine.bare).1]
  exact hvalue

end AtomLisp
