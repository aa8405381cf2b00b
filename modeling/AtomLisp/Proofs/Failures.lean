import AtomLisp.Proofs.Conduct
import AtomLisp.Proofs.Handlers

/-! # Failures

  Almost every error of a builtin can be caught by the program. What cannot comes of an integer
  that has too many digits for a text, of a file: its path holds NUL, or its bytes are no UTF-8;
  or of the input, where a piece of it cannot be read.

  * `Builtin.GivesOn`: the functions and forms that a builtin waits for, and
    `Builtin.swapAtom_cases` and its like: where the arguments do not fit, it waits for nothing;
  * `Builtin.Outcome`: how a builtin ends, and `Builtin.call_outcome`: there is no other end;
  * `Machine.LetsEscape`: the errors that programs stop with although they could be caught if they
    had a message;
  * `builtin_failures`: what this means for calls, for programs, and for programs with a handler.
-/

namespace AtomLisp

variable {c : Caller} {frame : FrameId} {args : List Value} {m n : Machine}

/-! ### Builtins -/

namespace Builtin

/-- A builtin waits for a function that it calls, or for a form that it evaluates. The elements of a
sequence and the forms are given on a step deeper. -/
inductive GivesOn (c : Caller) (frame : FrameId) : Builtin → Run Value → Prop
  | call {a : Action} (ha : a = .swap ∨ a = .apply) (f : Value) (args : List Value) :
    GivesOn c frame (.action a) (c.call f args frame)
  | map (f v : Value) : GivesOn c frame (.action .map) (c.inner.call f [v] frame)
  | eval (form : Value) (m : Machine) :
    GivesOn c frame (.action .eval) (c.inner.complete form (m.frames.root frame))

/-! ### Arguments that fit -/

section Arguments

variable {f last xs : Value} {cell : CellId} {rest vs items : List Value}

theorem swapAtom_eq (c : Caller) (frame : FrameId) (hf : f.isFunction = true) :
    swapAtom c frame (.atom cell :: f :: rest) = (do
      let m ← Run.get
      writeCell cell (← c.call f (m.cells.content cell :: rest) frame)) :=
  if_pos hf

theorem mapItems_eq (c : Caller) (frame : FrameId) (hf : f.isFunction = true)
    (hxs : xs.items? = some items) :
    mapItems c frame [f, xs] = (do Run.newList (← callEach c.inner f frame items)) := by
  simp only [mapItems, Arguments.two, Run.ofExcept, pure_bind, hf, hxs]

theorem applyTo_eq (c : Caller) (frame : FrameId) (hf : f.isFunction = true)
    (hlast : last.items? = some items) :
    applyTo c frame (f :: (vs ++ [last])) = c.call f (spread vs ++ items) frame := by
  obtain ⟨v, vs', hvs⟩ := List.exists_cons_of_ne_nil (List.concat_ne_nil last vs)
  have hdrop : (v :: vs').dropLast = vs := by rw [← hvs, List.dropLast_concat]
  have hget : (v :: vs').getLast (List.cons_ne_nil v vs') = last := by
    simp only [← hvs, List.getLast_concat]
  rw [hvs, applyTo, hf, hget, hlast, hdrop]

/-- The arguments fit, or the call is refused whatever the caller would do. -/
theorem swapAtom_cases (frame : FrameId) (args : List Value) :
    (∃ cell f rest, args = .atom cell :: f :: rest ∧ f.isFunction = true) ∨
      ∃ r : Error, (∀ c, swapAtom c frame args = Run.fail r) ∧ r.IsPlain := by
  rcases args with _ | ⟨v, _ | ⟨f, rest⟩⟩
  · exact .inr ⟨_, fun _ => rfl, trivial⟩
  · refine .inr ⟨.invalidArguments Action.swap.name .atomAndFunction, fun _ => ?_, trivial⟩
    cases v <;> rfl
  · cases v with
    | atom cell =>
      by_cases hf : f.isFunction = true
      · exact .inl ⟨cell, f, rest, rfl, hf⟩
      · exact .inr ⟨_, fun _ => if_neg hf, trivial⟩
    | _ => exact .inr ⟨_, fun _ => rfl, trivial⟩

theorem mapItems_cases (frame : FrameId) (args : List Value) :
    (∃ f xs items, args = [f, xs] ∧ f.isFunction = true ∧ xs.items? = some items) ∨
      ∃ r : Error, (∀ c, mapItems c frame args = Run.fail r) ∧ r.IsPlain := by
  rcases args with _ | ⟨f, _ | ⟨xs, _ | ⟨_, _⟩⟩⟩
  · exact .inr ⟨_, fun _ => rfl, trivial⟩
  · exact .inr ⟨_, fun _ => rfl, trivial⟩
  · simp only [mapItems, Arguments.two, Run.ofExcept, pure_bind]
    cases hf : f.isFunction with
    | false => exact .inr ⟨_, fun _ => rfl, trivial⟩
    | true =>
      cases hxs : xs.items? with
      | none => exact .inr ⟨_, fun _ => rfl, trivial⟩
      | some items => exact .inl ⟨f, xs, items, rfl, hf, hxs⟩
  · exact .inr ⟨_, fun _ => rfl, trivial⟩

theorem applyTo_cases (frame : FrameId) (args : List Value) :
    (∃ f vs last items, args = f :: (vs ++ [last]) ∧ f.isFunction = true ∧
      last.items? = some items) ∨
      ∃ r : Error, (∀ c, applyTo c frame args = Run.fail r) ∧ r.IsPlain := by
  rcases args with _ | ⟨f, _ | ⟨v, vs⟩⟩
  · exact .inr ⟨_, fun _ => rfl, trivial⟩
  · exact .inr ⟨_, fun _ => rfl, trivial⟩
  · simp only [applyTo]
    cases hf : f.isFunction with
    | false => exact .inr ⟨_, fun _ => rfl, trivial⟩
    | true =>
      cases hlast : ((v :: vs).getLast (List.cons_ne_nil v vs)).items? with
      | none => exact .inr ⟨_, fun _ => rfl, trivial⟩
      | some items =>
        exact .inl ⟨f, _, _, items, by rw [List.dropLast_append_getLast], hf, hlast⟩

theorem evalForm_cases (frame : FrameId) (args : List Value) :
    (∃ form, args = [form]) ∨
      ∃ r : Error, (∀ c, evalForm c frame args = Run.fail r) ∧ r.IsPlain := by
  rcases args with _ | ⟨form, _ | ⟨_, _⟩⟩
  · exact .inr ⟨_, fun _ => rfl, trivial⟩
  · exact .inl ⟨form, rfl⟩
  · exact .inr ⟨_, fun _ => rfl, trivial⟩

end Arguments

/-! ### Ends -/

/-- How a builtin ends that is called from a frame. -/
inductive Outcome (c : Caller) (frame : FrameId) (args : List Value) (m : Machine) (b : Builtin) :
    Result Value → Prop
  | value (v : Value) (n : Machine) : Outcome c frame args m b (.done v n)
  /-- With an error of its own, and then nothing has changed. -/
  | error {e : Error} (h : b.Raises m args e) : Outcome c frame args m b (.failed e m)
  /-- A prompt is written, and then the input cannot be read. -/
  | interrupted (hb : b = .action .readline) {prompt : String} (hargs : args = [.text prompt])
    {f : InputFault} {rest : Input} (hinput : m.input.Splits (.error f) rest) :
    Outcome c frame args m b (.failed (.badInput f) { m.write prompt with input := rest })
  /-- With the error of what it waits for. -/
  | passed {y : Run Value} (hy : b.GivesOn c frame y) {n o : Machine} {e : Error}
    (h : y n = .failed e o) : Outcome c frame args m b (.failed e o)
  | unfinished {y : Run Value} (hy : b.GivesOn c frame y) {n : Machine} (h : y n = .unfinished) :
    Outcome c frame args m b .unfinished

variable {b : Builtin}

/-- What a builtin waits for decides how it ends, if it goes no further. -/
theorem outcome_of_givesOn {y : Run Value} (hy : b.GivesOn c frame y) (n : Machine) :
    b.Outcome c frame args m (y n) := by
  cases h : y n with
  | done v o => exact .value v o
  | failed e o => exact .passed hy h
  | unfinished => exact .unfinished hy h

theorem outcome_bind_givesOn {y : Run Value} (hy : b.GivesOn c frame y) {f : Value → Run Value}
    (hf : ∀ v o, ∃ w p, f v o = .done w p) (n : Machine) :
    b.Outcome c frame args m ((y >>= f) n) := by
  rw [Run.bind_apply]
  cases h : y n with
  | done v o =>
    obtain ⟨w, p, hw⟩ := hf v o
    simp only [hw]
    exact .value w p
  | failed e o => exact .passed hy h
  | unfinished => exact .unfinished hy h

theorem outcome_ofExcept {x : Except Error α} (hx : PlainErrors x) {f : α → Run Value}
    (hf : ∀ a, x = .ok a → b.Outcome c frame args m (f a m)) :
    b.Outcome c frame args m ((Run.ofExcept x >>= f) m) := by
  cases h : x with
  | ok a => exact hf a h
  | error e => exact .error (.plain (hx e h))

theorem outcome_refusal {r : Error} (hr : r.IsPlain) :
    b.Outcome c frame args m (Run.fail r m) := .error (.plain hr)

theorem exists_make (answer : Answer) (m : Machine) : ∃ v n, answer.make m = .done v n := by
  cases answer <;> exact ⟨_, _, rfl⟩

theorem query_outcome (q : Query) :
    Outcome c frame args m (.query q) (Builtin.call c frame args (.query q) m) := by
  cases hanswer : q.answer m args with
  | ok answer =>
    obtain ⟨v, n, hv⟩ := exists_make answer m
    rw [call_of_ok c frame hanswer, hv]
    exact .value v n
  | error e =>
    rw [call_of_error c frame hanswer]
    exact .error (answer_raises q m args e hanswer)

theorem printLine_outcome (hb : b.Shows) (readable : Bool) :
    b.Outcome c frame args m (printLine readable args m) := by
  unfold printLine
  rw [Run.bind_apply, Run.read]
  cases hprint : m.printAll readable " " args with
  | ok text => exact .value _ _
  | error e => exact .error (printAll_errors hb readable " " e hprint)

theorem eq_of_oneText {callee prompt : String} (h : Arguments.oneText callee args = .ok prompt) :
    args = [.text prompt] := by
  rcases args with _ | ⟨v, _ | ⟨_, _⟩⟩
  · cases h
  · cases v with
    | text s =>
      cases h
      rfl
    | _ => cases h
  · cases h

theorem promptLine_outcome :
    Outcome c frame args m (.action .readline) (promptLine args m) := by
  refine outcome_ofExcept (Arguments.oneText_plain _ args) fun prompt hprompt => ?_
  have hsplits := m.input.splits_takeLine
  rw [Run.bind_apply]
  -- Whether there is a line or not, a value comes of it; not so of a fault.
  cases hline : m.input.takeLine.1 with
  | ok line =>
    rw [hline] at hsplits
    rw [Run.ask_of_ok hsplits]
    exact .value _ _
  | error f =>
    rw [hline] at hsplits
    rw [Run.ask_of_error hsplits]
    exact .interrupted rfl (eq_of_oneText hprompt) hsplits

theorem resetAtom_outcome : b.Outcome c frame args m (resetAtom args m) := by
  refine outcome_ofExcept (Arguments.two_plain _ args) fun p _ => ?_
  split
  · exact .value _ _
  · exact outcome_refusal trivial

theorem swapAtom_outcome : Outcome c frame args m (.action .swap) (swapAtom c frame args m) := by
  obtain ⟨cell, f, rest, rfl, hf⟩ | ⟨r, hr, hplain⟩ := swapAtom_cases frame args
  · rw [swapAtom_eq c frame hf]
    exact outcome_bind_givesOn (.call (.inl rfl) f _) (fun _ _ => ⟨_, _, rfl⟩) m
  · rw [hr]
    exact outcome_refusal hplain

/-- The calls end one after another, up to one that does not end with a value. -/
theorem callEach_cases (f : Value) (vs : List Value) (n : Machine) :
    (∃ ws o, callEach c f frame vs n = .done ws o) ∨
      ∃ v o, (∃ e p, c.call f [v] frame o = .failed e p ∧ callEach c f frame vs n = .failed e p) ∨
        c.call f [v] frame o = .unfinished ∧ callEach c f frame vs n = .unfinished := by
  induction vs generalizing n with
  | nil => exact .inl ⟨[], n, rfl⟩
  | cons v vs ih =>
    rw [callEach, Run.bind_apply]
    cases hcall : c.call f [v] frame n with
    | failed e p => exact .inr ⟨v, n, .inl ⟨e, p, hcall, rfl⟩⟩
    | unfinished => exact .inr ⟨v, n, .inr ⟨hcall, rfl⟩⟩
    | done w o =>
      simp only [Run.bind_apply]
      rcases ih o with ⟨ws, p, hrest⟩ | ⟨v', o', ⟨e, p, hv', hrest⟩ | ⟨hv', hrest⟩⟩
      · exact .inl ⟨w :: ws, p, by rw [hrest]; rfl⟩
      · exact .inr ⟨v', o', .inl ⟨e, p, hv', by rw [hrest]⟩⟩
      · exact .inr ⟨v', o', .inr ⟨hv', by rw [hrest]⟩⟩

theorem mapItems_outcome : Outcome c frame args m (.action .map) (mapItems c frame args m) := by
  obtain ⟨f, xs, items, rfl, hf, hxs⟩ | ⟨r, hr, hplain⟩ := mapItems_cases frame args
  · rw [mapItems_eq c frame hf hxs, Run.bind_apply]
    rcases callEach_cases (c := c.inner) f items m with
      ⟨ws, o, hws⟩ | ⟨v, o, ⟨e, p, hv, hrest⟩ | ⟨hv, hrest⟩⟩
    · rw [hws]
      exact .value _ _
    · rw [hrest]
      exact .passed (.map f v) hv
    · rw [hrest]
      exact .unfinished (.map f v) hv
  · rw [hr]
    exact outcome_refusal hplain

theorem applyTo_outcome : Outcome c frame args m (.action .apply) (applyTo c frame args m) := by
  obtain ⟨f, vs, last, items, rfl, hf, hlast⟩ | ⟨r, hr, hplain⟩ := applyTo_cases frame args
  · rw [applyTo_eq c frame hf hlast]
    exact outcome_of_givesOn (.call (.inr rfl) _ _) m
  · rw [hr]
    exact outcome_refusal hplain

theorem evalForm_outcome : Outcome c frame args m (.action .eval) (evalForm c frame args m) := by
  obtain ⟨form, rfl⟩ | ⟨r, hr, hplain⟩ := evalForm_cases frame args
  · exact outcome_of_givesOn (.eval form m) m
  · rw [hr]
    exact outcome_refusal hplain

/-- **A builtin has no other end.** -/
theorem call_outcome (c : Caller) (frame : FrameId) (args : List Value) (m : Machine)
    (b : Builtin) : b.Outcome c frame args m (b.call c frame args m) := by
  cases b with
  | query q => exact query_outcome q
  | action a =>
    cases a with
    | prn => exact printLine_outcome (b := .action .prn) trivial true
    | println => exact printLine_outcome (b := .action .println) trivial false
    | readline => exact promptLine_outcome
    | atom => exact outcome_ofExcept (Arguments.one_plain _ args) fun v _ => .value _ _
    | reset => exact resetAtom_outcome
    | swap => exact swapAtom_outcome
    | map => exact mapItems_outcome
    | apply => exact applyTo_outcome
    | eval => exact evalForm_outcome

end Builtin

/-! ### Programs -/

/-- The errors of programs that no handler sees. -/
def Machine.LetsEscape (m : Machine) (e : Error) : Prop :=
  e = .numeralTooLong ∨ e = .nulInPath ∨ e = .undecodable ∧ m.host.files.HoldsUndecodable ∨
    ∃ f, e = .badInput f ∧ m.input.Holds f

/-- Whatever is evaluated, no other errors go past the handlers. -/
theorem letsEscape_of_evaluate {fuel : Nat} {form : Value} {e : Error}
    (h : evaluate fuel form frame m = .failed e n) (he : e.isFatal = true) : m.LetsEscape e := by
  have hregular : m.Precedes n ∧ m.AccountFor n e := (regular_evaluate fuel form frame).follows h
  have haccount : m.AccountFor n e := hregular.2
  cases e with
  | numeralTooLong => exact .inl rfl
  | nulInPath => exact .inr (.inl rfl)
  | undecodable => exact .inr (.inr (.inl ⟨rfl, haccount⟩))
  | badInput f => exact .inr (.inr (.inr ⟨f, rfl, haccount⟩))
  | preludeUnreadable => cases haccount
  | _ => cases he

/-- The handler never fails, wherever it is evaluated. -/
def Handles (handler : Value) : Prop :=
  ∀ (fuel : Nat) (inner : FrameId) (n : Machine), n.Unlimited →
    ∀ e o, evaluate fuel handler inner n ≠ .failed e o

/-- A handler that never fails lets nothing through but what it does not see. -/
theorem failed_of_tryForm (serial clause : Serial) (body : Value) (name : String) {handler : Value}
    (hhandler : Handles handler) (hplain : m.NoMacro "try*" frame) (hm : m.Unlimited) {fuel : Nat}
    {e : Error}
    (h : evaluate fuel (tryForm serial clause body name handler) frame m = .failed e n) :
    e.isFatal = true ∧ ∃ fuel', evaluate fuel' body frame m = .failed e n := by
  have hparts := finish_tryForm_iff serial clause body name handler hplain hm Steps.body true
    (r := .failed e n) trivial
  obtain ⟨fuel', hcatching⟩ := hparts.1 ⟨fuel, h⟩
  cases hbody : evaluate fuel' body frame m with
  | done v o =>
    rw [Run.catching_of_done hbody] at hcatching
    cases hcatching
  | unfinished =>
    rw [Run.catching_of_unfinished hbody] at hcatching
    cases hcatching
  | failed e' o =>
    rw [Run.catching_of_failed hbody] at hcatching
    cases hcaught : e'.caught? with
    | none =>
      rw [hcaught] at hcatching
      cases hcatching
      exact ⟨by simp [Error.isFatal, hcaught], fuel', hbody⟩
    | some v =>
      -- The handler would have failed.
      rw [hcaught] at hcatching
      have hregular : m.Precedes o ∧ m.AccountFor o e' :=
        (regular_evaluate fuel' body frame).follows hbody
      have hlogged : (o.logCaught v).host = m.host :=
        (Machine.Precedes.logCaught o v).host.trans hregular.1.host
      have hunlimited : ((o.logCaught v).pushFrame (some frame) [(name, v)]).Unlimited := by
        show (o.logCaught v).host.Unlimited
        rw [hlogged]
        exact hm
      exact absurd hcatching (hhandler fuel' _ _ hunlimited e n)

theorem caught_of_raises {b : Builtin} {e : Error} (h : b.Raises m args e) :
    e.isFatal = false ∨ b.Uncatchable m args e := by
  cases h with
  | plain h => exact .inl (by cases e <;> first | rfl | cases h)
  | thrown => exact .inl rfl
  | uncatchable h => exact .inr h

/-! ### What can go past handlers -/

/-- **Which errors no handler sees.** From every machine:

  * a builtin ends with a value, or with an error that a handler sees, or with one of the few
    others, and then nothing has changed; or, if it is `readline`, with an error that no handler
    sees, at a fault of the input; or it ends as a function does that it calls or a form that it
    evaluates: the other builtins always come to an end;
  * a program stops with an error that no handler sees only if an integer has too many digits for
    a text, the path of a file holds NUL, the bytes of a file are no UTF-8, or the input has a
    fault;
  * so does a form with a handler that never fails, and then its body does. -/
theorem builtin_failures (m : Machine) :
    (∀ (b : Builtin) (args : List Value) (frame : FrameId),
      (∀ e, b.Raises m args e → e.isFatal = false ∨ b.Uncatchable m args e) ∧
        ∀ fuel level, m.host.limits.allows level = true →
          ∃ r, perform (fuel + 1) level (.call (.builtin b) args frame) m = r.map .value ∧
            b.Outcome ⟨perform fuel, fuel, level⟩ frame args m r) ∧
    (∀ fuel form frame e n, evaluate fuel form frame m = .failed e n → e.isFatal = true →
      m.LetsEscape e) ∧
    (m.Unlimited → ∀ serial clause body name handler frame, m.NoMacro "try*" frame →
      Handles handler → ∀ fuel e n,
        evaluate fuel (tryForm serial clause body name handler) frame m = .failed e n →
          m.LetsEscape e ∧ ∃ fuel', evaluate fuel' body frame m = .failed e n) := by
  refine ⟨fun b args frame => ⟨fun e he => caught_of_raises he, fun fuel level hallows => ?_⟩,
    fun fuel form frame e n h he => letsEscape_of_evaluate h he, ?_⟩
  · refine ⟨_, ?_, Builtin.call_outcome ⟨perform fuel, fuel, level⟩ frame args m b⟩
    show (if m.host.limits.allows level = true then
      Caller.perform ⟨perform fuel, fuel, level⟩ (.call (.builtin b) args frame)
        else Run.fail .tooDeep) m = _
    rw [if_pos hallows]
    show (do return Step.value (← b.call ⟨perform fuel, fuel, level⟩ frame args) : Run Step) m = _
    rw [Run.bind_apply]
    cases b.call ⟨perform fuel, fuel, level⟩ frame args m <;> rfl
  · intro hm serial clause body name handler frame hplain hhandler fuel e n h
    obtain ⟨he, fuel', hbody⟩ :=
      failed_of_tryForm serial clause body name hhandler hplain hm h
    exact ⟨letsEscape_of_evaluate hbody he, fuel', hbody⟩

/-- An integer as a handler never fails. -/
theorem handles_int (i : Int) : Handles (.int i) := by
  intro fuel inner n hn e o h
  have hcomplete := (evaluate_iff hn (.int i) inner (r := .failed e o) trivial).1 ⟨fuel, h⟩
  rw [Caller.complete_of_evalForm rfl rfl] at hcomplete
  cases hcomplete

/-- `(slurp "a\x00b")`, whose path cannot be that of a file. -/
def slurpNul : Value := .form [.symbol "slurp", .text "a\x00b"]

/-- The handler of `(try* (slurp "a\x00b") (catch* e 1))` never fails and sees nothing. -/
theorem failures_slurpNul :
    let form := tryForm 0 0 slurpNul "e" (.int 1)
    Machine.bare.Unlimited ∧ Machine.bare.NoMacro "try*" Session.root ∧ Handles (.int 1) ∧
      Machine.bare.host.limits.allows 0 = true ∧
      (∃ r, perform 2 0 (.call (.builtin (.query .slurp)) [.text "a\x00b"] Session.root)
          Machine.bare = r.map .value ∧
        Builtin.Outcome ⟨perform 1, (1 : Nat), 0⟩ Session.root [.text "a\x00b"] Machine.bare
          (.query .slurp) r) ∧
      ∃ n, evaluate 5 form Session.root Machine.bare = .failed .nulInPath n ∧
        Error.nulInPath.isFatal = true ∧ Machine.bare.LetsEscape .nulInPath ∧
        ∃ fuel, evaluate fuel slurpNul Session.root Machine.bare = .failed .nulInPath n := by
  intro form
  have hlookup : Machine.bare.frames.lookup? "try*" Session.root = none := by decide +kernel
  have hplain : Machine.bare.NoMacro "try*" Session.root := Machine.noMacro_of_none hlookup
  have herror : (evaluate 5 form Session.root Machine.bare).error? = some .nulInPath := by
    decide +kernel
  obtain ⟨n, hn⟩ := Result.exists_of_error? herror
  obtain ⟨hbuiltins, hprograms, htry⟩ := builtin_failures Machine.bare
  exact ⟨rfl, hplain, handles_int 1, rfl, (hbuiltins _ _ _).2 1 0 rfl, n, hn, rfl,
    hprograms 5 form Session.root _ n hn rfl,
    (htry rfl 0 0 slurpNul "e" (.int 1) Session.root hplain (handles_int 1) 5 _ n hn).2⟩

/-- A machine with a file `a` of one byte that is no UTF-8, and with such a byte as its input. -/
def Machine.garbled : Machine :=
  Session.machine
    { files := ⟨[], [(["a"], .file ⟨#[255]⟩)]⟩, clock := fun _ => 0, journal := .unset,
      limits := ⟨none, Limits.leastSteps⟩ } (.ofBytes ⟨#[255]⟩) []

/-- No handler sees that a path holds NUL, that a file or the input cannot be decoded, or that an
integer has no text. -/
theorem uncaught_failures :
    (evaluate 5 (tryForm 0 0 slurpNul "e" (.int 1)) Session.root Machine.bare).error? =
        some .nulInPath ∧
      (evaluate 5 (tryForm 0 0 (.form [.symbol "slurp", .text "a"]) "e" (.int 1)) Session.root
        Machine.garbled).error? = some .undecodable ∧
      (evaluate 5 (tryForm 0 0 (.form [.symbol "readline", .text "p> "]) "e" (.int 1))
        Session.root Machine.garbled).error? = some (.badInput .undecodable) ∧
      (evaluate 5 (tryForm 0 0 (.form [.symbol "pr-str", .int Numeral.bound]) "e" (.int 1))
        Session.root Machine.bare).error? = some .numeralTooLong := by
  refine ⟨by decide +kernel, by decide +kernel, by decide +kernel, by decide +kernel⟩

end AtomLisp
