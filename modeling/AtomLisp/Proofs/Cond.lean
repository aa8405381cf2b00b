import AtomLisp.Proofs.LoadFile
import AtomLisp.Proofs.MacroExpansion

/-! # The macro `cond`

  The prelude's `cond` is a macro that expands one clause at a time: to an `if` with the first test,
  its form, and a `cond` of the clauses after them. This module says what the clauses mean without
  the macro, and shows that the macro gives them that meaning.

  * `Clauses.select`: the tests are evaluated in turn, and the form after the first true one;
  * `Machine.ChoosesFrom`: `cond` is the prelude's, and what its body uses is as it was installed;
    `Clauses.Throughout`: so it is whenever a clause is expanded;
  * `Machine.Expands.complete_nil`, `Machine.Expands.complete_single` and
    `Machine.Expands.complete_clause`: what the body of the macro answers, by the number of forms;
  * `Machine.ChoosesFrom.complete_cond_clause`: what a call does with its first clause;
  * `Clauses.select_mirrors`: so a call selects among its clauses, by induction on them;
  * `evaluate_cond`: the call and the selection come to an end together, and to the same.
-/

namespace AtomLisp

/-! ### Clauses -/

namespace Machine

/-- The journal has a line for each clause. -/
def reported (m : Machine) : Machine := m.log .debug .expansion "expanding macro cond"

theorem frames_reported (m : Machine) : m.reported.frames = m.frames := by
  obtain ⟨⟨hframes, -⟩, -⟩ := Run.Still.log .debug .expansion "expanding macro cond" m
  exact hframes

theorem host_reported (m : Machine) : m.reported.host = m.host := by
  obtain ⟨⟨-, hhost⟩, -⟩ := Run.Still.log .debug .expansion "expanding macro cond" m
  exact hhost

end Machine

namespace Clauses

/-- What is thrown when a test has no form after it. -/
def oddMessage : String := "odd number of forms to cond"

/-- Writes the line of the journal for a clause. -/
def report : Run Unit := Run.modify Machine.reported

/-- Evaluates the tests of clauses in turn, and the form after the first test that is true; `value`
gives the values. A test without a form after it is not evaluated, and refused when its turn
comes. -/
def select (value : Value → Run Value) : List Value → Run Value
  | [] => do
    report
    return .nil
  | [_] => do
    report
    Run.fail (.thrown (.text oddMessage))
  | test :: form :: clauses => do
    report
    if (← value test).isTruthy then value form else select value clauses

/-- The condition `I` holds whenever a clause is about to be looked at. -/
def Throughout (value : Value → Run Value) (I : Machine → Prop) : List Value → Machine → Prop
  | test :: _ :: clauses, m =>
    I m ∧ ∀ v n, (report >>= fun _ => value test) m = .done v n → v.isTruthy = false →
      Throughout value I clauses n
  | _, m => I m

/-- The condition holds at the start. -/
theorem Throughout.start {value : Value → Run Value} {I : Machine → Prop} {forms : List Value}
    {m : Machine} (h : Throughout value I forms m) : I m := by
  rcases forms with _ | ⟨test, _ | ⟨form, clauses⟩⟩
  · exact h
  · exact h
  · exact h.1

end Clauses

/-! ### The macro -/

namespace Prelude

/-- The test whether there are more than so many forms. -/
def condMore (s t : Serial) (least : Int) : Value :=
  .list s [.symbol ">", .list t [.symbol "count", .symbol "xs"], .int least]

/-- The form after the first test, which has to be there. -/
def condForm (s : Nat → Serial) : Value :=
  .list (s 6) [.symbol "if", condMore (s 7) (s 8) 1,
    .list (s 9) [.symbol "nth", .symbol "xs", .int 1],
    .list (s 10) [.symbol "throw", .text Clauses.oddMessage]]

/-- The call for the forms after the first two. -/
def condRest (s : Nat → Serial) : Value :=
  .list (s 11) [.symbol "cons", .list (s 12) [.symbol "quote", .symbol "cond"],
    .list (s 13) [.symbol "rest", .list (s 14) [.symbol "rest", .symbol "xs"]]]

/-- What the macro answers where there are forms. -/
def condAnswer (s : Nat → Serial) : Value :=
  .list (s 3) [.symbol "list", .list (s 4) [.symbol "quote", .symbol "if"],
    .list (s 5) [.symbol "first", .symbol "xs"], condForm s, condRest s]

/-- The body of the macro as it is written; its lists may have any serial numbers. -/
def condBody (s : Nat → Serial) : Value :=
  .list (s 0) [.symbol "if", condMore (s 1) (s 2) 0, condAnswer s]

theorem value_condBody (r : Renaming) (s : Nat → Serial) :
    r.value (condBody s) = condBody fun k => r.serial (s k) := rfl

theorem condBody_congr {s t : Nat → Serial} (h : ∀ k < 15, s k = t k) :
    condBody s = condBody t := by
  simp [condBody, condMore, condAnswer, condForm, condRest, h]

/-- The value is the macro that the prelude binds to `cond`. -/
def IsCond (v : Value) : Prop :=
  ∃ serial s, v = .closure serial ["&", "xs"] (condBody s) Session.root true

set_option maxRecDepth 4000 in
/-- So the prelude defines it. -/
theorem cond_mem_prelude :
    .form [.symbol "defmacro!", .symbol "cond",
      .form [.symbol "fn*", .form [.symbol "&", .symbol "xs"], condBody fun _ => 0]] ∈
        (Reader.readAll Limits.leastSteps text).1 := by
  have hchars : text.toList = _ := String.toList_ofList
  rw [Reader.readAll_of_toList hchars]
  decide +kernel

/-- The builtins that the body of the macro uses. -/
def condQueries : List Builtin.Query := [.gt, .count, .list, .first, .nth, .throw, .cons, .rest]

end Prelude

/-- In the frame `cond` is the macro of the prelude, and what its body uses is in the root frame as
it was installed; the special forms that it uses are no macros. -/
structure Machine.ChoosesFrom (frame : FrameId) (m : Machine) : Prop where
  cond      : ∃ v, m.frames.lookup? "cond" frame = some v ∧ Prelude.IsCond v
  queries   : ∀ q ∈ Prelude.condQueries,
    m.frames.lookup? q.name Session.root = some (.builtin (.query q))
  plainIf   : m.NoMacro "if" frame
  bodyIf    : m.NoMacro "if" Session.root
  bodyQuote : m.NoMacro "quote" Session.root

/-! ### Evaluation of the forms that are used -/

namespace Caller

variable {form : Value} {frame : FrameId} {m : Machine}

theorem complete_eq (form : Value) (frame : FrameId) :
    unbounded.complete form frame =
      (unbounded.expand frame unbounded.rounds form >>= fun form =>
        unbounded.evalForm true form frame) >>= unbounded.settle := by
  show denote (.eval true form frame) >>= unbounded.settle = _
  rw [denote_eq]
  rfl

/-- A macro call is expanded once, and what comes of it evaluated. -/
theorem complete_of_some {call : MacroCall} (h : m.macroCall? form frame = some call) :
    unbounded.complete form frame m =
      (unbounded.expandCall call >>= fun form => unbounded.complete form frame) m := by
  have hexpand : unbounded.expand frame unbounded.rounds form m =
      (unbounded.expandCall call >>= unbounded.expand frame unbounded.rounds) m := by
    show Rounds.unbounded.run (unbounded.expandNext frame) form m = _
    rw [Rounds.unbounded_run, Run.bind_congr_at (expandNext_of_some h), map_eq_pure_bind,
      bind_assoc]
    rfl
  rw [complete_eq, bind_assoc, Run.bind_congr_at hexpand, bind_assoc]
  simp only [complete_eq, bind_assoc]

/-- One of two steps is taken, as the condition holds or not. -/
theorem complete_branches (h : m.NoMacro "if" frame) {parts : List Value} {condition : Value}
    {yes no : Run Step}
    (hparts : SpecialForm.evalConditional unbounded true frame parts =
      (unbounded.value condition frame >>= fun v => if v.isTruthy then yes else no))
    (serial : Serial) :
    unbounded.complete (.list serial (.symbol "if" :: parts)) frame m =
      (unbounded.complete condition frame >>= fun v =>
        if v.isTruthy then yes >>= unbounded.settle else no >>= unbounded.settle) m := by
  rw [complete_of_none (Machine.macroCall?_eq_none h serial parts)]
  show (SpecialForm.evalConditional unbounded true frame parts >>= unbounded.settle) m = _
  rw [hparts, value_eq_complete, bind_assoc]
  refine congrFun (congrArg (unbounded.complete condition frame >>= ·) (funext fun v => ?_)) m
  cases v.isTruthy <;> rfl

theorem complete_conditional (h : m.NoMacro "if" frame) (serial : Serial)
    (condition yes no : Value) :
    unbounded.complete (.list serial [.symbol "if", condition, yes, no]) frame m =
      (unbounded.complete condition frame >>= fun v =>
        if v.isTruthy then unbounded.complete yes frame else unbounded.complete no frame) m :=
  complete_branches h rfl serial

/-- Without a third form, `nil` stands in its place. -/
theorem complete_conditional_nil (h : m.NoMacro "if" frame) (serial : Serial)
    (condition yes : Value) :
    unbounded.complete (.list serial [.symbol "if", condition, yes]) frame m =
      (unbounded.complete condition frame >>= fun v =>
        if v.isTruthy then unbounded.complete yes frame else pure .nil) m := by
  rw [complete_branches h rfl serial]
  simp only [pure_bind, settle_value]
  rfl

section Failing

variable {name : String} {args forms : List Value} {v : Value} {e : Error} {m' n : Machine}

/-- The forms after one that fails are not evaluated. -/
theorem values_of_failed (h : unbounded.complete form frame m = .failed e n) :
    unbounded.values frame (form :: forms) m = .failed e n := by
  simp only [values, value_eq_complete, Run.bind_apply, h]

theorem values_cons_of_failed (hv : unbounded.complete form frame m = .done v m')
    (hvs : unbounded.values frame forms m' = .failed e n) :
    unbounded.values frame (form :: forms) m = .failed e n := by
  simp only [values, value_eq_complete, Run.bind_apply, hv, hvs]

/-- A builtin is not called if one of its arguments fails. -/
theorem complete_of_args_failed {b : Builtin} (hname : SpecialForm.ofName? name = none)
    (h : m.frames.lookup? name frame = some (.builtin b))
    (hargs : unbounded.values frame args m = .failed e n) (serial : Serial) :
    unbounded.complete (.list serial (.symbol name :: args)) frame m = .failed e n := by
  rw [complete_builtin hname h, Run.bind_apply, hargs]

end Failing

end Caller

/-! ### The body of the macro -/

/-- The frame is that of a call of the macro: the list of the forms is bound in it, and what the
body uses is as it was installed. -/
structure Machine.Expands (m : Machine) (inner : FrameId) (forms : List Value) : Prop where
  forms   : ∃ serial, m.frames.lookup? "xs" inner = some (.list serial forms)
  queries : ∀ q ∈ Prelude.condQueries,
    m.frames.lookup? q.name inner = some (.builtin (.query q))
  plainIf    : m.NoMacro "if" inner
  plainQuote : m.NoMacro "quote" inner

namespace Machine.Expands

variable {m m' n : Machine} {inner : FrameId} {forms args vs : List Value} {v w : Value}

/-- What is bound does not depend on how many things have been made. -/
theorem skipSerials (h : m.Expands inner forms) (count : Nat) :
    (m.skipSerials count).Expands inner forms := ⟨h.forms, h.queries, h.plainIf, h.plainQuote⟩

/-- A call of one of the builtins, with the values of its arguments. -/
theorem complete_call (h : m.Expands inner forms) {q : Builtin.Query}
    (hq : q ∈ Prelude.condQueries) (hargs : Caller.unbounded.values inner args m = .done vs m')
    {answer : Answer} (hanswer : q.answer m' vs = .ok answer) (hmake : answer.make m' = .done w n)
    (serial : Serial) :
    Caller.unbounded.complete (.list serial (.symbol q.name :: args)) inner m = .done w n := by
  have hname : ∀ q ∈ Prelude.condQueries, SpecialForm.ofName? q.name = none := by decide
  rw [Caller.complete_query (hname q hq) (h.queries q hq) hargs, hanswer]
  exact hmake

theorem complete_forms (h : m.Expands inner forms) :
    ∃ serial, Caller.unbounded.complete (.symbol "xs") inner m = .done (.list serial forms) m := by
  obtain ⟨serial, hforms⟩ := h.forms
  exact ⟨serial, Caller.complete_symbol hforms⟩

theorem complete_more (h : m.Expands inner forms) (s t : Serial) (least : Int) :
    Caller.unbounded.complete (Prelude.condMore s t least) inner m =
      .done (.bool (least < forms.length)) m := by
  obtain ⟨serial, hforms⟩ := h.complete_forms
  have hcount : Caller.unbounded.complete (.list t [.symbol "count", .symbol "xs"]) inner m =
      .done (.int forms.length) m :=
    h.complete_call (q := .count) (by decide) (Caller.values_cons hforms rfl) rfl rfl t
  exact h.complete_call (q := .gt) (by decide)
    (Caller.values_cons hcount (Caller.values_cons (Caller.complete_of_evalForm rfl rfl) rfl))
    rfl rfl s

/-- For no forms, the macro answers `nil`. -/
theorem complete_nil (h : m.Expands inner []) (s : Nat → Serial) :
    Caller.unbounded.complete (Prelude.condBody s) inner m = .done .nil m := by
  rw [Prelude.condBody, Caller.complete_conditional_nil h.plainIf, Run.bind_apply, h.complete_more]
  rfl

section

variable {test : Value}

/-- Where there is a form, the macro looks at it. -/
theorem complete_body (h : m.Expands inner (test :: forms)) (s : Nat → Serial) :
    Caller.unbounded.complete (Prelude.condBody s) inner m =
      Caller.unbounded.complete (Prelude.condAnswer s) inner m := by
  have hmore : decide ((0 : Int) < ((test :: forms).length : Int)) = true := by
    rw [decide_eq_true_eq, List.length_cons]
    omega
  rw [Prelude.condBody, Caller.complete_conditional_nil h.plainIf, Run.bind_apply, h.complete_more,
    hmore]
  rfl

theorem complete_first (h : m.Expands inner (test :: forms)) (s : Serial) :
    Caller.unbounded.complete (.list s [.symbol "first", .symbol "xs"]) inner m =
      .done test m := by
  obtain ⟨serial, hforms⟩ := h.complete_forms
  exact h.complete_call (q := .first) (by decide) (Caller.values_cons hforms rfl) rfl rfl s

/-- For one form, the macro throws: the message has an inspected form, so it is thrown as it is. -/
theorem complete_single (h : m.Expands inner [test]) (hnesting : 0 < m.host.limits.nesting)
    (s : Nat → Serial) :
    Caller.unbounded.complete (Prelude.condBody s) inner m =
      .failed (.thrown (.text Clauses.oddMessage)) m := by
  have hanswer : Builtin.Query.answer .throw m [.text Clauses.oddMessage] =
      .error (.thrown (.text Clauses.oddMessage)) := by
    obtain ⟨k, hk⟩ : ∃ k, m.host.limits.nesting = k + 1 := Nat.exists_eq_add_of_le' hnesting
    show (m.inspect (.text Clauses.oddMessage) >>= fun _ => .error _ : Except Error Answer) = _
    rw [Machine.inspect, hk]
    rfl
  have hthrow : Caller.unbounded.complete
      (.list (s 10) [.symbol "throw", .text Clauses.oddMessage]) inner m =
        .failed (.thrown (.text Clauses.oddMessage)) m := by
    have hname : SpecialForm.ofName? "throw" = none := by decide
    rw [Caller.complete_query hname (h.queries .throw (by decide))
      (Caller.values_cons (Caller.complete_text _) rfl), hanswer]
    rfl
  have hform : Caller.unbounded.complete (Prelude.condForm s) inner m =
      .failed (.thrown (.text Clauses.oddMessage)) m := by
    rw [Prelude.condForm, Caller.complete_conditional h.plainIf, Run.bind_apply, h.complete_more]
    exact hthrow
  have hname : SpecialForm.ofName? "list" = none := by decide
  rw [h.complete_body]
  exact Caller.complete_of_args_failed hname (h.queries .list (by decide))
    (Caller.values_cons_of_failed (Caller.complete_quote h.plainQuote _ _)
      (Caller.values_cons_of_failed (h.complete_first _) (Caller.values_of_failed hform))) _

end

section

variable {test form : Value} {clauses : List Value}

theorem complete_form (h : m.Expands inner (test :: form :: clauses)) (s : Nat → Serial) :
    Caller.unbounded.complete (Prelude.condForm s) inner m = .done form m := by
  obtain ⟨serial, hforms⟩ := h.complete_forms
  have hnth : Caller.unbounded.complete (.list (s 9) [.symbol "nth", .symbol "xs", .int 1])
      inner m = .done form m :=
    h.complete_call (q := .nth) (by decide)
      (Caller.values_cons hforms (Caller.values_cons (Caller.complete_of_evalForm rfl rfl) rfl))
      rfl rfl _
  have hmore : decide ((1 : Int) < ((test :: form :: clauses).length : Int)) = true := by
    rw [decide_eq_true_eq, List.length_cons, List.length_cons]
    omega
  rw [Prelude.condForm, Caller.complete_conditional h.plainIf, Run.bind_apply, h.complete_more,
    hmore]
  exact hnth

theorem complete_rest (h : m.Expands inner (test :: form :: clauses)) (s : Nat → Serial) :
    Caller.unbounded.complete (Prelude.condRest s) inner m =
      .done (.list (m.nextSerial + 2) (.symbol "cond" :: clauses)) (m.skipSerials 3) := by
  obtain ⟨serial, hforms⟩ := h.complete_forms
  have hrest : Caller.unbounded.complete (.list (s 14) [.symbol "rest", .symbol "xs"]) inner m =
      .done (.list m.nextSerial (form :: clauses)) (m.skipSerials 1) :=
    h.complete_call (q := .rest) (by decide) (Caller.values_cons hforms rfl) rfl rfl _
  have hrest' : Caller.unbounded.complete
      (.list (s 13) [.symbol "rest", .list (s 14) [.symbol "rest", .symbol "xs"]]) inner m =
        .done (.list (m.nextSerial + 1) clauses) (m.skipSerials 2) :=
    h.complete_call (q := .rest) (by decide) (Caller.values_cons hrest rfl) rfl rfl _
  exact h.complete_call (q := .cons) (by decide)
    (Caller.values_cons (Caller.complete_quote h.plainQuote _ _) (Caller.values_cons hrest' rfl))
    rfl rfl _

/-- For a test and a form, the macro answers an `if`, with a call of its own for the forms after
them. -/
theorem complete_clause (h : m.Expands inner (test :: form :: clauses)) (s : Nat → Serial) :
    Caller.unbounded.complete (Prelude.condBody s) inner m =
      .done (.list (m.nextSerial + 3) [.symbol "if", test, form,
        .list (m.nextSerial + 2) (.symbol "cond" :: clauses)]) (m.skipSerials 4) := by
  have hargs : Caller.unbounded.values inner [.list (s 4) [.symbol "quote", .symbol "if"],
      .list (s 5) [.symbol "first", .symbol "xs"], Prelude.condForm s, Prelude.condRest s] m =
        .done [.symbol "if", test, form, .list (m.nextSerial + 2) (.symbol "cond" :: clauses)]
          (m.skipSerials 3) :=
    Caller.values_cons (Caller.complete_quote h.plainQuote _ _)
      (Caller.values_cons (h.complete_first _) (Caller.values_cons (h.complete_form s)
        (Caller.values_cons (h.complete_rest s) rfl)))
  rw [h.complete_body]
  exact h.complete_call (q := .list) (by decide) hargs rfl rfl _

end

end Machine.Expands

/-! ### A call of the macro -/

open Template (valueIn)

namespace Machine

variable {m : Machine} {frame : FrameId} {test form : Value} {forms clauses : List Value}

/-- The machine in which the body of the macro is evaluated: the call has its frame, and the list of
the forms has been made. -/
def expanding (m : Machine) (forms : List Value) : Machine :=
  (m.reported.skipSerials 1).pushFrame (some Session.root)
    [("xs", .list m.reported.nextSerial forms)]

namespace ChoosesFrom

/-- The frame of the macro is there. -/
theorem lt_size (h : m.ChoosesFrom frame) : frame < m.frames.size := by
  obtain ⟨v, hv, -⟩ := h.cond
  refine Nat.lt_of_not_le fun hle => ?_
  rw [Frames.lookup?_of_none (Frames.get?_eq_none_iff.2 hle)] at hv
  cases hv

/-- In the frame of the call, the forms are bound; other names are those of the root frame. -/
theorem expands (h : m.ChoosesFrom frame) (forms : List Value) :
    (m.expanding forms).Expands m.frames.size forms := by
  obtain ⟨root, hroot, houter⟩ := Frames.get?_root_of_lookup? (h.queries .gt (by decide))
  have hlookup : ∀ name, (m.expanding forms).frames.lookup? name m.frames.size =
      if name = "xs" then some (.list m.reported.nextSerial forms)
      else m.frames.lookup? name Session.root := by
    intro name
    show (m.reported.frames.push _ _).lookup? name _ = _
    rw [m.frames_reported]
    exact Frames.lookup?_push_one hroot houter "xs" _ name
  have hothers : ∀ name, name ≠ "xs" → (m.expanding forms).frames.lookup? name m.frames.size =
      m.frames.lookup? name Session.root :=
    fun name hname => (hlookup name).trans (if_neg hname)
  constructor
  case forms => exact ⟨_, hlookup "xs"⟩
  case queries =>
    intro q hq
    have hname : ∀ q ∈ Prelude.condQueries, q.name ≠ "xs" := by decide
    rw [hothers _ (hname q hq)]
    exact h.queries q hq
  case plainIf => exact fun v hv => h.bodyIf v ((hothers "if" (by decide)).symm.trans hv)
  case plainQuote => exact fun v hv => h.bodyQuote v ((hothers "quote" (by decide)).symm.trans hv)

/-- The call is expanded to what the body of the macro answers in a frame of its own. -/
theorem complete_expanding (h : m.ChoosesFrom frame) (serial : Serial) (forms : List Value) :
    ∃ s, valueIn frame (.list serial (.symbol "cond" :: forms)) m =
      (Caller.unbounded.complete (Prelude.condBody s) m.frames.size >>= valueIn frame)
        (m.expanding forms) := by
  obtain ⟨v, hv, closureSerial, s, rfl⟩ := h.cond
  have hcall : m.macroCall? (.list serial (.symbol "cond" :: forms)) frame =
      some ⟨"cond", ["&", "xs"], Prelude.condBody s, Session.root, forms⟩ := by
    simp only [Machine.macroCall?, hv]
  refine ⟨s, ?_⟩
  rw [valueIn, Caller.complete_of_some hcall, ← m.frames_reported]
  rfl

theorem complete_cond_nil (h : m.ChoosesFrom frame) (serial : Serial) :
    valueIn frame (.list serial [.symbol "cond"]) m = .done .nil (m.expanding []) := by
  obtain ⟨s, hexpand⟩ := h.complete_expanding serial []
  rw [hexpand, Run.bind_apply, (h.expands []).complete_nil]
  exact Caller.complete_of_evalForm rfl rfl

theorem complete_cond_single (h : m.ChoosesFrom frame) (hnesting : 0 < m.host.limits.nesting)
    (serial : Serial) (test : Value) :
    valueIn frame (.list serial [.symbol "cond", test]) m =
      .failed (.thrown (.text Clauses.oddMessage)) (m.expanding [test]) := by
  obtain ⟨s, hexpand⟩ := h.complete_expanding serial [test]
  have hnesting' : 0 < (m.expanding [test]).host.limits.nesting := by
    show 0 < m.reported.host.limits.nesting
    rw [m.host_reported]
    exact hnesting
  rw [hexpand, Run.bind_apply, (h.expands [test]).complete_single hnesting']

/-- A call with a clause goes on with the test, and then with the form or with the other clauses. -/
theorem complete_cond_clause (h : m.ChoosesFrom frame) (serial : Serial) (test form : Value)
    (clauses : List Value) :
    ∃ serial', valueIn frame (.list serial (.symbol "cond" :: test :: form :: clauses)) m =
      (valueIn frame test >>= fun v =>
        if v.isTruthy then valueIn frame form
        else valueIn frame (.list serial' (.symbol "cond" :: clauses)))
          ((m.expanding (test :: form :: clauses)).skipSerials 4) := by
  obtain ⟨s, hexpand⟩ := h.complete_expanding serial (test :: form :: clauses)
  have hplain : ((m.expanding (test :: form :: clauses)).skipSerials 4).NoMacro "if" frame := by
    intro v hv
    refine h.plainIf v ?_
    rw [← hv]
    show _ = (m.reported.frames.push _ _).lookup? "if" frame
    rw [m.frames_reported, Frames.lookup?_push_of_lt h.lt_size]
  refine ⟨(m.expanding (test :: form :: clauses)).nextSerial + 2, ?_⟩
  rw [hexpand, Run.bind_apply, (h.expands _).complete_clause]
  exact Caller.complete_conditional hplain _ _ _ _

end ChoosesFrom

/-! ### Other numbers -/

theorem Renamed.noMacro {r : Renaming} {m' : Machine} (h : m.Renamed r m') {name : String}
    (hname : m.NoMacro name frame) : m'.NoMacro name (r.frameId frame) := by
  intro w hw
  rw [h.lookup?] at hw
  obtain ⟨v, hv, rfl⟩ := Option.map_eq_some_iff.1 hw
  rw [r.isMacro_value]
  exact hname v hv

/-- Other numbers of frames make no difference to the macro. -/
theorem Renamed.choosesFrom {r : Renaming} {m' : Machine} (h : m.Renamed r m')
    (hroot : r.frameId Session.root = Session.root) (hm : m.ChoosesFrom frame) :
    m'.ChoosesFrom (r.frameId frame) := by
  constructor
  case cond =>
    obtain ⟨v, hv, serial, s, rfl⟩ := hm.cond
    refine ⟨_, by rw [h.lookup?, hv]; rfl, r.serial serial, fun k => r.serial (s k), ?_⟩
    rw [r.value_closure, hroot, Prelude.value_condBody]
  case queries =>
    intro q hq
    rw [← hroot, h.lookup?, hm.queries q hq]
    rfl
  case plainIf => exact h.noMacro hm.plainIf
  case bodyIf => exact hroot ▸ h.noMacro hm.bodyIf
  case bodyQuote => exact hroot ▸ h.noMacro hm.bodyQuote

/-- Where no limit is set, more and more fuel evaluates a form to where it comes without bound. -/
theorem Unlimited.eventually_valueIn (hm : m.Unlimited) (frame : FrameId) (form : Value) :
    ∃ N, ∀ fuel ≥ N, evaluate fuel form frame m = valueIn frame form m := by
  obtain ⟨⟨-, N, hN⟩, -⟩ := converging_outermost.complete trivial form m hm
  exact ⟨N, hN⟩

theorem Unlimited.host_eq (hm : m.Unlimited) {v : Value} {n : Machine}
    (h : valueIn frame form m = .done v n) : n.host = m.host := by
  obtain ⟨fuel, hfuel⟩ := hm.eventually_valueIn frame form
  have hdone := (hfuel fuel (Nat.le_refl fuel)).trans h
  exact ((regular_evaluate fuel form frame).follows hdone).host

/-- Evaluation without bound does not see the numbers of frames and serial numbers. -/
theorem Renamed.valueIn {r : Renaming} {m' : Machine} (h : m.Renamed r m') (hm : m.Unlimited)
    (hform : m.Knows Renaming.value form) (hframe : m.Knows Renaming.frameId frame) :
    (valueIn frame form m).Sat m.Older (fun _ => True) ∧
      Result.Renamed r Renaming.value (valueIn frame form m)
        (valueIn (r.frameId frame) (r.value form) m') := by
  have hm' : m'.Unlimited := by
    rw [Unlimited, h.host]
    exact hm
  obtain ⟨N, hN⟩ := hm.eventually_valueIn frame form
  obtain ⟨K, hK⟩ := hm'.eventually_valueIn (r.frameId frame) (r.value form)
  -- One amount of fuel is enough for both.
  rw [← hN (max N K) (Nat.le_max_left N K), ← hK (max N K) (Nat.le_max_right N K)]
  exact evaluate_alike r _ hform hframe m m' (.refl m) h

end Machine

/-- What is done with the results of two runs may be the same under a renaming of its own, as long
as that one agrees on what was there. -/
theorem Result.Renamed.exists_andThen {α β : Type} {act : Renaming → α → α}
    {act' : Renaming → β → β} {r : Renaming} {m : Machine} {x x' : Result α} {f f' : α → Run β}
    (h : Result.Renamed r act x x')
    (hf : ∀ a a' n n', x = .done a n → a' = act r a → n.Renamed r n' →
      ∃ s, m.Agree r s ∧ Result.Renamed s act' (f a n) (f' a' n')) :
    ∃ s, m.Agree r s ∧ Result.Renamed s act' (x.andThen f) (x'.andThen f') := by
  cases h with
  | done hn ha => exact hf _ _ _ _ rfl rfl hn
  | failed hn he => exact ⟨r, .refl, .failed hn he⟩
  | unfinished => exact ⟨r, .refl, .unfinished⟩

/-! ### The macro selects -/

namespace Clauses

theorem select_clause (value : Value → Run Value) (test form : Value) (clauses : List Value)
    (m : Machine) :
    select value (test :: form :: clauses) m =
      (value test >>= fun v => if v.isTruthy then value form else select value clauses)
        m.reported := rfl

/-- The second machine is the first one with other numbers, and neither has a limit of nested
calls. -/
structure Mirrors (r : Renaming) (m m' : Machine) : Prop where
  unlimited : m.Unlimited
  nesting   : 0 < m.host.limits.nesting
  renamed   : m.Renamed r m'
  root      : r.frameId Session.root = Session.root

namespace Mirrors

variable {r s : Renaming} {m m' n n' : Machine} {frame : FrameId} {form v : Value}

/-- A call of the macro makes a frame and some lists of its own. -/
theorem expanding (h : Mirrors r m m') (hchooses : m.ChoosesFrom frame) (forms : List Value)
    (count : Nat) :
    ∃ s, m.Agree r s ∧ Mirrors s m.reported ((m'.expanding forms).skipSerials count) := by
  have hreported : m.reported.Renamed r m'.reported := h.renamed.log ..
  obtain ⟨s, hagree, hs⟩ := hreported.exists_pushFrame (some Session.root)
    [("xs", .list m'.reported.nextSerial forms)] (1 + count)
  have hagree' : m.Agree r s := Machine.Older.agree (m.older_log ..) hagree
  obtain ⟨root, hroot, -⟩ := Frames.get?_root_of_lookup? (hchooses.queries .gt (by decide))
  refine ⟨s, hagree', ?_⟩
  constructor
  case unlimited =>
    rw [Machine.Unlimited, m.host_reported]
    exact h.unlimited
  case nesting =>
    rw [m.host_reported]
    exact h.nesting
  case renamed =>
    rw [← Nat.add_assoc] at hs
    exact hs
  case root => exact (hagree'.frameId _ (Frames.lt_size_of_get? hroot)).symm.trans h.root

/-- So it is when a form has been evaluated in both machines. -/
theorem next (h : Mirrors r m m') (hdone : valueIn frame form m = .done v n)
    (hn : n.Renamed r n') : Mirrors r n n' := by
  have hhost : n.host = m.host := h.unlimited.host_eq hdone
  constructor
  case unlimited =>
    rw [Machine.Unlimited, hhost]
    exact h.unlimited
  case nesting =>
    rw [hhost]
    exact h.nesting
  case renamed => exact hn
  case root => exact h.root

end Mirrors

/-- A call of the macro does what selecting among its clauses does, from a machine that is the same
but for numbers. Each clause takes a frame and lists of its own, so the renaming changes from clause
to clause; on what was there before it stays the same. -/
theorem select_mirrors {frame : FrameId} : ∀ {forms : List Value} {r : Renaming}
    {m m' : Machine}, Mirrors r m m' → m.Knows Renaming.values forms →
    Throughout (valueIn frame) (Machine.ChoosesFrom frame) forms m → ∀ serial,
    ∃ s, m.Agree r s ∧ Result.Renamed s Renaming.value (select (valueIn frame) forms m)
      (valueIn (r.frameId frame) (.list serial (.symbol "cond" :: r.values forms)) m')
  | [], r, m, m', h, hforms, hthroughout, serial => by
    have hcall := (h.renamed.choosesFrom h.root hthroughout).complete_cond_nil serial
    obtain ⟨s, hagree, hs⟩ := h.expanding hthroughout [] 0
    refine ⟨s, hagree, ?_⟩
    rw [Renaming.values, hcall]
    exact .done hs.renamed (.of_forall fun _ => rfl)
  | [test], r, m, m', h, hforms, hthroughout, serial => by
    have hcall := (h.renamed.choosesFrom h.root hthroughout).complete_cond_single
      (h.renamed.host ▸ h.nesting) serial (r.value test)
    obtain ⟨s, hagree, hs⟩ := h.expanding hthroughout [r.value test] 0
    refine ⟨s, hagree, ?_⟩
    rw [Renaming.values, Renaming.values, hcall]
    exact .failed hs.renamed (.of_forall fun _ => rfl)
  | test :: form :: clauses, r, m, m', h, hforms, hthroughout, serial => by
    obtain ⟨hchooses, hothers⟩ := hthroughout
    obtain ⟨serial', hcall⟩ := (h.renamed.choosesFrom h.root hchooses).complete_cond_clause serial
      (r.value test) (r.value form) (r.values clauses)
    obtain ⟨s, hagree, hs⟩ := h.expanding hchooses (r.values (test :: form :: clauses)) 4
    have hframe : m.Knows Renaming.frameId frame := .frameId_of_lt hchooses.lt_size
    have holder : m.Older m.reported := m.older_log ..
    -- The test, in both machines
    obtain ⟨hsat, htest⟩ := hs.renamed.valueIn hs.unlimited (hforms.head.mono holder)
      (hframe.mono holder)
    rw [← hforms.head r s hagree, ← hframe r s hagree] at htest
    -- What follows the test
    have hnext : ∀ v v' n n', valueIn frame test m.reported = .done v n → v' = s.value v →
        n.Renamed s n' → ∃ t, m.Agree s t ∧ Result.Renamed t Renaming.value
          ((if v.isTruthy then valueIn frame form else select (valueIn frame) clauses) n)
          ((if v'.isTruthy then valueIn (r.frameId frame) (r.value form)
            else valueIn (r.frameId frame)
              (.list serial' (.symbol "cond" :: r.values clauses))) n') := by
      rintro v _ n n' hdone rfl hn
      rw [hdone] at hsat
      have hmn : m.Older n := holder.trans hsat.1
      have hmirrors : Mirrors s n n' := hs.next hdone hn
      rw [s.isTruthy_value, hforms.tail.head r s hagree, hforms.tail.tail r s hagree,
        hframe r s hagree]
      cases htruthy : v.isTruthy with
      | true =>
        obtain ⟨-, hresult⟩ := hn.valueIn hmirrors.unlimited (hforms.tail.head.mono hmn)
          (hframe.mono hmn)
        exact ⟨s, .refl, hresult⟩
      | false =>
        obtain ⟨t, ht, hresult⟩ := select_mirrors hmirrors (hforms.tail.tail.mono hmn)
          (hothers v n hdone htruthy) serial'
        exact ⟨t, hmn.agree ht, hresult⟩
    obtain ⟨t, ht, hresult⟩ := htest.exists_andThen hnext
    refine ⟨t, hagree.trans ht, ?_⟩
    rw [select_clause, Renaming.values, Renaming.values, hcall]
    exact hresult

/-! ### Fuel -/

open Discipline in
/-- Selecting among clauses keeps what the values of the forms keep. -/
theorem good_select {ι : Type} {D : Discipline ι} {value : ι → Value → Run Value}
    (h : ∀ x, D.Good (fun i => value i x) fun _ => True) :
    ∀ forms : List Value, D.Good (fun i => select (value i) forms) fun _ => True
  | [] => (Good.of_still (.log _ _ _)).bind fun _ _ => .pure trivial
  | [_] => (Good.of_still (.log _ _ _)).bind fun _ _ => .fail _
  | test :: form :: clauses => by
    refine (Good.of_still (.log _ _ _)).bind fun _ _ => ?_
    apply (h test).bind
    intro v _
    cases v.isTruthy with
    | true => exact h form
    | false => exact good_select h clauses

/-- What holds throughout with any large amount of fuel holds throughout without bound. -/
theorem throughout_unbounded {I : Machine → Prop} {frame : FrameId} :
    ∀ (forms : List Value) (m : Machine), m.Unlimited →
      (∃ N, ∀ n ≥ N, Throughout (Template.valueAt frame (some n)) I forms m) →
      Throughout (valueIn frame) I forms m
  | [], _, _, ⟨N, h⟩ | [_], _, _, ⟨N, h⟩ => h N (Nat.le_refl N)
  | test :: form :: clauses, m, hm, ⟨N, h⟩ => by
    refine ⟨(h N (Nat.le_refl N)).1, ?_⟩
    intro v n hv htruthy
    have hgood : (Discipline.converging Host.Unlimited).Good
        (fun i => report >>= fun _ => Template.valueAt frame i test) fun _ => True :=
      (Discipline.Good.of_still (.log _ _ _)).bind fun _ _ => Template.good_valueAt frame test
    -- From some amount of fuel on, the test leaves the machine that it leaves without bound.
    obtain ⟨hn, K, hK⟩ := Template.eventually_done hgood hm hv
    exact throughout_unbounded clauses n hn
      ⟨max N K, fun k hk => (h k (by omega)).2 v n (hK k (by omega)) htruthy⟩

end Clauses

/-- **`cond` selects the first true clause.** Where `cond` and what its body uses are as they were
installed whenever a clause is expanded, a call of the macro evaluates the tests one after another,
each once and in the frame of the call, up to the first one that is true; then it comes to what the
form after that test comes to. It is `nil` if no test is true, and where a test without a form is
left then, it throws instead, without evaluating it. So the call and the selection come to an end
together, with the same value or error, the same output, and the same bindings and atoms; only the
numbers of frames and things made on the way differ. The machine is proper, as that of every session
is (`Session.proper_start`), and so are the forms. -/
theorem evaluate_cond (forms : List Value) (serial : Serial) (frame : FrameId) (m : Machine)
    (hm : m.Unlimited) (hproper : m.Proper) (hnesting : 0 < m.host.limits.nesting)
    (hforms : m.Knows Renaming.values forms)
    (hthroughout : ∀ fuel, Clauses.Throughout (fun x => evaluate fuel x frame)
      (Machine.ChoosesFrom frame) forms m) :
    let call : Nat → Result Value := fun fuel =>
      evaluate fuel (.list serial (.symbol "cond" :: forms)) frame m
    let selection : Nat → Result Value := fun fuel =>
      Clauses.select (fun x => evaluate fuel x frame) forms m
    (∀ fuel, (selection fuel).Ended → ∃ fuel', m.Matches (selection fuel) (call fuel')) ∧
      ∀ fuel, (call fuel).Ended → ∃ fuel', m.Matches (selection fuel') (call fuel) := by
  intro call selection
  have hunbounded := Clauses.throughout_unbounded forms m hm ⟨0, fun fuel _ => hthroughout fuel⟩
  have hmirrors : Clauses.Mirrors .id m m := ⟨hm, hnesting, hproper.renamed_self, rfl⟩
  obtain ⟨s, hagree, hresult⟩ := Clauses.select_mirrors hmirrors hforms hunbounded serial
  rw [Renaming.values_id] at hresult
  have hselection : ∀ {x : Result Value}, x.Ended → ((∃ fuel, selection fuel = x) ↔
      Clauses.select (Template.valueIn frame) forms m = x) := fun hx =>
    exists_fuel_iff (Clauses.good_select (Template.good_valueAt frame) forms) hm hx
  have hcall : ∀ {x : Result Value}, x.Ended → ((∃ fuel, call fuel = x) ↔
      Template.valueIn frame (.list serial (.symbol "cond" :: forms)) m = x) := fun hx =>
    evaluate_iff hm _ frame hx
  have hmatches : m.Matches (Clauses.select (Template.valueIn frame) forms m)
      (Template.valueIn frame (.list serial (.symbol "cond" :: forms)) m) :=
    ⟨s, hagree.symm, hresult⟩
  constructor
  · intro fuel hended
    have hlimit := (hselection hended).1 ⟨fuel, rfl⟩
    rw [hlimit] at hmatches
    obtain ⟨fuel', heq⟩ := (hcall (hmatches.ended_iff.1 hended)).2 rfl
    exact ⟨fuel', heq ▸ hmatches⟩
  · intro fuel hended
    have hlimit := (hcall hended).1 ⟨fuel, rfl⟩
    rw [hlimit] at hmatches
    obtain ⟨fuel', heq⟩ := (hselection (hmatches.ended_iff.2 hended)).2 rfl
    exact ⟨fuel', heq ▸ hmatches⟩

/-- A session's machine in whose root frame `cond` is bound as in the prelude. -/
def Machine.withCond (limits : Limits) : Machine :=
  let m := Session.machine
    { files := ⟨[], []⟩, clock := fun _ => 0, journal := .unset, limits } .ended []
  define { m with nextSerial := m.nextSerial + 16 } Session.root "cond"
    (.closure 1 ["&", "xs"] (Prelude.condBody fun k => k + 2) Session.root true)

namespace Machine

theorem proper_withCond (limits : Limits) : (withCond limits).Proper := by
  let m := Session.machine
    { files := ⟨[], []⟩, clock := fun _ => 0, journal := .unset, limits } .ended []
  obtain ⟨hm, hroot⟩ : m.Proper ∧ Session.root < m.frames.size := Session.proper_machine ..
  have hknown : ∀ serial : Nat, serial < 17 →
      Knows { m with nextSerial := m.nextSerial + 16 } Renaming.serial serial :=
    fun serial h r s hagree => hagree.serial serial h
  have hbody : Knows { m with nextSerial := m.nextSerial + 16 } Renaming.value
      (Prelude.condBody fun k => k + 2) := by
    intro r s h
    rw [Prelude.value_condBody, Prelude.value_condBody]
    exact Prelude.condBody_congr fun k hk => hknown (k + 2) (by omega) r s h
  exact (hm.skipSerials 16).define _ _
    (.closure (hknown 1 (by decide)) hbody (.frameId_of_lt hroot))

theorem lookup?_withCond (limits : Limits) (name : String) :
    (withCond limits).frames.lookup? name Session.root =
      (withCond .least).frames.lookup? name Session.root := rfl

theorem choosesFrom_withCond (limits : Limits) : (withCond limits).ChoosesFrom Session.root := by
  have hplain : ∀ name ∈ ["if", "quote"],
      (withCond .least).frames.lookup? name Session.root = none := by decide +kernel
  have hqueries : ∀ q ∈ Prelude.condQueries, (withCond .least).frames.lookup? q.name Session.root =
      some (.builtin (.query q)) := by decide +kernel
  constructor
  case cond =>
    refine ⟨.closure 1 ["&", "xs"] (Prelude.condBody fun k => k + 2) Session.root true, ?_,
      1, _, rfl⟩
    rw [lookup?_withCond]
    decide +kernel
  case queries => exact hqueries
  all_goals exact noMacro_of_none (hplain _ (by decide))

end Machine

/-- A truth value has itself as its value, and leaves the machine as it is. -/
theorem evaluate_bool {m n : Machine} {frame : FrameId} {b : Bool} {v : Value}
    (hm : m.host.limits.allows Steps.body = true) {fuel : Nat}
    (h : evaluate fuel (.bool b) frame m = .done v n) : v = .bool b ∧ n = m := by
  rcases fuel with _ | _ | fuel
  · cases h
  · -- There is no fuel left to see that the form is no macro call.
    rw [evaluate_succ hm] at h
    cases h
  · have hsettle := Caller.settle_value_of_rounds (c := outermost (fuel + 1 + 1)) rfl (.bool b)
    rw [evaluate_succ hm, Run.bind_congr_at (Caller.eval_of_none rfl rfl true)] at h
    change (outermost (fuel + 1 + 1)).settle (.value (.bool b)) m = .done v n at h
    rw [hsettle] at h
    cases h
    exact ⟨rfl, rfl⟩

/-- The first test is false, and the form after it would fail. So would the last form, which has no
other one after it. -/
theorem evaluate_cond_second :
    let forms : List Value := [.bool false, .symbol "x", .bool true, .int 2, .symbol "x"]
    let m := Machine.withCond ⟨none, 9⟩
    let cond : Value := .form (.symbol "cond" :: forms)
    (m.Unlimited ∧ m.Proper ∧ 0 < m.host.limits.nesting ∧ m.Knows Renaming.values forms ∧
      (∀ fuel, Clauses.Throughout (fun x => evaluate fuel x Session.root)
        (Machine.ChoosesFrom Session.root) forms m) ∧
      (evaluate 30 cond Session.root m).value? = some (.int 2)) ∧
    ∃ fuel, m.Matches (Clauses.select (fun x => evaluate fuel x Session.root) forms m)
      (evaluate 30 cond Session.root m) := by
  intro forms m cond
  have hm : m.Unlimited := rfl
  have hproper : m.Proper := Machine.proper_withCond _
  have hforms : m.Knows Renaming.values forms := .of_forall fun _ => rfl
  have hchooses : m.ChoosesFrom Session.root := Machine.choosesFrom_withCond _
  have hthroughout : ∀ fuel, Clauses.Throughout (fun x => evaluate fuel x Session.root)
      (Machine.ChoosesFrom Session.root) forms m := by
    intro fuel
    refine ⟨hchooses, ?_⟩
    intro v n hfirst _
    obtain ⟨-, rfl⟩ := evaluate_bool rfl hfirst
    refine ⟨hchooses, ?_⟩
    intro w o hsecond hfalse
    obtain ⟨rfl, -⟩ := evaluate_bool rfl hsecond
    cases hfalse
  have hvalue : (evaluate 30 cond Session.root m).value? = some (.int 2) := by decide +kernel
  exact ⟨⟨hm, hproper, by decide, hforms, hthroughout, hvalue⟩,
    (evaluate_cond forms 0 Session.root m hm hproper (by decide) hforms hthroughout).2 30
      (Result.ended_of_value? hvalue)⟩

/-- A call of the macro takes steps of its own: what is just not too deep to be evaluated by itself
is too deep in a clause. -/
theorem cond_not_select :
    let forms : List Value := [.bool true, nestedVectors 332]
    let m := Machine.withCond .least
    m.Proper ∧ 0 < m.host.limits.nesting ∧ m.Knows Renaming.values forms ∧
      (∀ fuel, Clauses.Throughout (fun x => evaluate fuel x Session.root)
        (Machine.ChoosesFrom Session.root) forms m) ∧
      (evaluate 999 (.form (.symbol "cond" :: forms)) Session.root m).error? = some .tooDeep ∧
      (Clauses.select (fun x => evaluate 999 x Session.root) forms m).value?.isSome = true := by
  intro forms m
  have hforms : m.Knows Renaming.values forms := by
    refine .of_forall fun r => ?_
    rw [Renaming.values, Renaming.values, value_nestedVectors]
    rfl
  have hthroughout : ∀ fuel, Clauses.Throughout (fun x => evaluate fuel x Session.root)
      (Machine.ChoosesFrom Session.root) forms m := by
    intro fuel
    refine ⟨Machine.choosesFrom_withCond _, ?_⟩
    intro v n htest hfalse
    obtain ⟨rfl, -⟩ := evaluate_bool (by decide) htest
    cases hfalse
  have hcond : (evaluate 999 (.form (.symbol "cond" :: forms)) Session.root m).error? =
      some .tooDeep := by decide +kernel
  have hselect : (Clauses.select (fun x => evaluate 999 x Session.root) forms m).value?.isSome =
      true := by decide +kernel
  exact ⟨Machine.proper_withCond _, by decide, hforms, hthroughout, hcond, hselect⟩

end AtomLisp
