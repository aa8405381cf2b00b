import AtomLisp.Proofs.Failures

/-! # Failed calls of builtins

  All builtins but one do what they do only when nothing can go wrong any more. So when a call
  fails, the machine is as it was before the call, or, if the builtin was waiting for a function or
  a form, as that has left it. The exception is `readline`: it writes its prompt and takes the line
  before it knows whether there is one, so where the input has a fault, the prompt stays written
  and what has been read is lost.

  * `Builtin.Fails`: the ways in which the call of a builtin fails, and `Builtin.call_failed_iff`:
    there are no others;
  * `callEach_failed_iff`: calls one after another fail with the first one that does;
  * `exists_of_swapAtom`: what the function itself writes to an atom that is swapped is
    overwritten;
  * `failed_builtin`: what this means for the calls of programs;
  * `failed_builtin_readline`: the exception.
-/

namespace AtomLisp

variable {c : Caller} {frame : FrameId} {args : List Value} {m o : Machine} {e : Error}

namespace Builtin

/-- How the call of a builtin fails: with which error, and on which machine. -/
inductive Fails (c : Caller) (frame : FrameId) (m : Machine) (e : Error) :
    Machine → List Value → Builtin → Prop
  /-- No function is called and no form evaluated: whatever their caller would do, the call fails
  in the same way, and nothing has changed. -/
  | alone {b : Builtin} {args : List Value}
    (h : ∀ c' : Caller, b.call c' frame args m = .failed e m) : Fails c frame m e m args b
  /-- The prompt has been written when the input turns out to have a fault. -/
  | readline {prompt : String} {f : InputFault} {rest : Input} (he : e = .badInput f)
    (hinput : m.input.Splits (.error f) rest) :
    Fails c frame m e { m.write prompt with input := rest } [.text prompt] (.action .readline)
  /-- The new content of an atom cannot be computed. -/
  | swap {cell : CellId} {f : Value} {rest : List Value} {o : Machine} (hf : f.isFunction = true)
    (h : c.call f (m.cells.content cell :: rest) frame m = .failed e o) :
    Fails c frame m e o (.atom cell :: f :: rest) (.action .swap)
  /-- The calls for the elements in front have answered; the one for this element fails. -/
  | map {f xs v : Value} {pre post ws : List Value} {n o : Machine} (hf : f.isFunction = true)
    (hxs : xs.items? = some (pre ++ v :: post))
    (hpre : callEach c.inner f frame pre m = .done ws n)
    (h : c.inner.call f [v] frame n = .failed e o) : Fails c frame m e o [f, xs] (.action .map)
  /-- The only call fails, with the arguments spread. -/
  | apply {f last : Value} {vs items : List Value} {o : Machine} (hf : f.isFunction = true)
    (hlast : last.items? = some items)
    (h : c.call f (spread vs ++ items) frame m = .failed e o) :
    Fails c frame m e o (f :: (vs ++ [last])) (.action .apply)
  /-- The form fails, in the root frame. -/
  | eval {form : Value} {o : Machine}
    (h : c.inner.complete form (m.frames.root frame) m = .failed e o) :
    Fails c frame m e o [form] (.action .eval)

/-! ### Builtins that call nothing -/

/-- A builtin that waits for nothing changes nothing when it fails, unless it reads the input. -/
theorem fails_of_not_givesOn {b : Builtin} (hown : ∀ y, ¬ b.GivesOn c frame y)
    (hsame : ∀ c' : Caller, b.call c' frame args = b.call c frame args)
    (h : b.call c frame args m = .failed e o) : b.Fails c frame m e o args := by
  have houtcome : b.Outcome c frame args m (.failed e o) := h ▸ call_outcome c frame args m b
  cases houtcome with
  | error => exact .alone fun c' => by rw [hsame c', h]
  | interrupted hb hargs hinput =>
    subst hb hargs
    exact .readline rfl hinput
  | passed hy => exact absurd hy (hown _)

theorem not_givesOn_query (q : Query) (y : Run Value) : ¬ GivesOn c frame (.query q) y := by
  rintro ⟨⟩

theorem not_givesOn_action {a : Action} (ha : a ≠ .swap ∧ a ≠ .map ∧ a ≠ .apply ∧ a ≠ .eval)
    (y : Run Value) : ¬ GivesOn c frame (.action a) y := by
  intro hy
  cases hy with
  | call h => simp_all
  | map | eval => simp at ha

/-! ### Calls one after another -/

theorem callEach_cons_eq_done_iff {f v : Value} {vs us : List Value} :
    callEach c f frame (v :: vs) m = .done us o ↔ ∃ w ws n, us = w :: ws ∧
      c.call f [v] frame m = .done w n ∧ callEach c f frame vs n = .done ws o := by
  rw [callEach, Run.bind_eq_done_iff]
  constructor
  · rintro ⟨w, n, hcall, hrest⟩
    obtain ⟨ws, p, hws, hdone⟩ := Run.bind_eq_done_iff.1 hrest
    cases hdone
    exact ⟨w, ws, n, rfl, hcall, hws⟩
  · rintro ⟨w, ws, n, rfl, hcall, hws⟩
    exact ⟨w, n, hcall, Run.bind_eq_done_iff.2 ⟨ws, o, hws, rfl⟩⟩

theorem callEach_cons_eq_failed_iff {f v : Value} {vs : List Value} :
    callEach c f frame (v :: vs) m = .failed e o ↔ c.call f [v] frame m = .failed e o ∨
      ∃ w n, c.call f [v] frame m = .done w n ∧ callEach c f frame vs n = .failed e o := by
  rw [callEach, Run.bind_eq_failed_iff]
  have hrest : ∀ w n, (do return w :: (← callEach c f frame vs) : Run (List Value)) n =
      .failed e o ↔ callEach c f frame vs n = .failed e o := by
    intro w n
    rw [Run.bind_eq_failed_iff]
    simp
  simp only [hrest]

/-- **Calls one after another** fail when one of them does, after those in front have answered. -/
theorem callEach_failed_iff (f : Value) (vs : List Value) :
    callEach c f frame vs m = .failed e o ↔ ∃ pre v post ws n, vs = pre ++ v :: post ∧
      callEach c f frame pre m = .done ws n ∧ c.call f [v] frame n = .failed e o := by
  induction vs generalizing m with
  | nil =>
    constructor
    · intro h
      cases h
    · rintro ⟨pre, v, post, ws, n, hvs, -⟩
      simp at hvs
  | cons w vs ih =>
    rw [callEach_cons_eq_failed_iff]
    constructor
    · rintro (hcall | ⟨u, n, hcall, hrest⟩)
      · exact ⟨[], w, vs, [], m, rfl, rfl, hcall⟩
      · obtain ⟨pre, v, post, ws, p, rfl, hpre, hv⟩ := ih.1 hrest
        exact ⟨w :: pre, v, post, u :: ws, p, rfl,
          callEach_cons_eq_done_iff.2 ⟨u, ws, n, rfl, hcall, hpre⟩, hv⟩
    · rintro ⟨pre, v, post, ws, n, hvs, hpre, hv⟩
      rcases List.cons_eq_append_iff.1 hvs with ⟨rfl, hcons⟩ | ⟨pre, rfl, rfl⟩
      · -- The first call is the one that fails.
        cases hcons
        cases hpre
        exact .inl hv
      · obtain ⟨u, us, p, rfl, hcall, hrest⟩ := callEach_cons_eq_done_iff.1 hpre
        exact .inr ⟨u, p, hcall, ih.2 ⟨pre, v, post, us, n, rfl, hrest, hv⟩⟩

/-! ### Builtins that call functions -/

/-- The list is made when all calls have answered, and making it cannot fail. -/
theorem mapItems_failed_iff {f xs : Value} {items : List Value} (hf : f.isFunction = true)
    (hxs : xs.items? = some items) :
    mapItems c frame [f, xs] m = .failed e o ↔
      callEach c.inner f frame items m = .failed e o := by
  rw [mapItems_eq c frame hf hxs]
  refine Run.bind_eq_failed_iff.trans (or_iff_left ?_)
  rintro ⟨ws, n, -, hlist⟩
  cases hlist

theorem fails_of_refusal {b : Builtin} {r : Error}
    (hr : ∀ c' : Caller, b.call c' frame args = Run.fail r)
    (h : b.call c frame args m = .failed e o) : b.Fails c frame m e o args := by
  rw [hr c] at h
  cases h
  exact .alone fun c' => by rw [hr c']; rfl

theorem swapAtom_fails (h : swapAtom c frame args m = .failed e o) :
    Fails c frame m e o args (.action .swap) := by
  obtain ⟨cell, f, rest, rfl, hf⟩ | ⟨r, hr, -⟩ := swapAtom_cases frame args
  · -- Writing the cell cannot fail.
    rw [swapAtom_eq c frame hf, Run.bind_eq_failed_iff] at h
    obtain hget | ⟨_, _, hget, hrest⟩ := h
    · cases hget
    · cases hget
      obtain hcall | ⟨v, n, -, hwrite⟩ := Run.bind_eq_failed_iff.1 hrest
      · exact .swap hf hcall
      · cases hwrite
  · exact fails_of_refusal hr h

theorem mapItems_fails (h : mapItems c frame args m = .failed e o) :
    Fails c frame m e o args (.action .map) := by
  obtain ⟨f, xs, items, rfl, hf, hxs⟩ | ⟨r, hr, -⟩ := mapItems_cases frame args
  · rw [mapItems_failed_iff hf hxs, callEach_failed_iff] at h
    obtain ⟨pre, v, post, ws, n, rfl, hpre, hv⟩ := h
    exact .map hf hxs hpre hv
  · exact fails_of_refusal hr h

theorem applyTo_fails (h : applyTo c frame args m = .failed e o) :
    Fails c frame m e o args (.action .apply) := by
  obtain ⟨f, vs, last, items, rfl, hf, hlast⟩ | ⟨r, hr, -⟩ := applyTo_cases frame args
  · rw [applyTo_eq c frame hf hlast] at h
    exact .apply hf hlast h
  · exact fails_of_refusal hr h

theorem evalForm_fails (h : evalForm c frame args m = .failed e o) :
    Fails c frame m e o args (.action .eval) := by
  obtain ⟨form, rfl⟩ | ⟨r, hr, -⟩ := evalForm_cases frame args
  · exact .eval h
  · exact fails_of_refusal hr h

/-! ### All builtins -/

/-- **How calls of builtins fail.** There are no other ways, and all of these occur. -/
theorem call_failed_iff (c : Caller) (frame : FrameId) (args : List Value) (m : Machine)
    (b : Builtin) (e : Error) (o : Machine) :
    b.call c frame args m = .failed e o ↔ b.Fails c frame m e o args := by
  constructor
  · intro h
    cases b with
    | query q => exact fails_of_not_givesOn (not_givesOn_query q) (fun _ => rfl) h
    | action a =>
      cases a with
      | swap => exact swapAtom_fails h
      | map => exact mapItems_fails h
      | apply => exact applyTo_fails h
      | eval => exact evalForm_fails h
      | _ => exact fails_of_not_givesOn (not_givesOn_action (by decide)) (fun _ => rfl) h
  · intro h
    cases h with
    | alone h => exact h c
    | @readline prompt f rest he hinput =>
      subst he
      show (Run.ask prompt >>= fun line => pure (line.elim Value.nil Value.text)) m = _
      rw [Run.bind_apply, Run.ask_of_error hinput]
    | swap hf h =>
      refine (congrFun (swapAtom_eq c frame hf) m).trans ?_
      exact Run.bind_eq_failed_iff.2 (.inr ⟨m, m, rfl, Run.bind_eq_failed_iff.2 (.inl h)⟩)
    | map hf hxs hpre h =>
      refine (mapItems_failed_iff hf hxs).2 ?_
      exact (callEach_failed_iff _ _).2 ⟨_, _, _, _, _, rfl, hpre, h⟩
    | apply hf hlast h =>
      exact (congrFun (applyTo_eq c frame hf hlast) m).trans h
    | eval h => exact h

/-- Nothing is printed unless everything has a text. -/
theorem printLine_failed_iff (readable : Bool) :
    printLine readable args m = .failed e o ↔
      o = m ∧ m.printAll readable " " args = .error e := by
  rw [printLine, Run.bind_apply, Run.read]
  cases hprint : m.printAll readable " " args with
  | ok text => simp [Run.bind_apply, Run.modify]
  | error e' => simp [and_comm, eq_comm]

theorem exists_of_swapAtom {cell : CellId} {f v : Value} {rest : List Value}
    (h : swapAtom c frame (.atom cell :: f :: rest) m = .done v o) :
    ∃ n, c.call f (m.cells.content cell :: rest) frame m = .done v n ∧ o = n.setCell cell v := by
  by_cases hf : f.isFunction = true
  · rw [swapAtom_eq c frame hf, Run.bind_eq_done_iff] at h
    obtain ⟨_, _, hget, hrest⟩ := h
    cases hget
    obtain ⟨w, n, hcall, hwrite⟩ := Run.bind_eq_done_iff.1 hrest
    cases hwrite
    exact ⟨n, hcall, rfl⟩
  · rw [swapAtom, if_neg hf] at h
    cases h

end Builtin

/-- A cell that is there holds what has been written last. -/
theorem Machine.content_setCell {cell : CellId} (hcell : cell < m.cells.size) (v : Value) :
    (m.setCell cell v).cells.content cell = v := by
  simp [setCell, Cells.content, Array.getElem_modify, hcell]

/-! ### Programs -/

theorem Caller.apply_builtin_failed_iff (c : Caller) (tail : Bool) (b : Builtin) :
    c.apply tail (.builtin b) args frame m = .failed e o ↔ b.Fails c frame m e o args := by
  rw [← Builtin.call_failed_iff]
  refine Run.bind_eq_failed_iff.trans (or_iff_left ?_)
  rintro ⟨v, n, -, hvalue⟩
  cases hvalue

theorem perform_builtin_failed_iff (fuel level : Nat) (b : Builtin) :
    perform (fuel + 1) level (.call (.builtin b) args frame) m = .failed e o ↔
      m.host.limits.allows level = false ∧ e = .tooDeep ∧ o = m ∨
      m.host.limits.allows level = true ∧ b.Fails ⟨perform fuel, fuel, level⟩ frame m e o args := by
  rw [← Caller.apply_builtin_failed_iff _ false]
  by_cases hallows : m.host.limits.allows level = true
  · rw [perform_succ_of_allows hallows]
    simp [hallows, Caller.perform]
  · rw [perform_succ_of_not_allows hallows]
    simp [hallows, eq_comm]

/-- **Failed calls of builtins.** When a program calls a builtin, from a form or from another
builtin:

  * the call fails because it is nested too deep, or in one of the ways of a builtin: with nothing
    changed, at a fault of the input, or with what it waits for;
  * `prn` and `println` fail only where an argument has no text, and have printed nothing;
  * an atom that is there and has been swapped holds what the function has answered, whatever the
    function has done to it, and everything else is as the function has left it. -/
theorem failed_builtin (fuel level : Nat) (frame : FrameId) (args : List Value) (m : Machine) :
    let c : Caller := ⟨perform fuel, fuel, level⟩
    (∀ b e o,
      (∀ tail, c.apply tail (.builtin b) args frame m = .failed e o ↔
        b.Fails c frame m e o args) ∧
      (perform (fuel + 1) level (.call (.builtin b) args frame) m = .failed e o ↔
        m.host.limits.allows level = false ∧ e = .tooDeep ∧ o = m ∨
        m.host.limits.allows level = true ∧ b.Fails c frame m e o args)) ∧
    (∀ e o, Builtin.call c frame args (.action .prn) m = .failed e o ↔
      o = m ∧ m.printAll true " " args = .error e) ∧
    (∀ e o, Builtin.call c frame args (.action .println) m = .failed e o ↔
      o = m ∧ m.printAll false " " args = .error e) ∧
    ∀ cell f rest v o, args = .atom cell :: f :: rest → cell < m.cells.size →
      Builtin.call c frame args (.action .swap) m = .done v o →
      o.cells.content cell = v ∧
        ∃ n, c.call f (m.cells.content cell :: rest) frame m = .done v n ∧
          o = n.setCell cell v := by
  intro c
  refine ⟨fun b e o => ⟨fun tail => c.apply_builtin_failed_iff tail b, ?_⟩, ?_, ?_, ?_⟩
  · exact perform_builtin_failed_iff fuel level b
  · exact fun e o => Builtin.printLine_failed_iff true
  · exact fun e o => Builtin.printLine_failed_iff false
  · rintro cell f rest v o rfl hcell hswap
    obtain ⟨n, hcall, rfl⟩ := Builtin.exists_of_swapAtom hswap
    have hc : c.Regular := ⟨regular_perform fuel, fun h => .iterate h fuel⟩
    have hreaches : m.Reaches n := (hc.call f _ frame).leads hcall
    have hcell' : cell < n.cells.size := Nat.lt_of_lt_of_le hcell hreaches.size_le
    exact ⟨Machine.content_setCell hcell' v, n, hcall, rfl⟩

/-- A failed call that changes the output and the input, though it calls nothing: the input of
`(readline "p> ")` has a fault. And a failed call of `map` that calls only a builtin leaves what
that has written and read: `(map readline ["p> " 1])`. -/
theorem failed_builtin_readline :
    (let m := Machine.garbled
      let c := outermost 1
      ∃ o, Builtin.call c Session.root [.text "p> "] (.action .readline) m =
          .failed (.badInput .undecodable) o ∧
        (∀ frame y, ¬ Builtin.GivesOn c frame (.action .readline) y) ∧
        m.output = "" ∧ o.output = "p> " ∧ m.input ≠ o.input) ∧
    (let m := { Machine.bare with input := .ofText "a\nb\n" }
      let args := [.builtin (.action .readline), .form [.text "p> ", .int 1]]
      ∃ o, Builtin.call (outermost 1) Session.root args (.action .map) m =
          .failed (.invalidArguments "readline" .string) o ∧
        m.output = "" ∧ o.output = "p> " ∧ o.input = .ofText "b\n") := by
  constructor
  · have hinput : Machine.garbled.input.Splits (.error .undecodable) .ended :=
      .fault [] List.not_mem_nil _ _
    refine ⟨_, (Builtin.call_failed_iff _ _ _ _ _ _ _).2 (.readline rfl hinput), ?_, rfl,
      by decide +kernel, by decide +kernel⟩
    exact fun frame y => Builtin.not_givesOn_action (by decide) y
  · exact ⟨_, rfl, rfl, by decide +kernel, by decide +kernel⟩

/-- `(fn* (x) (do (reset! a 5) form))`, for the first atom. -/
def resetThen (form : Value) : Value :=
  .closure 1 ["x"] (.form [.symbol "do", .form [.symbol "reset!", .atom 0, .int 5], form])
    Session.root false

/-- What the first atom holds in the end. -/
def Result.firstContent? : Result α → Option Value
  | .done _ o | .failed _ o => some (o.cells.content 0)
  | .unfinished => none

/-- A function writes the atom that is swapped. If it fails then, the atom keeps what the function
wrote; if it answers its argument, the atom holds that again. -/
theorem failed_builtin_swap :
    let m := Machine.bare.pushCell (.int 1)
    let c : Caller := ⟨perform 8, (8 : Nat), 0⟩
    let failing := [.atom 0, resetThen (.symbol "y")]
    let answering := [.atom 0, resetThen (.symbol "x")]
    (∃ o, c.apply false (.builtin (.action .swap)) failing Session.root m =
        .failed (.unbound "y") o ∧
      Builtin.Fails c Session.root m (.unbound "y") o failing (.action .swap) ∧
      o.cells.content 0 = .int 5) ∧
    0 < m.cells.size ∧
    ∃ o, Builtin.call c Session.root answering (.action .swap) m = .done (.int 1) o ∧
      o.cells.content 0 = .int 1 := by
  intro m c failing answering
  have herror : (c.apply false (.builtin (.action .swap)) failing Session.root m).error? =
      some (.unbound "y") := by decide +kernel
  have hvalue : (Builtin.call c Session.root answering (.action .swap) m).value? =
      some (.int 1) := by decide +kernel
  obtain ⟨o, ho⟩ := Result.exists_of_error? herror
  obtain ⟨o', ho'⟩ := Result.exists_of_value? hvalue
  have hfails := ((failed_builtin 8 0 Session.root failing m).1 _ _ _).1 false |>.1 ho
  have hswap := (failed_builtin 8 0 Session.root answering m).2.2.2 0 _ [] (.int 1) o' rfl
    Nat.one_pos ho'
  have hcontent : (c.apply false (.builtin (.action .swap)) failing Session.root m).firstContent? =
      some (.int 5) := by decide +kernel
  rw [ho] at hcontent
  exact ⟨⟨o, ho, hfails, Option.some.inj hcontent⟩, Nat.one_pos, o', ho', hswap.1⟩

end AtomLisp
