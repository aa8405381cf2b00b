import AtomLisp.Proofs.FrameChanges

/-! # Lexical scope

  A call is told which frame it comes from, and hands that frame on to the calls that builtins make
  in turn. But nothing is ever looked up there: a closure works below the frame that it was made
  in, and `eval` works in the root. So of the caller's frame only the root counts.

  * `Frames.Extends.root_eq_root`: frames with the same root keep having the same root;
  * `Caller.Scoped`: calls that are given on do not depend on where they come from;
  * `perform_call_eq_of_root_eq`: neither does any call.
-/

namespace AtomLisp

/-! ### Roots -/

namespace Frames

variable {frames later : Frames}

/-- Walking outward leads to older frames. -/
theorem root_le (frames : Frames) (id : FrameId) : frames.root id ≤ id := by
  induction id using Nat.strongRecOn with
  | ind id ih =>
    cases hget : frames.get? id with
    | none => exact Nat.le_of_eq (root_of_none hget)
    | some frame =>
      cases houter : frame.outer with
      | none => exact Nat.le_of_eq (root_of_root hget houter)
      | some outer =>
        have hlt := frames.outer_lt id frame outer hget houter
        rw [root_of_outer hget houter]
        exact Nat.le_trans (ih outer hlt) (Nat.le_of_lt hlt)

/-- No frame gets another root. -/
theorem Extends.root_eq (h : frames.Extends later) {id : FrameId} (hid : id < frames.size) :
    later.root id = frames.root id := by
  induction id using Nat.strongRecOn with
  | ind id ih =>
    obtain ⟨frame, hget⟩ := exists_get? hid
    obtain ⟨frame', hget', houter', -⟩ := h id frame hget
    cases houter : frame.outer with
    | none => rw [root_of_root hget houter, root_of_root hget' (houter'.trans houter)]
    | some outer =>
      have hlt := frames.outer_lt id frame outer hget houter
      rw [root_of_outer hget houter, root_of_outer hget' (houter'.trans houter)]
      exact ih outer hlt (Nat.lt_trans hlt hid)

/-- Frames with the same root keep having the same root. -/
theorem Extends.root_eq_root (h : frames.Extends later) {id id' : FrameId}
    (hroot : frames.root id = frames.root id') : later.root id = later.root id' := by
  by_cases hid : id < frames.size
  · by_cases hid' : id' < frames.size
    · rw [h.root_eq hid, h.root_eq hid', hroot]
    · -- What is no frame is its own root, and cannot be that of a frame.
      have hle := frames.root_le id
      rw [hroot, root_of_none (get?_eq_none_iff.2 (Nat.le_of_not_lt hid'))] at hle
      exact absurd (Nat.lt_of_le_of_lt hle hid) hid'
  · rw [root_of_none (get?_eq_none_iff.2 (Nat.le_of_not_lt hid))] at hroot
    have hle := frames.root_le id'
    by_cases hid' : id' < frames.size
    · exact absurd (Nat.lt_of_le_of_lt (hroot ▸ hle) hid') hid
    · rw [root_of_none (get?_eq_none_iff.2 (Nat.le_of_not_lt hid'))] at hroot
      rw [hroot]

end Frames

/-! ### Calls that are given on -/

/-- The calls that are given on, at whatever level, do not depend on the frame that they come from,
but for its root; and frames are kept. -/
structure Caller.Scoped (c : Caller) : Prop where
  onLevel_call_eq : ∀ (level : Nat) (f : Value) (args : List Value) {frame frame' : FrameId}
    {m : Machine}, m.frames.root frame = m.frames.root frame' →
      (c.onLevel level).call f args frame m = (c.onLevel level).call f args frame' m
  call_extends : ∀ (level : Nat) (f : Value) (args : List Value) (frame : FrameId) (m : Machine),
    ((c.onLevel level).call f args frame m).Sat (fun m' => m.frames.Extends m'.frames)
      fun _ => True

namespace Caller.Scoped

variable {c : Caller} {frame frame' : FrameId} {m : Machine}

theorem call_eq (hc : c.Scoped) (f : Value) (args : List Value)
    (h : m.frames.root frame = m.frames.root frame') :
    c.call f args frame m = c.call f args frame' m :=
  hc.onLevel_call_eq c.level f args h

/-- Calls that are given on a step deeper are such calls again. -/
theorem inner (hc : c.Scoped) : c.inner.Scoped :=
  ⟨hc.onLevel_call_eq, hc.call_extends⟩

theorem swapAtom (hc : c.Scoped) (h : m.frames.root frame = m.frames.root frame')
    (args : List Value) : Builtin.swapAtom c frame args m = Builtin.swapAtom c frame' args m := by
  unfold Builtin.swapAtom
  split
  · split
    · simp only [Run.bind_apply, Run.get, hc.call_eq _ _ h]
    · rfl
  · rfl
  · rfl

/-- After each call the two frames still have the same root, so the next call agrees as well. -/
theorem callEach (hc : c.Scoped) (f : Value) (vs : List Value)
    (h : m.frames.root frame = m.frames.root frame') :
    Builtin.callEach c f frame vs m = Builtin.callEach c f frame' vs m := by
  induction vs generalizing m with
  | nil => rfl
  | cons v vs ih =>
    simp only [Builtin.callEach, Run.bind_apply, hc.call_eq f [v] h]
    have hextends : (c.call f [v] frame' m).Sat (fun m' => m.frames.Extends m'.frames)
        fun _ => True := hc.call_extends c.level f [v] frame' m
    cases hr : c.call f [v] frame' m with
    | done w m' =>
      rw [hr] at hextends
      have h' := hextends.1.root_eq_root h
      simp only [ih h']
    | failed e m' => rfl
    | unfinished => rfl

theorem mapItems (hc : c.Scoped) (h : m.frames.root frame = m.frames.root frame')
    (args : List Value) : Builtin.mapItems c frame args m = Builtin.mapItems c frame' args m := by
  unfold Builtin.mapItems
  cases Arguments.two Builtin.Action.map.name args with
  | error e => rfl
  | ok p =>
    simp only [Run.ofExcept, pure_bind]
    cases p.1.isFunction with
    | false => rfl
    | true =>
      cases p.2.items? with
      | none => rfl
      | some items => simp only [Run.bind_apply, hc.inner.callEach _ _ h]

theorem applyTo (hc : c.Scoped) (h : m.frames.root frame = m.frames.root frame')
    (args : List Value) : Builtin.applyTo c frame args m = Builtin.applyTo c frame' args m := by
  unfold Builtin.applyTo
  split
  · rename_i f v vs
    cases f.isFunction with
    | false => rfl
    | true =>
      cases ((v :: vs).getLast (List.cons_ne_nil v vs)).items? with
      | none => rfl
      | some items => exact hc.call_eq _ _ h
  · rfl

/-- A form that is evaluated in the root is evaluated in the root of either frame. -/
theorem evalInRoot (h : m.frames.root frame = m.frames.root frame') (args : List Value) :
    Builtin.evalForm c frame args m = Builtin.evalForm c frame' args m := by
  unfold Builtin.evalForm
  cases Arguments.one Builtin.Action.eval.name args with
  | error e => rfl
  | ok form =>
    show c.inner.complete form (m.frames.root frame) m =
      c.inner.complete form (m.frames.root frame') m
    rw [h]

theorem builtin (hc : c.Scoped) (h : m.frames.root frame = m.frames.root frame') (b : Builtin)
    (args : List Value) : b.call c frame args m = b.call c frame' args m := by
  cases b with
  | query q => rfl
  | action a =>
    cases a with
    | prn | println | readline | atom | reset => rfl
    | swap => exact hc.swapAtom h args
    | map => exact hc.mapItems h args
    | apply => exact hc.applyTo h args
    | eval => exact evalInRoot h args

theorem apply (hc : c.Scoped) (h : m.frames.root frame = m.frames.root frame') (tail : Bool)
    (f : Value) (args : List Value) :
    c.apply tail f args frame m = c.apply tail f args frame' m := by
  cases f with
  | builtin b => simp only [Caller.apply, Run.bind_apply, hc.builtin h b args]
  | _ => rfl

end Caller.Scoped

/-! ### All calls -/

/-- Calls keep the frames that there are. -/
theorem call_extends (fuel level : Nat) (f : Value) (args : List Value) (frame : FrameId)
    (m : Machine) :
    (Caller.call ⟨perform fuel, fuel, level⟩ f args frame m).Sat
      (fun m' => m.frames.Extends m'.frames) fun _ => True := by
  have hcallers := (Discipline.within m.frames frame).callers_perform fuel level
  have hwithin := (hcallers.call (show m.frames.Writable frame frame from .inl rfl) f args m
    (.refl m.frames frame)).2 ()
  exact hwithin.mono (fun _ h => h.extends_base) fun _ => id

/-- **Calls are lexically scoped.** Called from two frames with the same root, a closure, macro or
builtin comes to the same value or error and leaves the same machine: output, input and report,
frames and bindings, and atoms. This holds with whatever arguments, in every machine, and at every
level and with every amount of fuel. -/
theorem perform_call_eq_of_root_eq (fuel level : Nat) (f : Value) (args : List Value)
    (frame frame' : FrameId) (m : Machine) (h : m.frames.root frame = m.frames.root frame') :
    perform fuel level (.call f args frame) m = perform fuel level (.call f args frame') m := by
  induction fuel generalizing level f args frame frame' m with
  | zero => rfl
  | succ fuel ih =>
    have hscoped : Caller.Scoped ⟨perform fuel, fuel, level⟩ :=
      { onLevel_call_eq := fun level f args _ _ m h =>
          Run.bind_congr_at (ih (level + Steps.call) f args _ _ m h) _
        call_extends := call_extends fuel }
    show (if m.host.limits.allows level = true then
        Caller.perform ⟨perform fuel, fuel, level⟩ (.call f args frame) else Run.fail .tooDeep) m =
      (if m.host.limits.allows level = true then
        Caller.perform ⟨perform fuel, fuel, level⟩ (.call f args frame') else Run.fail .tooDeep) m
    split
    · exact hscoped.apply h false f args
    · rfl

/-- Two frames below the root, each with its own value for a name of the root. -/
def rivals : Machine :=
  ((siblings.define Session.root "x" (.int 1)).define 1 "x" (.int 2)).define 2 "x" (.int 3)

/-- `(map eval (list 'x))` sees the value of the root, from either of the frames. -/
theorem map_eval_rivals :
    let call (frame : FrameId) : Job :=
      .call (.builtin (.action .map)) [.builtin (.action .eval), .form [.symbol "x"]] frame
    rivals.frames.root 1 = rivals.frames.root 2 ∧
      rivals.frames.lookup? "x" 1 ≠ rivals.frames.lookup? "x" 2 ∧
      (perform 5 0 (call 1) rivals).value? = some (.value (.list 1 [.int 1])) ∧
      perform 5 0 (call 1) rivals = perform 5 0 (call 2) rivals := by
  intro call
  have hroot : rivals.frames.root 1 = rivals.frames.root 2 := by decide +kernel
  exact ⟨hroot, by decide +kernel, by decide +kernel,
    perform_call_eq_of_root_eq 5 0 _ _ 1 2 rivals hroot⟩

end AtomLisp
