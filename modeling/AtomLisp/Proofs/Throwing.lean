import AtomLisp.Proofs.FrameChanges
import AtomLisp.Proofs.MacroExpansion
import AtomLisp.Proofs.Writing

/-! # Throwing values

  A handler gets the value that the body of its form throws, not a copy and not a text. But a value
  can be thrown only if it has an inspected form: `throw` asks for that form before it stops. This
  module says what a handler gets for every value.

  * `Value.Meets`, `Value.not_inspect_of_meets`: a value that is met in itself has no inspected
    form, unless a hash-map stands in between;
  * `Machine.thrownError`, `perform_throw`: what throwing a value stops with;
  * `perform_throw_handled`: what the handler of a form gets;
  * `finish_throw`: a value is handed over unchanged if it has an inspected form. In its place comes
    a message if it is nested too deeply, and nothing at all if it holds too long an integer.
-/

namespace AtomLisp

/-! ### Values that are met in themselves -/

namespace Value

variable {cells : Cells} {v w : Value} {steps : Nat} {around : List Value} {text : String}

/-- The parts of a value that its inspected form always looks into; those of a hash-map it passes
over where it has met the hash-map before. -/
def plainParts (cells : Cells) (v : Value) : List Value :=
  match v with
  | .map _ _ => []
  | v => v.parts cells

variable (cells) in
/-- The second value is met in the first one, through lists, vectors and atoms. -/
def Meets : Value → Value → Prop := Relation.TransGen fun v w => w ∈ v.plainParts cells

/-- Parts are inspected in fewer steps than the value. -/
theorem inspect_part (hw : w ∈ v.plainParts cells)
    (h : v.inspectWithin cells steps around = .ok text) :
    ∃ fewer < steps, ∃ shown, w.inspectWithin cells fewer around = .ok shown := by
  cases v with
  | list serial items | vector serial items =>
    rcases steps with _ | _ | _ | steps
    iterate 3 cases h
    refine Classical.by_contradiction fun hnone => not_ok_of_parts hw ?_ text h
    intro shown hshown
    exact hnone ⟨steps, by omega, shown, hshown⟩
  | atom cell =>
    obtain rfl := List.mem_singleton.1 hw
    rcases steps with _ | _ | steps
    iterate 2 cases h
    obtain ⟨shown, hshown, -⟩ := exists_of_bind_eq_ok h
    exact ⟨steps, by omega, shown, hshown⟩
  | _ => cases hw

theorem Meets.inspect (hmeets : v.Meets cells w)
    (h : v.inspectWithin cells steps around = .ok text) :
    ∃ fewer < steps, ∃ shown, w.inspectWithin cells fewer around = .ok shown := by
  induction hmeets with
  | single hw => exact inspect_part hw h
  | tail _ hw ih =>
    obtain ⟨fewer, hfewer, shown, hshown⟩ := ih
    obtain ⟨least, hleast, shown', hshown'⟩ := inspect_part hw hshown
    exact ⟨least, by omega, shown', hshown'⟩

/-- A value that is met in itself has no inspected form: it would have one in fewer and fewer
steps. -/
theorem not_inspect_of_meets (hmeets : v.Meets cells v) (steps : Nat) (text : String) :
    v.inspect cells steps ≠ .ok text := by
  suffices h : ∀ steps text, v.inspectWithin cells steps [] ≠ .ok text from h steps text
  intro steps
  induction steps using Nat.strongRecOn with
  | ind steps ih =>
    intro text h
    obtain ⟨fewer, hfewer, shown, hshown⟩ := hmeets.inspect h
    exact ih fewer hfewer shown hshown

end Value

/-! ### What throwing stops with -/

namespace Machine

/-- What throwing a value stops with: with the value if it has an inspected form, and else with what
is in the way of that form. -/
def thrownError (m : Machine) (v : Value) : Error :=
  match m.inspect v with
  | .ok _ => .thrown v
  | .error e => e

theorem thrownError_of_ok {m : Machine} {v : Value} {text : String} (h : m.inspect v = .ok text) :
    m.thrownError v = .thrown v := by
  rw [thrownError, h]

theorem thrownError_of_error {m : Machine} {v : Value} {e : Error} (h : m.inspect v = .error e) :
    m.thrownError v = e := by
  rw [thrownError, h]

/-- The machine in which a handler starts that sees a value. -/
def handling (m : Machine) (frame : FrameId) (name : String) (seen : Value) : Machine :=
  (m.logCaught seen).pushFrame (some frame) [(name, seen)]

theorem host_handling (m : Machine) (frame : FrameId) (name : String) (seen : Value) :
    (m.handling frame name seen).host = m.host := (Precedes.logCaught m seen).host

end Machine

theorem Texts.throwValue_one (m : Machine) (v : Value) :
    Texts.throwValue m [v] = .error (m.thrownError v) := by
  show (m.inspect v >>= fun _ => throw (.thrown v)) = _
  unfold Machine.thrownError
  cases m.inspect v <;> rfl

/-- A new frame binds its own names. -/
theorem Frames.lookup?_push_first (frames : Frames) (outer : Option FrameId) (name : String)
    (v : Value) (vars : Entries Value) :
    (frames.push outer ((name, v) :: vars)).lookup? name frames.size = some v := by
  have hget : (frames.push outer ((name, v) :: vars)).get? frames.size =
      some ⟨(name, v) :: vars, outer.filter (· < frames.size)⟩ := by
    rw [get?_push, if_pos rfl]
  have hfirst : List.lookup name ((name, v) :: vars) = some v := by simp
  cases houter : outer.filter (· < frames.size) with
  | none =>
    rw [houter] at hget
    rw [lookup?_of_root hget rfl]
    exact hfirst
  | some o =>
    rw [houter] at hget
    rw [lookup?_of_outer hget rfl]
    show (List.lookup name ((name, v) :: vars)).or _ = some v
    rw [hfirst]
    rfl

section

variable {m : Machine} {frame : FrameId} {level : Nat} {name x : String} {v : Value}

/-- Throwing the value of a symbol. -/
theorem perform_throw
    (hthrow : m.frames.lookup? "throw" frame = some (.builtin (.query .throw)))
    (hx : m.frames.lookup? x frame = some v)
    (hallows : m.host.limits.allows (level + 2) = true) (fuel : Nat) (tail : Bool)
    (serial : Serial) :
    perform (fuel + 3) level (.eval tail (.list serial [.symbol "throw", .symbol x]) frame) m =
      .failed (m.thrownError v) m := by
  have hplain : m.NoMacro "throw" frame := by
    intro w hw
    rw [hthrow] at hw
    cases hw
    rfl
  have hspecial : SpecialForm.ofName? "throw" = none := by decide
  let c : Caller := ⟨perform (fuel + 2), (fuel + 2 : Nat), level⟩
  have hhead : c.headValue (.symbol "throw") frame m = .done (.builtin (.query .throw)) m :=
    finish_symbol hthrow Steps.head (Limits.allows_of_le hallows (Nat.le_succ _)) fuel false
  have hvalue : c.value (.symbol x) frame m = .done v m :=
    finish_symbol hx Steps.part hallows fuel false
  have hargs : c.values frame [.symbol x] m = .done [v] m := by
    simp only [Caller.values, Run.bind_apply, hvalue]
    rfl
  rw [perform_succ_of_allows (Limits.allows_of_le hallows (Nat.le_add_right ..))]
  show c.eval tail (.list serial [.symbol "throw", .symbol x]) frame m = _
  rw [Caller.eval_of_none rfl (Machine.macroCall?_eq_none hplain serial _)]
  simp only [Caller.evalForm, Caller.evalForm.specialForm?, hspecial, Run.bind_apply, hhead, hargs]
  show (Run.read (Texts.throwValue · [v]) >>= Answer.make >>= _ : Run Step) m = _
  rw [bind_assoc, Run.bind_apply, Run.read, Texts.throwValue_one]

/-! ### What the handler gets -/

/-- The handler gets what `throw` stops with, as handlers see it. -/
theorem perform_throw_handled (hplain : m.NoMacro "try*" frame)
    (hthrow : m.frames.lookup? "throw" frame = some (.builtin (.query .throw)))
    (hx : m.frames.lookup? x frame = some v)
    (hallows : m.host.limits.allows (level + 4) = true) (fuel : Nat) (tail : Bool)
    (serial clause call : Serial) (name : String) :
    perform (fuel + 4) level (.eval tail
        (tryForm serial clause (.list call [.symbol "throw", .symbol x]) name (.symbol name))
        frame) m =
      match (m.thrownError v).caught? with
      | some seen => .done (.value seen) (m.handling frame name seen)
      | none => .failed (m.thrownError v) m := by
  let c : Caller := ⟨perform (fuel + 3), (fuel + 3 : Nat), level⟩
  have hbody : (Step.value <$> c.value (.list call [.symbol "throw", .symbol x]) frame) m =
      .failed (m.thrownError v) m := by
    have hthrown := perform_throw hthrow hx hallows fuel false call
    show (perform (fuel + 3) (level + 2) (.eval false _ frame) >>= c.settle >>=
      fun v => pure (Step.value v)) m = _
    rw [bind_assoc, Run.bind_apply, hthrown]
  rw [perform_tryForm _ _ _ _ _ hplain _ (Limits.allows_of_le hallows (Nat.le_add_right ..)),
    Run.catching_of_failed hbody]
  cases (m.thrownError v).caught? with
  | none => rfl
  | some seen =>
    -- The handler is the symbol, and its frame binds that to what is seen.
    have hseen : (m.handling frame name seen).frames.lookup? name
        (m.logCaught seen).frames.size = some seen := Frames.lookup?_push_first ..
    have hallows' :
        (m.handling frame name seen).host.limits.allows (level + Steps.part) = true := by
      rw [m.host_handling]
      exact Limits.allows_of_le hallows (Nat.add_le_add_left (by decide) level)
    exact perform_symbol hseen hallows' (fuel + 1) tail

end

/-- **What throwing does to a value.** For every value that a symbol is bound to, a form that throws
it and whose handler answers what it gets, wherever the form stands and with every amount of fuel
that is enough:

  * if the value has an inspected form, the form answers the value itself. Nothing has changed but
    for a line in the journal and the frame of the handler;
  * if the value is nested too deeply for that, the form answers a message instead of the value. So
    it is with every value that is met in itself and holds no integer that is too long;
  * if an integer in the value is too long for a text, the handler gets nothing: the form stops. -/
theorem finish_throw (m : Machine) (frame : FrameId) (level steps : Nat) (x name : String)
    (v : Value) (hplain : m.NoMacro "try*" frame)
    (hthrow : m.frames.lookup? "throw" frame = some (.builtin (.query .throw)))
    (hx : m.frames.lookup? x frame = some v)
    (hallows : m.host.limits.allows (level + steps + 4) = true) (fuel : Nat) (tail : Bool)
    (serial clause call : Serial) :
    let r := (⟨perform (fuel + 4), (fuel + 4 : Nat), level⟩ : Caller).finish steps (.eval tail
      (tryForm serial clause (.list call [.symbol "throw", .symbol x]) name (.symbol name))
      frame) m
    let tooDeep : Value := .text Error.tooDeepMessage
    ((∃ text, m.inspect v = .ok text) ∧ r = .done v (m.handling frame name v) ∨
      m.inspect v = .error .tooDeep ∧ r = .done tooDeep (m.handling frame name tooDeep) ∨
      v.HoldsLong m.cells ∧ r = .failed .numeralTooLong m) ∧
    (v.Meets m.cells v → ¬ v.HoldsLong m.cells →
      r = .done tooDeep (m.handling frame name tooDeep)) := by
  intro r tooDeep
  let c : Caller := ⟨perform (fuel + 4), (fuel + 4 : Nat), level⟩
  have hrounds : c.rounds = (fuel + 3 + 1 : Nat) := rfl
  have hsettle := Caller.settle_value_of_rounds hrounds
  have hr : r = (match (m.thrownError v).caught? with
      | some seen => .done seen (m.handling frame name seen)
      | none => .failed (m.thrownError v) m) := by
    show (perform (fuel + 4) (level + steps) _ >>= c.settle) m = _
    rw [Run.bind_apply, perform_throw_handled hplain hthrow hx hallows]
    cases (m.thrownError v).caught? with
    | none => rfl
    | some seen => exact congrFun (hsettle seen) _
  have hcases : (∃ text, m.inspect v = .ok text) ∧ r = .done v (m.handling frame name v) ∨
      m.inspect v = .error .tooDeep ∧ r = .done tooDeep (m.handling frame name tooDeep) ∨
      v.HoldsLong m.cells ∧ r = .failed .numeralTooLong m := by
    cases hinspect : m.inspect v with
    | ok text =>
      rw [Machine.thrownError_of_ok hinspect] at hr
      exact .inl ⟨⟨text, rfl⟩, hr⟩
    | error e =>
      rw [Machine.thrownError_of_error hinspect] at hr
      rcases Value.inspectWithin_error hinspect with rfl | ⟨rfl, hlong⟩
      · exact .inr (.inl ⟨rfl, hr⟩)
      · exact .inr (.inr ⟨hlong, hr⟩)
  refine ⟨hcases, fun hmeets hlong => ?_⟩
  rcases hcases with ⟨⟨text, htext⟩, -⟩ | ⟨-, hdeep⟩ | ⟨hlong', -⟩
  · exact absurd htext (Value.not_inspect_of_meets hmeets _ _)
  · exact hdeep
  · exact absurd hlong' hlong

/-- A machine with an atom, which `x` is bound to and which has the given content. -/
def Machine.withAtom (content : Value) : Machine :=
  (Machine.bare.pushCell content).define Session.root "x" (.atom 0)

/-- `(try* (throw x) (catch* e e))`. -/
def throwX : Value := tryForm 0 0 (.form [.symbol "throw", .symbol "x"]) "e" (.symbol "e")

theorem Machine.noMacro_withAtom (content : Value) :
    (withAtom content).NoMacro "try*" Session.root := by
  have hlookup : (withAtom .nil).frames.lookup? "try*" Session.root = none := by decide +kernel
  exact noMacro_of_none hlookup

theorem Machine.lookup?_withAtom (content : Value) :
    (withAtom content).frames.lookup? "throw" Session.root =
        some (.builtin (.query .throw)) ∧
      (withAtom content).frames.lookup? "x" Session.root = some (.atom 0) := by
  have hthrow : (withAtom .nil).frames.lookup? "throw" Session.root =
      some (.builtin (.query .throw)) := by decide +kernel
  have hx : (withAtom .nil).frames.lookup? "x" Session.root = some (.atom 0) := by decide +kernel
  exact ⟨hthrow, hx⟩

/-- An atom that holds a hash-map that holds the atom is handed over, the same atom. -/
theorem throwX_throughMap :
    let m := Machine.withAtom (.map 1 [("k", .list 2 [.atom 0, .int 7])])
    m.NoMacro "try*" Session.root ∧
      m.frames.lookup? "throw" Session.root = some (.builtin (.query .throw)) ∧
      m.frames.lookup? "x" Session.root = some (.atom 0) ∧
      m.host.limits.allows (0 + Steps.body + 4) = true ∧
      (∃ text, m.inspect (.atom 0) = .ok text) ∧
      evaluate 4 throwX Session.root m =
        .done (.atom 0) (m.handling Session.root "e" (.atom 0)) := by
  intro m
  obtain ⟨hthrow, hx⟩ := Machine.lookup?_withAtom (.map 1 [("k", .list 2 [.atom 0, .int 7])])
  have hplain : m.NoMacro "try*" Session.root := Machine.noMacro_withAtom _
  have hinspect : m.inspect (.atom 0) = .ok "Atom(\x7b'k': List([Atom(\x7b...\x7d), 7])\x7d)" := by
    decide +kernel
  refine ⟨hplain, hthrow, hx, rfl, ⟨_, hinspect⟩, ?_⟩
  rcases (finish_throw m Session.root 0 Steps.body "x" "e" (.atom 0) hplain hthrow hx rfl 0 true
    0 0 0).1 with ⟨-, hdone⟩ | ⟨herror, -⟩ | ⟨hlong, -⟩
  · exact hdone
  · rw [hinspect] at herror
    cases herror
  · exact absurd hinspect (hlong.not_inspect _ _)

/-- An atom that holds itself is not handed over, nor is an integer of too many digits: a message
comes in place of the atom, and the integer gets past the handler. -/
theorem throw_changed :
    let holdsItself := Machine.withAtom (.atom 0)
    let holdsLong := Machine.bare.define Session.root "x" (.int Numeral.bound)
    holdsItself.frames.lookup? "x" Session.root = some (.atom 0) ∧
      (evaluate 9 throwX Session.root holdsItself).value? = some (.text Error.tooDeepMessage) ∧
      holdsLong.frames.lookup? "x" Session.root = some (.int Numeral.bound) ∧
      (evaluate 9 throwX Session.root holdsLong).error? = some .numeralTooLong := by
  refine ⟨by decide +kernel, by decide +kernel, by decide +kernel, by decide +kernel⟩

end AtomLisp
