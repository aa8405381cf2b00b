import AtomLisp.Proofs.TailCall

/-! # Quasiquoted templates

  A quasiquoted form is evaluated by way of code that builds its value. This module says what that
  value is without the code, and shows that the code gives it.

  * `Template.fill`: filling a template, with the elements taken from left to right;
  * `Template.Throughout`: a condition holds whenever the code comes to look up a primitive;
  * `complete_code`: the code of a template fills the template;
  * `evaluate_quasiquote`: evaluating a quasiquoted form and filling the template come to an end
    together, and in the same way.
-/

namespace AtomLisp

/-- What follows a run decides about the value. -/
theorem Run.bind_sat {α β : Type} {x : Run α} {f : α → Run β} {Q : β → Prop}
    (h : ∀ a m, (f a m).Sat (fun _ => True) Q) (m : Machine) :
    ((x >>= f) m).Sat (fun _ => True) Q := by
  rw [Run.bind_apply]
  cases x m with
  | done a m' => exact h a m'
  | _ => trivial

/-! ### Primitives -/

/-- As seen from the frame, no macro is bound to the name. -/
def Machine.NoMacro (m : Machine) (name : String) (frame : FrameId) : Prop :=
  ∀ v, m.frames.lookup? name frame = some v → v.isMacro = false

theorem Machine.noMacro_of_none {m : Machine} {name : String} {frame : FrameId}
    (h : m.frames.lookup? name frame = none) : m.NoMacro name frame :=
  fun _ hv => absurd (h.symm.trans hv) nofun

/-- As seen from the frame, the primitives that build templates are what they are by default. -/
structure Machine.Intact (frame : FrameId) (m : Machine) : Prop where
  cons   : m.frames.lookup? "cons" frame = some (.builtin (.query .cons))
  concat : m.frames.lookup? "concat" frame = some (.builtin (.query .concat))
  vec    : m.frames.lookup? "vec" frame = some (.builtin (.query .vec))
  quote  : m.NoMacro "quote" frame

theorem Machine.macroCall?_eq_none {m : Machine} {name : String} {frame : FrameId}
    (h : m.NoMacro name frame) (serial : Serial) (args : List Value) :
    m.macroCall? (.list serial (.symbol name :: args)) frame = none := by
  cases hv : m.frames.lookup? name frame with
  | none => simp only [Machine.macroCall?, hv]
  | some v =>
    have hplain := h v hv
    cases v with
    | closure serial params body home isMacro =>
      cases hplain
      simp only [Machine.macroCall?, hv]
    | _ => simp only [Machine.macroCall?, hv]

/-! ### Filling -/

namespace Template

/-- A value in front of the elements of a list. -/
def prepend (v rest : Value) : Run Value := Run.newList (v :: rest.items?.getD [])

/-- The elements of a value in front of those of a list. A value that has none is refused, and
shown in the message. -/
def splice (v rest : Value) : Run Value :=
  match v.items? with
  | some front => Run.newList (front ++ rest.items?.getD [])
  | none => do
    let shown ← Run.read (·.print true v)
    Run.fail (.invalidArguments Builtin.Query.concat.name (.sequences shown))

mutual

/-- Fills a template; `value` gives the values of the marked expressions. Lists and vectors keep
their kind, and what is neither stands for itself. -/
def fill (value : Value → Run Value) : Value → Run Value
  | .list s items =>
    match marked? "unquote" (.list s items) with
    | some x => value x
    | none => fillItems value items
  | .vector _ items => do
    let filled ← fillItems value items
    Run.newVector (filled.items?.getD [])
  | v => pure v
termination_by structural v => v

/-- Fills the elements of a template from left to right. Their list is put together from its end,
when all of them are there. -/
def fillItems (value : Value → Run Value) : List Value → Run Value
  | [] => pure (.form [])
  | item :: items =>
    match marked? "splice-unquote" item with
    | some x => do
      let v ← value x
      let rest ← fillItems value items
      splice v rest
    | none => do
      let v ← fill value item
      let rest ← fillItems value items
      prepend v rest
termination_by structural vs => vs

end

mutual

/-- The condition `I` holds whenever a primitive is about to be used: before each element of a
list or vector, and wherever a vector, symbol or hash-map stands in the template. -/
def Throughout (value : Value → Run Value) (I : Machine → Prop) : Value → Machine → Prop
  | .list s items, m =>
    match marked? "unquote" (.list s items) with
    | some _ => True
    | none => ThroughoutItems value I items m
  | .vector _ items, m => I m ∧ ThroughoutItems value I items m
  | .symbol _, m | .map _ _, m => I m
  | _, _ => True
termination_by structural v => v

/-- The condition `I` holds before each of the elements. -/
def ThroughoutItems (value : Value → Run Value) (I : Machine → Prop) :
    List Value → Machine → Prop
  | [], _ => True
  | item :: items, m =>
    I m ∧
      match marked? "splice-unquote" item with
      | some x => ∀ v m', value x m = .done v m' → ThroughoutItems value I items m'
      | none => Throughout value I item m ∧
          ∀ v m', fill value item m = .done v m' → ThroughoutItems value I items m'
termination_by structural vs => vs

end

/-- The value is a list. -/
def IsList (v : Value) : Prop := ∃ serial vs, v = .list serial vs

theorem newList_sat (items : List Value) (m : Machine) :
    (Run.newList items m).Sat (fun _ => True) IsList := ⟨trivial, _, items, rfl⟩

theorem splice_sat (v rest : Value) (m : Machine) :
    (splice v rest m).Sat (fun _ => True) IsList := by
  unfold splice
  cases v.items? with
  | some front => exact newList_sat _ m
  | none => exact Run.bind_sat (x := Run.read (·.print true v)) (fun _ _ => by trivial) m

/-- Filled elements are a list. -/
theorem fillItems_sat (value : Value → Run Value) (items : List Value) (m : Machine) :
    (fillItems value items m).Sat (fun _ => True) IsList := by
  cases items with
  | nil => exact ⟨trivial, 0, [], rfl⟩
  | cons item items =>
    unfold fillItems
    cases marked? "splice-unquote" item with
    | some x => exact Run.bind_sat (fun v => Run.bind_sat fun rest => splice_sat v rest) m
    | none => exact Run.bind_sat (fun v => Run.bind_sat fun rest => newList_sat _) m

/-! ### The code of a template -/

mutual

/-- How many lists the code of a template takes. -/
def lists : Value → Nat
  | .list s items =>
    match marked? "unquote" (.list s items) with
    | some _ => 0
    | none => listsOfItems items
  | .vector _ items => listsOfItems items + 1
  | .symbol _ | .map _ _ => 1
  | _ => 0
termination_by structural v => v

/-- How many lists the code of the elements of a template takes. -/
def listsOfItems : List Value → Nat
  | [] => 0
  | item :: items =>
    match marked? "splice-unquote" item with
    | some _ => listsOfItems items + 1
    | none => listsOfItems items + lists item + 1
termination_by structural vs => vs

end

mutual

/-- The code builds the value of the template, whatever the serial numbers of its lists are. -/
def IsCode : Value → Value → Prop
  | .list s items, code =>
    match marked? "unquote" (.list s items) with
    | some x => code = x
    | none => IsCodeOfItems items code
  | .vector _ items, code =>
    ∃ serial inner, code = .list serial [.symbol "vec", inner] ∧ IsCodeOfItems items inner
  | .symbol name, code => ∃ serial, code = .list serial [.symbol "quote", .symbol name]
  | .map s entries, code => ∃ serial, code = .list serial [.symbol "quote", .map s entries]
  | v, code => code = v
termination_by structural v => v

/-- The code builds the list of the elements of a template. -/
def IsCodeOfItems : List Value → Value → Prop
  | [], code => code = .form []
  | item :: items, code =>
    ∃ serial rest, IsCodeOfItems items rest ∧
      match marked? "splice-unquote" item with
      | some x => code = .list serial [.symbol "concat", x, rest]
      | none => ∃ first, IsCode item first ∧ code = .list serial [.symbol "cons", first, rest]
termination_by structural vs => vs

end

end Template

/-- The machine after some serial numbers have been given away. -/
def Machine.skipSerials (m : Machine) (count : Nat) : Machine :=
  { m with nextSerial := m.nextSerial + count }

namespace Template

theorem skipSerials_skipSerials (m : Machine) (n k : Nat) :
    (m.skipSerials n).skipSerials k = m.skipSerials (n + k) := by
  simp only [Machine.skipSerials, Nat.add_assoc]

theorem newList_apply (items : List Value) (m : Machine) :
    Run.newList items m = .done (.list m.nextSerial items) (m.skipSerials 1) := rfl

mutual

/-- A template is expanded to its code; nothing but serial numbers is used up. -/
theorem expand_eq : ∀ (template : Value) (m : Machine),
    ∃ code, expand template m = .done code (m.skipSerials (lists template)) ∧
      IsCode template code
  | .list s items, m => by
    unfold expand lists IsCode
    cases marked? "unquote" (.list s items) with
    | some x => exact ⟨x, rfl, rfl⟩
    | none => exact expandItems_eq items m
  | .vector _ items, m => by
    obtain ⟨inner, hinner, hcode⟩ := expandItems_eq items m
    unfold expand lists IsCode
    simp only [Run.bind_apply, hinner, newList_apply, skipSerials_skipSerials]
    exact ⟨_, rfl, _, inner, rfl, hcode⟩
  | .symbol name, m => ⟨_, rfl, m.nextSerial, rfl⟩
  | .map s entries, m => ⟨_, rfl, m.nextSerial, rfl⟩
  | .nil, _ | .bool _, _ | .int _, _ | .text _, _ | .atom _, _ | .builtin _, _
  | .closure .., _ => ⟨_, rfl, rfl⟩

theorem expandItems_eq : ∀ (items : List Value) (m : Machine),
    ∃ code, expandItems items m = .done code (m.skipSerials (listsOfItems items)) ∧
      IsCodeOfItems items code
  | [], m => ⟨.form [], rfl, rfl⟩
  | item :: items, m => by
    obtain ⟨rest, hrest, hcode⟩ := expandItems_eq items m
    -- The code of the elements after this one is made first.
    simp only [expandItems, listsOfItems, IsCodeOfItems, Run.bind_apply, hrest]
    cases marked? "splice-unquote" item with
    | some x =>
      simp only [newList_apply, skipSerials_skipSerials]
      exact ⟨_, rfl, _, rest, hcode, rfl⟩
    | none =>
      obtain ⟨first, hfirst, hcode'⟩ := expand_eq item (m.skipSerials (listsOfItems items))
      simp only [Run.bind_apply, hfirst, newList_apply, skipSerials_skipSerials]
      exact ⟨_, rfl, _, rest, hcode, first, hcode', rfl⟩

end

end Template

/-! ### Evaluation of code -/

namespace Caller

variable {form : Value} {frame : FrameId} {m : Machine}

theorem expandNext_of_none (c : Caller) (h : m.macroCall? form frame = none) :
    c.expandNext frame form m = .done (.inr form) m := by
  unfold expandNext
  simp only [Run.bind_apply, Run.get, h]
  rfl

theorem expand_of_none (h : m.macroCall? form frame = none) :
    unbounded.expand frame unbounded.rounds form m = .done form m := by
  -- The first round is the last one.
  show Rounds.unbounded.run (unbounded.expandNext frame) form m = _
  rw [Rounds.unbounded_run, Run.bind_apply, expandNext_of_none unbounded h]
  rfl

/-- One round is enough to see that a form is no macro call. -/
theorem expand_succ_of_none (c : Caller) (h : m.macroCall? form frame = none) (rounds : Nat) :
    c.expand frame (rounds + 1 : Nat) form m = .done form m := by
  show Run.iterate (c.expandNext frame) (rounds + 1) form m = _
  rw [Run.iterate_succ, Run.bind_apply, expandNext_of_none c h]
  rfl

/-- A form that is no macro call is evaluated as it is. -/
theorem complete_of_none (h : m.macroCall? form frame = none) :
    unbounded.complete form frame m =
      (unbounded.evalForm true form frame >>= unbounded.settle) m := by
  show (denote (.eval true form frame) >>= unbounded.settle) m = _
  rw [denote_eq]
  show ((unbounded.expand frame unbounded.rounds form >>= fun form =>
    unbounded.evalForm true form frame) >>= unbounded.settle) m = _
  rw [bind_assoc, Run.bind_apply, expand_of_none h]

/-- A form that ends with a value at once. -/
theorem complete_of_evalForm {v : Value} (h : m.macroCall? form frame = none)
    (hform : unbounded.evalForm true form frame m = .done (.value v) m) :
    unbounded.complete form frame m = .done v m := by
  rw [complete_of_none h, Run.bind_apply, hform]
  simp only [settle_value, Run.pure_apply]

theorem complete_symbol {name : String} {v : Value} (h : m.frames.lookup? name frame = some v) :
    unbounded.complete (.symbol name) frame m = .done v m := by
  refine complete_of_evalForm rfl ?_
  simp only [evalForm, Run.bind_apply, Run.get, h]
  rfl

theorem complete_quote (h : m.NoMacro "quote" frame) (serial : Serial) (v : Value) :
    unbounded.complete (.list serial [.symbol "quote", v]) frame m = .done v m :=
  complete_of_evalForm (Machine.macroCall?_eq_none h serial [v]) rfl

/-- A call of a builtin by its name: the arguments are evaluated and handed over. -/
theorem complete_builtin {name : String} {b : Builtin} (hname : SpecialForm.ofName? name = none)
    (h : m.frames.lookup? name frame = some (.builtin b)) (serial : Serial) (args : List Value) :
    unbounded.complete (.list serial (.symbol name :: args)) frame m =
      (unbounded.values frame args >>= fun vs => b.call unbounded frame vs) m := by
  -- A builtin is no macro, so the call is not expanded.
  have hplain : m.NoMacro name frame := by
    intro v hv
    rw [h] at hv
    cases hv
    rfl
  have hhead : unbounded.headValue (.symbol name) frame m = .done (.builtin b) m := by
    rw [headValue_eq_value, value_eq_complete, complete_symbol h]
  rw [complete_of_none (Machine.macroCall?_eq_none hplain serial args)]
  simp only [evalForm, evalForm.specialForm?, hname, bind_assoc]
  -- The head is evaluated before the arguments, and leaves the machine as it is.
  rw [Run.bind_apply, hhead]
  simp only [apply, bind_assoc, pure_bind, settle_value, bind_pure]

end Caller

/-! ### The code fills the template -/

namespace Template

/-- The values of the marked expressions, as they are without bound. -/
noncomputable def valueIn (frame : FrameId) (x : Value) : Run Value :=
  Caller.unbounded.complete x frame

variable {frame : FrameId} {m : Machine}

theorem complete_vec (h : m.Intact frame) (serial : Serial) (code : Value) :
    valueIn frame (.list serial [.symbol "vec", code]) m =
      (valueIn frame code >>= fun v =>
        Builtin.call Caller.unbounded frame [v] (.query .vec)) m := by
  rw [valueIn, Caller.complete_builtin (by decide) h.vec]
  simp only [Caller.values, Caller.value_eq_complete, bind_assoc, pure_bind]
  rfl

/-- A call of a builtin with two arguments. -/
theorem complete_two {name : String} {b : Builtin} (hname : SpecialForm.ofName? name = none)
    (h : m.frames.lookup? name frame = some (.builtin b)) (serial : Serial) (x y : Value) :
    valueIn frame (.list serial [.symbol name, x, y]) m =
      (do
        let v ← valueIn frame x
        let w ← valueIn frame y
        b.call Caller.unbounded frame [v, w] : Run Value) m := by
  rw [valueIn, Caller.complete_builtin hname h]
  simp only [Caller.values, Caller.value_eq_complete, bind_assoc, pure_bind]
  rfl

theorem call_vec (c : Caller) (serial : Serial) (vs : List Value) :
    Builtin.call c frame [.list serial vs] (.query .vec) = Run.newVector vs := rfl

theorem call_cons (c : Caller) (v : Value) (serial : Serial) (vs : List Value) :
    Builtin.call c frame [v, .list serial vs] (.query .cons) = prepend v (.list serial vs) := rfl

theorem call_concat (c : Caller) (v : Value) (serial : Serial) (vs : List Value) :
    Builtin.call c frame [v, .list serial vs] (.query .concat) = splice v (.list serial vs) := by
  funext m
  show (Run.read (fun m => Sequences.join m [v, .list serial vs]) >>= Answer.make) m = _
  unfold splice
  -- A list after the value is always accepted, so only the value itself may be refused.
  cases hv : v.items? with
  | some front =>
    have hvs : (Value.list serial vs).items? = some vs := rfl
    have hjoin : Sequences.join m [v, .list serial vs] = .ok (.list (front ++ vs)) := by
      simp only [Sequences.join, Sequences.joinItems, hv, hvs]
      show Except.ok (Answer.list (front ++ (vs ++ []))) = _
      rw [List.append_nil]
    simp only [Run.bind_apply, Run.read, hjoin]
    rfl
  | none =>
    cases hprint : m.print true v with
    | ok shown =>
      have hjoin : Sequences.join m [v, .list serial vs] =
          .error (.invalidArguments Builtin.Query.concat.name (.sequences shown)) := by
        simp [Sequences.join, Sequences.joinItems, hv, hprint, Arguments.misuse]
        rfl
      simp only [Run.bind_apply, Run.read, hjoin, hprint]
      rfl
    | error e =>
      have hjoin : Sequences.join m [v, .list serial vs] = .error e := by
        simp [Sequences.join, Sequences.joinItems, hv, hprint]
        rfl
      simp only [Run.bind_apply, Run.read, hjoin, hprint]

/-- An element and the list of those after it are joined in the code as in the filled template. -/
theorem join_elements {element : Run Value} {call join : Value → Value → Run Value}
    {rest : Value} {items : List Value}
    (hrest : ∀ v m', element m = .done v m' →
      valueIn frame rest m' = fillItems (valueIn frame) items m')
    (hjoin : ∀ v serial vs, call v (.list serial vs) = join v (.list serial vs)) :
    (element >>= fun v => valueIn frame rest >>= call v) m =
      (element >>= fun v => fillItems (valueIn frame) items >>= join v) m := by
  rw [Run.bind_apply, Run.bind_apply]
  cases hv : element m with
  | done v m' =>
    have hlist := fillItems_sat (valueIn frame) items m'
    show (valueIn frame rest >>= call v) m' = (fillItems (valueIn frame) items >>= join v) m'
    rw [Run.bind_apply, Run.bind_apply, hrest v m' hv]
    cases hr : fillItems (valueIn frame) items m' with
    | done w m'' =>
      -- What the builtin gets as the list of the others is a list indeed.
      rw [hr] at hlist
      obtain ⟨-, serial, vs, rfl⟩ := hlist
      exact congrFun (hjoin v serial vs) m''
    | _ => rfl
  | _ => rfl

mutual

/-- The code of a template fills the template. -/
theorem complete_code : ∀ (template code : Value) (m : Machine), IsCode template code →
    Throughout (valueIn frame) (Machine.Intact frame) template m →
    valueIn frame code m = fill (valueIn frame) template m
  | .list s items, code, m, hcode, hm => by
    unfold IsCode at hcode
    unfold Throughout at hm
    unfold fill
    cases hmarked : marked? "unquote" (.list s items) with
    | some x =>
      rw [hmarked] at hcode
      rw [hcode]
    | none =>
      rw [hmarked] at hcode hm
      exact complete_codeOfItems items code m hcode hm
  | .vector _ items, _, m, ⟨serial, inner, rfl, hinner⟩, ⟨hm, hitems⟩ => by
    unfold fill
    have hlist := fillItems_sat (valueIn frame) items m
    have hvalue := complete_codeOfItems items inner m hinner hitems
    rw [complete_vec hm, Run.bind_apply, Run.bind_apply, hvalue]
    cases hr : fillItems (valueIn frame) items m with
    | done v m' =>
      rw [hr] at hlist
      obtain ⟨-, listSerial, vs, rfl⟩ := hlist
      exact congrFun (call_vec Caller.unbounded listSerial vs) m'
    | _ => rfl
  | .symbol name, _, _, ⟨serial, rfl⟩, hm => Caller.complete_quote hm.quote serial (.symbol name)
  | .map s entries, _, _, ⟨serial, rfl⟩, hm =>
    Caller.complete_quote hm.quote serial (.map s entries)
  | .nil, _, _, rfl, _ | .bool _, _, _, rfl, _ | .int _, _, _, rfl, _ | .text _, _, _, rfl, _
  | .atom _, _, _, rfl, _ | .builtin _, _, _, rfl, _ | .closure .., _, _, rfl, _ =>
    Caller.complete_of_evalForm rfl rfl

/-- The code of the elements of a template fills them. -/
theorem complete_codeOfItems : ∀ (items : List Value) (code : Value) (m : Machine),
    IsCodeOfItems items code →
    ThroughoutItems (valueIn frame) (Machine.Intact frame) items m →
    valueIn frame code m = fillItems (valueIn frame) items m
  | [], _, _, rfl, _ => Caller.complete_of_evalForm rfl rfl
  | item :: items, code, m, ⟨serial, rest, hrest, hcode⟩, ⟨hm, hitems⟩ => by
    unfold fillItems
    cases hmarked : marked? "splice-unquote" item with
    | some x =>
      rw [hmarked] at hcode hitems
      rw [hcode, complete_two (by decide) hm.concat]
      refine join_elements ?_ (call_concat _)
      intro v m' hv
      exact complete_codeOfItems items rest m' hrest (hitems v m' hv)
    | none =>
      rw [hmarked] at hcode hitems
      obtain ⟨first, hfirst, rfl⟩ := hcode
      obtain ⟨hitem, hothers⟩ := hitems
      have hvalue := complete_code item first m hfirst hitem
      rw [complete_two (by decide) hm.cons, Run.bind_congr_at hvalue]
      refine join_elements ?_ (call_cons _)
      intro v m' hv
      exact complete_codeOfItems items rest m' hrest (hothers v m' hv)

end

/-! ### Fuel -/

/-- A value that comes about without bound comes about with any large amount of fuel. -/
theorem eventually_done {α : Type} {x : Option Nat → Run α} {Q : α → Prop}
    (hx : (Discipline.converging Host.Unlimited).Good x Q) {m m' : Machine} (hm : m.Unlimited)
    {a : α} (h : x none m = .done a m') :
    m'.Unlimited ∧ ∃ N, ∀ n ≥ N, x (some n) m = .done a m' := by
  obtain ⟨⟨-, N, hN⟩, hsat⟩ := hx m hm
  have hm' := hsat none
  rw [h] at hm'
  exact ⟨hm'.1, N, fun n hn => (hN n hn).trans h⟩

section Disciplined

variable {ι : Type} {D : Discipline ι} {value : ι → Value → Run Value}

open Discipline

theorem splice_still (v rest : Value) : (splice v rest).Still := by
  unfold splice
  cases v.items? with
  | some front => exact .newList _
  | none => exact .bind (.read _) fun _ => .fail _

mutual

/-- Filling a template keeps what the values of the marked expressions keep. -/
theorem good_fill (h : ∀ x, D.Good (fun i => value i x) fun _ => True) :
    ∀ template : Value, D.Good (fun i => fill (value i) template) fun _ => True
  | .list s items => by
    unfold fill
    cases marked? "unquote" (.list s items) with
    | some x => exact h x
    | none => exact good_fillItems h items
  | .vector _ items => by
    unfold fill
    apply (good_fillItems h items).bind
    intro filled _
    exact .of_still (.newVector _)
  | .symbol _ | .map _ _ | .nil | .bool _ | .int _ | .text _ | .atom _ | .builtin _
  | .closure .. => .pure trivial

theorem good_fillItems (h : ∀ x, D.Good (fun i => value i x) fun _ => True) :
    ∀ items : List Value, D.Good (fun i => fillItems (value i) items) fun _ => True
  | [] => .pure trivial
  | item :: items => by
    unfold fillItems
    cases marked? "splice-unquote" item with
    | some x =>
      apply (h x).bind
      intro v _
      apply (good_fillItems h items).bind
      intro rest _
      exact .of_still (splice_still v rest)
    | none =>
      apply (good_fill h item).bind
      intro v _
      apply (good_fillItems h items).bind
      intro rest _
      exact .of_still (.newList _)

end

end Disciplined

/-- The values of the marked expressions: with some fuel, or without bound. -/
noncomputable def valueAt (frame : FrameId) (fuel? : Option Nat) (x : Value) : Run Value :=
  (Discipline.numbered outermost Caller.unbounded fuel?).complete x frame

theorem good_valueAt (frame : FrameId) (x : Value) :
    (Discipline.converging Host.Unlimited).Good (fun i => valueAt frame i x) fun _ => True :=
  converging_outermost.complete trivial x

mutual

/-- What holds throughout with any large amount of fuel holds throughout without bound. -/
theorem throughout_unbounded {I : Machine → Prop} : ∀ (template : Value) (m : Machine),
    m.Unlimited → (∃ N, ∀ n ≥ N, Throughout (valueAt frame (some n)) I template m) →
    Throughout (valueIn frame) I template m
  | .list s items, m, hm, h => by
    unfold Throughout at h ⊢
    cases hmarked : marked? "unquote" (.list s items) with
    | some x => trivial
    | none =>
      simp only [hmarked] at h
      exact throughoutItems_unbounded items m hm h
  | .vector _ items, m, hm, ⟨N, h⟩ =>
    ⟨(h N (Nat.le_refl N)).1, throughoutItems_unbounded items m hm ⟨N, fun n hn => (h n hn).2⟩⟩
  | .symbol _, _, _, ⟨N, h⟩ | .map _ _, _, _, ⟨N, h⟩ => h N (Nat.le_refl N)
  | .nil, _, _, _ | .bool _, _, _, _ | .int _, _, _, _ | .text _, _, _, _ | .atom _, _, _, _
  | .builtin _, _, _, _ | .closure .., _, _, _ => trivial

theorem throughoutItems_unbounded {I : Machine → Prop} : ∀ (items : List Value) (m : Machine),
    m.Unlimited → (∃ N, ∀ n ≥ N, ThroughoutItems (valueAt frame (some n)) I items m) →
    ThroughoutItems (valueIn frame) I items m
  | [], _, _, _ => trivial
  | item :: items, m, hm, ⟨N, h⟩ => by
    refine ⟨(h N (Nat.le_refl N)).1, ?_⟩
    -- An element is either spliced or filled in, and what is after it is treated alike.
    have hafter : ∀ {x : Option Nat → Run Value},
        (Discipline.converging Host.Unlimited).Good x (fun _ => True) →
        (∀ n ≥ N, ∀ v m', x (some n) m = .done v m' →
          ThroughoutItems (valueAt frame (some n)) I items m') →
        ∀ v m', x none m = .done v m' → ThroughoutItems (valueIn frame) I items m' := by
      intro x hx hitems v m' hv
      -- From some amount of fuel on, the element leaves the machine that it leaves without bound.
      obtain ⟨hm', K, hK⟩ := eventually_done hx hm hv
      exact throughoutItems_unbounded items m' hm'
        ⟨max N K, fun n hn => hitems n (by omega) v m' (hK n (by omega))⟩
    cases hmarked : marked? "splice-unquote" item with
    | some x =>
      refine hafter (good_valueAt frame x) ?_
      intro n hn
      have hspliced := (h n hn).2
      rwa [hmarked] at hspliced
    | none =>
      constructor
      · refine throughout_unbounded item m hm ⟨N, ?_⟩
        intro n hn
        have hfilled := (h n hn).2
        rw [hmarked] at hfilled
        exact hfilled.1
      · refine hafter (good_fill (good_valueAt frame) item) ?_
        intro n hn
        have hfilled := (h n hn).2
        rw [hmarked] at hfilled
        exact hfilled.2

end

end Template

/-! ### Quasiquoted forms -/

/-- Without bound, a quasiquoted form has the value of its filled template. -/
theorem complete_quasiquote {template : Value} {frame : FrameId} {m : Machine}
    (hdepth : Template.depth template ≤ m.host.limits.nesting)
    (hplain : m.NoMacro "quasiquote" frame)
    (hintact : Template.Throughout (Template.valueIn frame) (Machine.Intact frame) template
      (m.skipSerials (Template.lists template))) (serial : Serial) :
    Caller.unbounded.complete (.list serial [.symbol "quasiquote", template]) frame m =
      Template.fill (Template.valueIn frame) template
        (m.skipSerials (Template.lists template)) := by
  obtain ⟨code, hcode, his⟩ := Template.expand_eq template m
  have hexpand : SpecialForm.expandTemplate template m =
      .done code (m.skipSerials (Template.lists template)) := by
    unfold SpecialForm.expandTemplate
    simp only [Run.bind_apply, Run.get, if_pos hdepth, hcode]
  rw [Caller.complete_of_none (Machine.macroCall?_eq_none hplain serial [template])]
  show ((SpecialForm.expandTemplate template >>= fun code =>
    Caller.unbounded.last true code frame) >>= Caller.unbounded.settle) m = _
  rw [bind_assoc, Run.bind_apply, hexpand]
  -- The code is evaluated in the place of the form.
  exact Template.complete_code template code _ his hintact

/-- **Quasiquote means template filling.** Where the primitives are what they are by default
whenever the evaluation needs them, and neither `quasiquote` nor `quote` is a macro, evaluating a
quasiquoted form and filling the template come to an end together, with the same value or error and
with the same machine. The filling starts with fewer serial numbers left, for those that the lists
of the code have taken. -/
theorem evaluate_quasiquote (template : Value) (serial : Serial) (frame : FrameId) (m : Machine)
    (hm : m.Unlimited) (hdepth : Template.depth template ≤ m.host.limits.nesting)
    (hplain : m.NoMacro "quasiquote" frame)
    (hintact : ∀ fuel, Template.Throughout (fun x => evaluate fuel x frame)
      (Machine.Intact frame) template (m.skipSerials (Template.lists template)))
    (r : Result Value) (hr : r.Ended) :
    (∃ fuel, evaluate fuel (.list serial [.symbol "quasiquote", template]) frame m = r) ↔
      ∃ fuel, Template.fill (fun x => evaluate fuel x frame) template
        (m.skipSerials (Template.lists template)) = r := by
  have hm' : (m.skipSerials (Template.lists template)).Unlimited := hm
  have hfill : (∃ fuel, Template.fill (fun x => evaluate fuel x frame) template
        (m.skipSerials (Template.lists template)) = r) ↔
      Template.fill (Template.valueIn frame) template
        (m.skipSerials (Template.lists template)) = r :=
    exists_fuel_iff (Template.good_fill (Template.good_valueAt frame) template) hm' hr
  have hunbounded := Template.throughout_unbounded template _ hm'
    ⟨0, fun fuel _ => hintact fuel⟩
  rw [evaluate_iff hm _ frame hr, hfill, complete_quasiquote hdepth hplain hunbounded serial]

open Session in
theorem Machine.intact_bare (count : Nat) : (Machine.bare.skipSerials count).Intact root := by
  have hquote : Machine.bare.frames.lookup? "quote" root = none := by decide +kernel
  have hcons : Machine.bare.frames.lookup? "cons" root = some (.builtin (.query .cons)) := by
    decide +kernel
  have hconcat : Machine.bare.frames.lookup? "concat" root =
      some (.builtin (.query .concat)) := by decide +kernel
  have hvec : Machine.bare.frames.lookup? "vec" root = some (.builtin (.query .vec)) := by
    decide +kernel
  exact ⟨hcons, hconcat, hvec, fun v hv => absurd (hquote.symm.trans hv) nofun⟩

/-- The template ``(a [b ~@[2 3]])``. -/
def nestedTemplate : Value :=
  .form [.symbol "a", .vector 0 [.symbol "b",
    .form [.symbol "splice-unquote", .vector 0 [.int 2, .int 3]]]]

/-- The form of the template has the value `(a [b 2 3])`, and so has the filled template. -/
theorem quasiquote_nestedTemplate :
    let form : Value := .form [.symbol "quasiquote", nestedTemplate]
    Machine.bare.Unlimited ∧ Machine.bare.NoMacro "quasiquote" Session.root ∧
      (evaluate 9 form Session.root Machine.bare).value? =
        some (.list 13 [.symbol "a", .vector 11 [.symbol "b", .int 2, .int 3]]) ∧
      ∃ fuel, Template.fill (fun x => evaluate fuel x Session.root) nestedTemplate
          (Machine.bare.skipSerials (Template.lists nestedTemplate)) =
        evaluate 9 form Session.root Machine.bare := by
  intro form
  have hlookup : Machine.bare.frames.lookup? "quasiquote" Session.root = none := by
    decide +kernel
  have hplain : Machine.bare.NoMacro "quasiquote" Session.root :=
    fun v hv => absurd (hlookup.symm.trans hv) nofun
  have hvalue : (evaluate 9 form Session.root Machine.bare).value? =
      some (.list 13 [.symbol "a", .vector 11 [.symbol "b", .int 2, .int 3]]) := by
    decide +kernel
  have hintact : ∀ fuel, Template.Throughout (fun x => evaluate fuel x Session.root)
      (Machine.Intact Session.root) nestedTemplate
      (Machine.bare.skipSerials (Template.lists nestedTemplate)) := by
    intro fuel
    have h := Machine.intact_bare (Template.lists nestedTemplate)
    -- Symbols stand for themselves, so the machine is the same before each element.
    refine ⟨h, h, ?_⟩
    rintro _ _ ⟨⟩
    refine ⟨h, ⟨h, h, h, ?_⟩, fun _ _ _ => trivial⟩
    rintro _ _ ⟨⟩
    exact ⟨h, fun _ _ _ => trivial⟩
  exact ⟨rfl, hplain, hvalue, (evaluate_quasiquote nestedTemplate 0 Session.root Machine.bare rfl
    (by decide) hplain hintact _ (Result.ended_of_value? hvalue)).1 ⟨9, rfl⟩⟩

/-! ### Where quasiquoted forms do not fill templates -/

/-- A machine whose root frame binds `quasiquote` to a macro that answers 2. -/
def Machine.shadowed : Machine :=
  Machine.bare.define Session.root "quasiquote" (.closure 1 ["x"] (.int 2) Session.root true)

/-- A macro of the name comes before the special form, so `(quasiquote 1)` may have the value 2.
And an integer with too many digits, where a sequence should be spliced, is not refused as an
argument: it has no text for the message. -/
theorem quasiquote_not_filling :
    (Machine.shadowed.Unlimited ∧ Machine.shadowed.Intact Session.root ∧
      (evaluate 5 (.form [.symbol "quasiquote", .int 1]) Session.root
        Machine.shadowed).value? = some (.int 2) ∧
      ∀ fuel, (Template.fill (fun x => evaluate fuel x Session.root) (.int 1)
        Machine.shadowed).value? = some (.int 1)) ∧
    (evaluate 9 (.form [.symbol "quasiquote", .form [.form
      [.symbol "splice-unquote", .int Numeral.bound]]]) Session.root Machine.bare).error? =
        some .numeralTooLong := by
  have hintact : Machine.shadowed.Intact Session.root := by
    have hquote : Machine.shadowed.frames.lookup? "quote" Session.root = none := by
      decide +kernel
    exact ⟨by decide +kernel, by decide +kernel, by decide +kernel,
      fun v hv => absurd (hquote.symm.trans hv) nofun⟩
  exact ⟨⟨rfl, hintact, by decide +kernel, fun _ => rfl⟩, by decide +kernel⟩

end AtomLisp
