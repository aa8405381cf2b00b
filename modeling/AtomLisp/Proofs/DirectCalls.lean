import AtomLisp.Proofs.FailedCalls
import AtomLisp.Proofs.LoadFile

/-! # Calls by way of builtins

  A function is called in the same way by a form with the function in front, by a builtin that was
  given the function, and by a form that calls such a builtin.

  * `SameEnds`: two programs end in the same ways, if both have fuel enough;
  * `StandsFor`: a form that stands for a value: `(quote v)`, or a function;
  * `Splits`: arguments that `apply` takes apart, one level deep;
  * `complete_direct`, `complete_apply`: single calls, without bound;
  * `complete_listOfCalls`: the calls that `map` makes, without bound;
  * `direct_calls_agree`: all of them with fuel.
-/

namespace AtomLisp

open Caller

/-! ### Forms and arguments -/

/-- The form stands for the value, wherever `quote` is no macro. -/
inductive StandsFor : Value → Value → Prop
  | quote (serial : Serial) (v : Value) : StandsFor (.list serial [.symbol "quote", v]) v
  | function {f : Value} (h : f.isFunction = true) : StandsFor f f

/-- The arguments of `apply` stand for these values: the last one is a sequence and stands for its
elements, and so do the sequences in front of it; what is no sequence stands for itself. -/
inductive Splits : List Value → List Value → Prop
  | last {s : Value} {items : List Value} (h : s.items? = some items) : Splits [s] items
  | single {v : Value} {args vs : List Value} (h : v.items? = none) (hargs : Splits args vs) :
    Splits (v :: args) (v :: vs)
  | spliced {s : Value} {items args vs : List Value} (h : s.items? = some items)
    (hargs : Splits args vs) : Splits (s :: args) (items ++ vs)

/-- Sequences are spread as `apply` spreads them. -/
theorem Splits.exists_spread {args vs : List Value} (h : Splits args vs) :
    ∃ front last items, args = front ++ [last] ∧ last.items? = some items ∧
      vs = Builtin.spread front ++ items := by
  induction h with
  | @last s items h => exact ⟨[], s, items, rfl, h, rfl⟩
  | @single v args vs h _ ih =>
    obtain ⟨front, last, items, rfl, hlast, rfl⟩ := ih
    exact ⟨v :: front, last, items, rfl, hlast, by simp [Builtin.spread, h]⟩
  | @spliced s items args vs h _ ih =>
    obtain ⟨front, last, items', rfl, hlast, rfl⟩ := ih
    exact ⟨s :: front, last, items', rfl, hlast, by simp [Builtin.spread, h]⟩

namespace Caller

variable {f : Value} {frame : FrameId} {m n o : Machine}

/-! ### Forms that stand for values -/

theorem complete_function (hf : f.isFunction = true) :
    unbounded.complete f frame m = .done f m := by
  cases f with
  | closure | builtin => exact complete_of_evalForm rfl rfl
  | _ => cases hf

theorem complete_standsFor {form v : Value} (h : StandsFor form v)
    (hquote : m.NoMacro "quote" frame) :
    unbounded.complete form frame m = .done v m := by
  cases h with
  | quote serial v => exact complete_quote hquote serial v
  | function hf => exact complete_function hf

/-- Forms that stand for values change nothing. -/
theorem values_standsFor {forms vs : List Value} (h : List.Forall₂ StandsFor forms vs)
    (hquote : m.NoMacro "quote" frame) : unbounded.values frame forms m = .done vs m := by
  induction h with
  | nil => rfl
  | cons hform _ ih => exact values_cons (complete_standsFor hform hquote) ih

/-! ### Single calls -/

/-- In tail position a closure leaves its body for later, and the body is evaluated all the same. -/
theorem settle_apply (tail : Bool) (f : Value) (vs : List Value) (frame : FrameId) :
    unbounded.apply tail f vs frame >>= unbounded.settle =
      unbounded.apply false f vs frame >>= unbounded.settle := by
  cases tail with
  | false => rfl
  | true =>
    cases f with
    | closure serial params body home isMacro =>
      simp only [apply, bind_assoc, if_true, Bool.false_eq_true, if_false, pure_bind,
        settle_tailCall, settle_value, bind_pure]
    | _ => rfl

theorem call_eq (f : Value) (vs : List Value) (frame : FrameId) :
    unbounded.call f vs frame = unbounded.apply false f vs frame >>= unbounded.settle := by
  show denote (.call f vs frame) >>= unbounded.settle = _
  rw [denote_eq]
  rfl

/-- **A form with a function in front** calls the function. -/
theorem complete_direct (hf : f.isFunction = true) {forms vs : List Value}
    (hforms : List.Forall₂ StandsFor forms vs) (hquote : m.NoMacro "quote" frame)
    (serial : Serial) :
    unbounded.complete (.list serial (f :: forms)) frame m = unbounded.call f vs frame m := by
  have hhead : unbounded.headValue f frame m = .done f m := by
    rw [headValue_eq_value, value_eq_complete, complete_function hf]
  -- A function in front is neither the name of a macro nor that of a special form.
  have hform : unbounded.evalForm true (.list serial (f :: forms)) frame =
      (do
        let f ← unbounded.headValue f frame
        let vs ← unbounded.values frame forms
        unbounded.apply true f vs frame) := by
    cases f with
    | closure | builtin => rfl
    | _ => cases hf
  have hplain : m.macroCall? (.list serial (f :: forms)) frame = none := by
    cases f with
    | closure | builtin => rfl
    | _ => cases hf
  rw [complete_of_none hplain, hform]
  simp only [bind_assoc]
  rw [Run.bind_apply, hhead]
  dsimp only
  rw [Run.bind_apply, values_standsFor hforms hquote, call_eq, ← settle_apply true]

/-- `apply` calls the function with what its arguments split into. -/
theorem call_apply (c : Caller) (hf : f.isFunction = true) {args vs : List Value}
    (hargs : Splits args vs) :
    Builtin.call c frame (f :: args) (.action .apply) = c.call f vs frame := by
  obtain ⟨front, last, items, rfl, hlast, rfl⟩ := hargs.exists_spread
  exact Builtin.applyTo_eq c frame hf hlast

/-- A form that calls a builtin by its name, with arguments that stand for values. -/
theorem complete_named {b : Builtin} {name : String} (hname : SpecialForm.ofName? name = none)
    (hlookup : m.frames.lookup? name frame = some (.builtin b)) {forms vs : List Value}
    (hforms : List.Forall₂ StandsFor forms vs) (hquote : m.NoMacro "quote" frame)
    (serial : Serial) :
    unbounded.complete (.list serial (.symbol name :: forms)) frame m =
      b.call unbounded frame vs m := by
  rw [complete_builtin hname hlookup, Run.bind_apply, values_standsFor hforms hquote]

/-! ### A call for each element -/

/-- The form calls the function with a form that stands for the element. -/
inductive CallsWith (f : Value) : Value → Value → Prop
  | intro (serial : Serial) {form v : Value} (h : StandsFor form v) :
    CallsWith f (.list serial [f, form]) v

/-- Wherever one of the calls begins, `quote` is no macro. -/
def Undisturbed (c : Caller) (f : Value) (items : List Value) (frame : FrameId) (m : Machine) :
    Prop :=
  ∀ pre v post ws n, items = pre ++ v :: post → Builtin.callEach c f frame pre m = .done ws n →
    n.NoMacro "quote" frame

theorem Undisturbed.cons {c : Caller} {v w : Value} {items : List Value}
    (h : Undisturbed c f (v :: items) frame m) (hcall : c.call f [v] frame m = .done w n) :
    Undisturbed c f items frame n := by
  rintro pre u post ws o rfl hpre
  exact h (v :: pre) u post (w :: ws) o rfl
    (Builtin.callEach_cons_eq_done_iff.2 ⟨w, ws, n, rfl, hcall, hpre⟩)

/-- The forms are evaluated as the function is called with the elements in turn. -/
theorem values_callsWith (hf : f.isFunction = true) {forms items : List Value}
    (hforms : List.Forall₂ (CallsWith f) forms items)
    (hquote : Undisturbed unbounded f items frame m) :
    unbounded.values frame forms m = Builtin.callEach unbounded f frame items m := by
  induction hforms generalizing m with
  | nil => rfl
  | @cons form v forms items hform _ ih =>
    obtain ⟨serial, hv⟩ := hform
    have hfirst : unbounded.complete (.list serial [f, _]) frame m =
        unbounded.call f [v] frame m :=
      complete_direct hf (.cons hv .nil) (hquote [] v items [] m rfl rfl) serial
    rw [values, Builtin.callEach, value_eq_complete, Run.bind_apply, Run.bind_apply, hfirst]
    cases hcall : unbounded.call f [v] frame m with
    | done w n => exact Run.bind_congr_at (ih (hquote.cons hcall)) _
    | failed e n => rfl
    | unfinished => rfl

/-- **A list of calls** gives what `map` gives. -/
theorem complete_listOfCalls (hf : f.isFunction = true) {xs : Value} {forms items : List Value}
    (hxs : xs.items? = some items)
    (hlist : m.frames.lookup? "list" frame = some (.builtin (.query .list)))
    (hforms : List.Forall₂ (CallsWith f) forms items)
    (hquote : Undisturbed unbounded f items frame m) (serial : Serial) :
    unbounded.complete (.list serial (.symbol "list" :: forms)) frame m =
      Builtin.call unbounded frame [f, xs] (.action .map) m := by
  have hmap : Builtin.mapItems unbounded frame [f, xs] =
      (do Run.newList (← Builtin.callEach unbounded f frame items)) := by
    rw [Builtin.mapItems_eq unbounded frame hf hxs]
    -- Without bound it does not matter that `map` calls a step deeper.
    rw [Builtin.callEach_congr (c := unbounded.inner) (d := unbounded) rfl]
  rw [complete_builtin (by decide) hlist]
  refine (Run.bind_congr_at (values_callsWith hf hforms hquote) _).trans ?_
  exact (congrFun hmap m).symm

theorem call_builtin (b : Builtin) (vs : List Value) (frame : FrameId) :
    unbounded.call (.builtin b) vs frame = b.call unbounded frame vs := by
  rw [call_eq]
  simp only [apply, bind_assoc, pure_bind, settle_value, bind_pure]

theorem frames_of_callEach {b : Builtin} (hb : ∀ vs, (b.call unbounded frame vs).Still)
    {vs ws : List Value} (h : Builtin.callEach unbounded (.builtin b) frame vs m = .done ws n) :
    n.frames = m.frames := by
  induction vs generalizing m ws with
  | nil =>
    cases h
    rfl
  | cons v vs ih =>
    obtain ⟨w, ws, o, rfl, hcall, hrest⟩ := Builtin.callEach_cons_eq_done_iff.1 h
    rw [call_builtin] at hcall
    have hstill := hb [v] m
    rw [hcall] at hstill
    exact (ih hrest).trans hstill.1.1

/-- A builtin that binds nothing makes nothing a macro. -/
theorem undisturbed_of_still {b : Builtin} (hb : ∀ vs, (b.call unbounded frame vs).Still)
    (hquote : m.NoMacro "quote" frame) (items : List Value) :
    Undisturbed unbounded (.builtin b) items frame m := by
  intro pre v post ws n hitems hpre w hw
  rw [frames_of_callEach hb hpre] at hw
  exact hquote w hw

end Caller

/-! ### With fuel -/

/-- Two programs end in the same ways: what the one comes to with enough fuel, so does the other. -/
def SameEnds (x y : Nat → Run Value) (m : Machine) : Prop :=
  ∀ r : Result Value, r.Ended → ((∃ fuel, x fuel m = r) ↔ ∃ fuel, y fuel m = r)

variable {f : Value} {frame : FrameId} {m : Machine}

open Discipline in
/-- Programs that agree without bound end in the same ways. -/
theorem sameEnds_of_eq {x y : Option Nat → Run Value}
    (hx : (converging Host.Unlimited).Good x fun _ => True)
    (hy : (converging Host.Unlimited).Good y fun _ => True) (hm : m.Unlimited)
    (h : x none m = y none m) : SameEnds (fun n => x (some n)) (fun n => y (some n)) m := by
  intro r hr
  rw [exists_fuel_iff hx hm hr, exists_fuel_iff hy hm hr, h]

/-- What every amount of fuel keeps is kept without bound. -/
theorem undisturbed_unbounded {items : List Value} (hm : m.Unlimited)
    (h : ∀ fuel, Undisturbed (outermost fuel) f items frame m) :
    Undisturbed unbounded f items frame m := by
  intro pre v post ws n hitems hpre
  obtain ⟨fuel, hfuel⟩ := (exists_fuel_iff (converging_outermost.callEach trivial f pre) hm
    (r := .done ws n) trivial).2 hpre
  exact h fuel pre v post ws n hitems hfuel

theorem undisturbed_outermost {items : List Value} (hm : m.Unlimited)
    (h : Undisturbed unbounded f items frame m) (fuel : Nat) :
    Undisturbed (outermost fuel) f items frame m := by
  intro pre v post ws n hitems hpre
  exact h pre v post ws n hitems ((exists_fuel_iff (converging_outermost.callEach trivial f pre) hm
    (r := .done ws n) trivial).1 ⟨fuel, hpre⟩)

/-- **Calls by way of builtins.** A function is called with values:

  * by a form with the function in front;
  * by `apply`, with arguments that split into the values, and by a form that calls `apply`.

These end as calling the function does. And a function is called with each element of a sequence:

  * by `map`, and by a form that calls `map`;
  * by a list of calls, if none of the calls makes `quote` a macro before the next one begins.

These end in the same ways. With the first element whose call fails `map` fails too, and no
further element is called. -/
theorem direct_calls_agree (hf : f.isFunction = true) (hm : m.Unlimited)
    (hquote : m.NoMacro "quote" frame) :
    (∀ vs : List Value,
      let called := fun fuel => (outermost fuel).call f vs frame
      (∀ serial forms, List.Forall₂ StandsFor forms vs →
        SameEnds (evaluate · (.list serial (f :: forms)) frame) called m) ∧
      ∀ args, Splits args vs →
        SameEnds (fun fuel => Builtin.call (outermost fuel) frame (f :: args) (.action .apply))
          called m ∧
        (m.frames.lookup? "apply" frame = some (.builtin (.action .apply)) →
          ∀ serial forms, List.Forall₂ StandsFor forms (f :: args) →
            SameEnds (evaluate · (.list serial (.symbol "apply" :: forms)) frame) called m)) ∧
    ∀ xs items, xs.items? = some items →
      let mapped := fun fuel => Builtin.call (outermost fuel) frame [f, xs] (.action .map)
      (m.frames.lookup? "map" frame = some (.builtin (.action .map)) →
        ∀ serial forms, List.Forall₂ StandsFor forms [f, xs] →
          SameEnds (evaluate · (.list serial (.symbol "map" :: forms)) frame) mapped m) ∧
      (m.frames.lookup? "list" frame = some (.builtin (.query .list)) →
        (∀ fuel, Undisturbed (outermost fuel) f items frame m) →
        ∀ serial forms, List.Forall₂ (CallsWith f) forms items →
          SameEnds (evaluate · (.list serial (.symbol "list" :: forms)) frame) mapped m) ∧
      ∀ fuel e o, mapped fuel m = .failed e o ↔ ∃ pre v post ws n, items = pre ++ v :: post ∧
        Builtin.callEach (outermost fuel) f frame pre m = .done ws n ∧
        (outermost fuel).call f [v] frame n = .failed e o := by
  have hform : ∀ form, (Discipline.converging Host.Unlimited).Good
      (fun i => (Discipline.numbered outermost unbounded i).complete form frame) fun _ => True :=
    converging_outermost.complete trivial
  have hbuiltin : ∀ b args, (Discipline.converging Host.Unlimited).Good
      (fun i => Builtin.call (Discipline.numbered outermost unbounded i) frame args b)
      fun _ => True := converging_outermost.builtin trivial
  constructor
  · intro vs called
    have hcalled : (Discipline.converging Host.Unlimited).Good
        (fun i => (Discipline.numbered outermost unbounded i).call f vs frame) fun _ => True :=
      converging_outermost.call trivial f vs
    refine ⟨?_, ?_⟩
    · intro serial forms hforms
      exact sameEnds_of_eq (hform _) hcalled hm (complete_direct hf hforms hquote serial)
    · intro args hargs
      have happly : Builtin.call unbounded frame (f :: args) (.action .apply) m =
          unbounded.call f vs frame m := congrFun (call_apply unbounded hf hargs) m
      refine ⟨sameEnds_of_eq (hbuiltin _ _) hcalled hm happly, ?_⟩
      intro hlookup serial forms hforms
      refine sameEnds_of_eq (hform _) hcalled hm ?_
      exact (complete_named (by decide) hlookup hforms hquote serial).trans happly
  · intro xs items hxs mapped
    refine ⟨?_, ?_, ?_⟩
    · intro hlookup serial forms hforms
      exact sameEnds_of_eq (hform _) (hbuiltin _ _) hm
        (complete_named (by decide) hlookup hforms hquote serial)
    · intro hlookup hplain serial forms hforms
      exact sameEnds_of_eq (hform _) (hbuiltin _ _) hm
        (complete_listOfCalls hf hxs hlookup hforms (undisturbed_unbounded hm hplain) serial)
    · intro fuel e o
      have hlevel : Builtin.callEach (outermost fuel).inner f frame items m =
          Builtin.callEach (outermost fuel) f frame items m :=
        ((agreeing_onLevel fuel 1 0).callEach trivial f items m hm).1
      have hmapped : Builtin.mapItems (outermost fuel) frame [f, xs] m = .failed e o ↔
          Builtin.callEach (outermost fuel) f frame items m = .failed e o := by
        rw [Builtin.mapItems_failed_iff hf hxs, hlevel]
      exact hmapped.trans (Builtin.callEach_failed_iff f items)

/-- `(quote v)`. -/
def Value.quoted (v : Value) : Value := .form [.symbol "quote", v]

/-- `(apply prn '1 '(2 (3)) '(4))` prints what a call with `1`, `2`, `(3)` and `4` prints, and
`(list (prn '1) (prn '2))` what `prn` prints that is mapped over `(1 2)`. -/
theorem direct_calls_prn :
    let m := Machine.bare
    let prn := Value.builtin (.action .prn)
    let args := [.int 1, .form [.int 2, .form [.int 3]], .form [.int 4]]
    let vs := [.int 1, .int 2, .form [.int 3], .int 4]
    prn.isFunction = true ∧ m.Unlimited ∧ m.NoMacro "quote" Session.root ∧ Splits args vs ∧
      SameEnds (evaluate · (.form (.symbol "apply" :: prn :: args.map .quoted)) Session.root)
        (fun fuel => (outermost fuel).call prn vs Session.root) m ∧
      (∀ fuel, Undisturbed (outermost fuel) prn [.int 1, .int 2] Session.root m) ∧
      SameEnds
        (evaluate · (.form [.symbol "list", .form [prn, .quoted (.int 1)],
          .form [prn, .quoted (.int 2)]]) Session.root)
        (fun fuel => Builtin.call (outermost fuel) Session.root [prn, .form [.int 1, .int 2]]
          (.action .map)) m := by
  intro m prn args vs
  have hquote : m.NoMacro "quote" Session.root := Machine.noMacro_of_none (by decide +kernel)
  have hlast : Splits [.form [.int 4]] [.int 4] := .last rfl
  have hspliced : Splits [.form [.int 2, .form [.int 3]], .form [.int 4]]
      ([.int 2, .form [.int 3]] ++ [.int 4]) := .spliced rfl hlast
  have hsplits : Splits args vs := .single rfl hspliced
  have hstill : ∀ vs, (Builtin.call unbounded Session.root vs (.action .prn)).Still :=
    Discipline.printLine_still true
  have hplain : ∀ fuel, Undisturbed (outermost fuel) prn [.int 1, .int 2] Session.root m :=
    undisturbed_outermost rfl
      (undisturbed_of_still hstill hquote _)
  obtain ⟨hcalls, hmap⟩ := direct_calls_agree (f := prn) rfl (m := m) rfl hquote
  have hfunction : StandsFor prn prn := .function rfl
  have happly := ((hcalls vs).2 args hsplits).2 (by decide +kernel) 0 _
    (.cons hfunction (.cons (.quote 0 _) (.cons (.quote 0 _) (.cons (.quote 0 _) .nil))))
  have hlist := (hmap (.form [.int 1, .int 2]) _ rfl).2.1 (by decide +kernel) hplain 0 _
    (.cons (.intro 0 (.quote 0 _)) (.cons (.intro 0 (.quote 0 _)) .nil))
  exact ⟨rfl, rfl, hquote, hsplits, happly, hplain, hlist⟩

/-- `(defmacro! quote (fn* (x) 5))`. -/
def rebindingQuote : Value :=
  .form [.symbol "defmacro!", .symbol "quote", .form [.symbol "fn*", .form [.symbol "x"], .int 5]]

/-- `eval` is mapped over a form that makes `quote` a macro, and `7`: the call for `7` in the list
of calls is a different one. -/
theorem mapped_eval_rebindingQuote :
    let m := Machine.bare
    let eval := Value.builtin (.action .eval)
    let items := [rebindingQuote, .int 7]
    let mapForm := .form [.symbol "map", eval, .quoted (.form items)]
    let calls := items.map fun v => .form [eval, .quoted v]
    let listForm := .form (.symbol "list" :: calls)
    eval.isFunction = true ∧ m.Unlimited ∧ m.NoMacro "quote" Session.root ∧
      m.frames.lookup? "map" Session.root = some (.builtin (.action .map)) ∧
      m.frames.lookup? "list" Session.root = some (.builtin (.query .list)) ∧
      List.Forall₂ (CallsWith eval) calls items ∧
      (evaluate 12 mapForm Session.root m).value? =
        some (.list 3 [.closure 2 ["x"] (.int 5) Session.root true, .int 7]) ∧
      (evaluate 12 listForm Session.root m).value? =
        some (.list 3 [.closure 2 ["x"] (.int 5) Session.root true, .int 5]) ∧
      ¬ SameEnds (evaluate · listForm Session.root) (evaluate · mapForm Session.root) m := by
  intro m eval items mapForm calls listForm
  have hm : m.Unlimited := rfl
  have hquote : m.NoMacro "quote" Session.root := Machine.noMacro_of_none (by decide +kernel)
  have hcalls : List.Forall₂ (CallsWith eval) calls items :=
    .cons (.intro 0 (.quote 0 _)) (.cons (.intro 0 (.quote 0 _)) .nil)
  have hmap : (evaluate 12 mapForm Session.root m).value? =
      some (.list 3 [.closure 2 ["x"] (.int 5) Session.root true, .int 7]) := by decide +kernel
  have hlist : (evaluate 12 listForm Session.root m).value? =
      some (.list 3 [.closure 2 ["x"] (.int 5) Session.root true, .int 5]) := by decide +kernel
  refine ⟨rfl, hm, hquote, by decide +kernel, by decide +kernel, hcalls, hmap, hlist, ?_⟩
  intro hsame
  obtain ⟨n, hn⟩ := Result.exists_of_value? hmap
  obtain ⟨o, ho⟩ := Result.exists_of_value? hlist
  -- With more fuel the list of calls cannot come to anything else.
  have hlimit := (evaluate_iff hm listForm Session.root (r := .done _ n) trivial).1
    ((hsame (.done _ n) trivial).2 ⟨12, hn⟩)
  have hlimit' := (evaluate_iff hm listForm Session.root (r := .done _ o) trivial).1 ⟨12, ho⟩
  rw [hlimit] at hlimit'
  simp at hlimit'

end AtomLisp
