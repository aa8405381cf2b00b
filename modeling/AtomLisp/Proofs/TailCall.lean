import AtomLisp.Proofs.Unbounded

/-! # Tail calls

  A form in tail position may leave the body of a closure for later, and whoever gave the job on
  evaluates one such body after another. A form in no tail position comes to its value by nested
  evaluation alone. The two agree:

  * `perform_eval_false_sat`: a form in no tail position never ends with a tail call;
  * `Caller.settle_denote_eval`: without bound, the value does not depend on the position;
  * `evaluate_agrees_with_plain`: evaluation with tail calls and evaluation without them come to an
    end together, and in the same way.
-/

namespace AtomLisp

variable {α β : Type}

/-- The result with another value. -/
def Result.map (f : α → β) : Result α → Result β
  | .done a m => .done (f a) m
  | .failed e m => .failed e m
  | .unfinished => .unfinished

theorem Result.map_injective {f : α → β} (hf : ∀ a b, f a = f b → a = b) {r s : Result α}
    (h : r.map f = s.map f) : r = s := by
  cases r <;> cases s <;> simp_all [Result.map]
  exact hf _ _ h.1

/-- The step is a value. -/
def Step.IsValue : Step → Prop
  | .value _ => True
  | .tailCall _ _ => False

open Discipline

/-! ### No tail position, no tail call -/

/-- The discipline that asks for nothing. -/
def Discipline.unrestricted : Discipline Unit :=
  ofHost (fun _ => True) (fun _ => True) (fun _ => trivial) fun _ _ _ _ => trivial

/-- A form in no tail position never ends with a tail call. -/
theorem perform_eval_false_sat (fuel level : Nat) (form : Value) (frame : FrameId) (m : Machine) :
    (perform fuel level (.eval false form frame) m).Sat (fun _ => True) Step.IsValue := by
  induction fuel generalizing level form frame m with
  | zero => trivial
  | succ fuel ih =>
    have hc := unrestricted.callers_perform fuel level
    -- The parts in the place of the form itself are in no tail position either.
    have he : unrestricted.Ends (fun _ => ⟨perform fuel, fuel, level⟩) (fun _ => false)
        (fun _ => pure) Step.IsValue :=
      { value := fun _ => .pure trivial
        part := fun levels form frame _ m _ => ⟨trivial, fun _ => by
          simp only [bind_pure]
          exact ih (levels ()) form frame m⟩
        body := fun body frame hf => by
          simp only [bind_pure]
          exact (hc.complete hf body).map _ fun _ _ => trivial }
    have h := (he.eval hc (show unrestricted.Free frame from trivial) form m trivial).2 ()
    simp only [bind_pure] at h
    show ((if m.host.limits.allows level = true then
      Caller.perform ⟨perform fuel, fuel, level⟩ (.eval false form frame)
      else Run.fail .tooDeep) m).Sat _ _
    split
    · exact h
    · trivial

theorem perform_eval_false_ne_tailCall (fuel level : Nat) (form body : Value)
    (frame inner : FrameId) (m m' : Machine) :
    perform fuel level (.eval false form frame) m ≠ .done (.tailCall body inner) m' := by
  intro heq
  have h := perform_eval_false_sat fuel level form frame m
  rw [heq] at h
  exact h.2

/-! ### The position does not matter -/

namespace Caller

/-- If settled parts approximate each other whatever their positions, the ends of jobs do so too:
a body that is left for later is settled, and one that is not is complete already. -/
theorem ends_settled {n : Nat} {tail : Bool → Bool}
    (hpart : ∀ (form : Value) (frame : FrameId) (m : Machine),
      ((performFreely n (.eval (tail false) form frame) >>= unbounded.settle) m).Approx
        ((denote (.eval (tail true) form frame) >>= unbounded.settle) m)) :
    approximating.Ends (pair (free n) unbounded) tail (fun _ => unbounded.settle)
      fun _ => True where
  value v := by
    simp only [settle_value]
    exact .pure trivial
  part _ form frame _ m _ :=
    ⟨hpart form frame m, fun _ => Result.sat_of_forall (fun _ => trivial) (fun _ => trivial) _⟩
  body body frame _ m _ := by
    refine ⟨?_, fun _ => Result.sat_of_forall (fun _ => trivial) (fun _ => trivial) _⟩
    have hcomplete :=
      ((approximating_free_unbounded n).complete (show approximating.Free frame from trivial)
        body m trivial).1
    have hsettle : ∀ (c : Caller) (t : Bool),
        (if t then pure (.tailCall body frame) else .value <$> c.complete body frame) >>=
          unbounded.settle =
            if t then unbounded.complete body frame else c.complete body frame := by
      intro c t
      cases t with
      | true => exact (pure_bind _ _).trans (settle_tailCall body frame)
      | false => simp
    show (((if tail false then _ else _) >>= _ : Run Value) m).Approx
      (((if tail true then _ else _) >>= _ : Run Value) m)
    rw [hsettle, hsettle]
    -- Settling completes the body without bound, whichever of the runs has left it for later.
    cases tail false with
    | true => cases tail true <;> exact .refl _
    | false => cases tail true <;> exact hcomplete

/-- Settled steps with fuel approximate settled steps without bound, whatever the positions. -/
theorem approx_settled (n : Nat) (tail : Bool → Bool) (form : Value) (frame : FrameId)
    (m : Machine) :
    ((performFreely n (.eval (tail false) form frame) >>= unbounded.settle) m).Approx
      ((denote (.eval (tail true) form frame) >>= unbounded.settle) m) := by
  induction n generalizing form frame m with
  | zero => exact .inl rfl
  | succ n ih =>
    -- Less fuel approximates parts of the form, whatever their positions.
    have h := ((ends_settled ih).eval (approximating_free_unbounded n)
      (show approximating.Free frame from trivial) form m trivial).1
    rw [denote_eq]
    exact h

/-- Without bound, the value of a form does not depend on its position. -/
theorem settle_denote_eval (tail tail' : Bool) (form : Value) (frame : FrameId) :
    denote (.eval tail form frame) >>= unbounded.settle =
      denote (.eval tail' form frame) >>= unbounded.settle := by
  have happrox : ∀ (t t' : Bool) (m : Machine),
      ((denote (.eval t form frame) >>= unbounded.settle) m).Approx
        ((denote (.eval t' form frame) >>= unbounded.settle) m) := by
    intro t t' m
    -- Some amount of fuel leads to where the step without bound ends.
    obtain ⟨N, hN⟩ := (growing_performFreely (.eval t form frame)).eventually_eq_limit m
    have heq := Run.bind_congr_at (hN N (Nat.le_refl N)) unbounded.settle
    exact heq ▸ approx_settled N (fun i => bif i then t' else t) form frame m
  funext m
  exact (happrox tail tail' m).antisymm (happrox tail' tail m)

/-- The value of a part is that of the part alone. -/
theorem value_eq_complete (form : Value) (frame : FrameId) :
    unbounded.value form frame = unbounded.complete form frame :=
  settle_denote_eval false true form frame

theorem headValue_eq_value (form : Value) (frame : FrameId) :
    unbounded.headValue form frame = unbounded.value form frame := rfl

end Caller

/-! ### Evaluation with and without tail calls -/

theorem Result.ended_map {f : α → β} {r : Result α} (hr : r.Ended) : (r.map f).Ended := by
  cases r <;> trivial

/-- Without bound, a form in no tail position ends with its value. -/
theorem denote_eval_false {m : Machine} (hm : m.Unlimited) (form : Value) (frame : FrameId) :
    denote (.eval false form frame) m = (Caller.unbounded.complete form frame m).map .value := by
  obtain ⟨-, N, hN⟩ := ((converging_outermost.work (fun _ => 0) (.eval false form frame)
    trivial) m hm).1
  have hsat := perform_eval_false_sat N 0 form frame m
  have heq : perform N 0 (.eval false form frame) m = denote (.eval false form frame) m :=
    hN N (Nat.le_refl N)
  rw [heq] at hsat
  -- The step is a value already, so there is nothing to settle.
  rw [← Caller.value_eq_complete]
  show _ = ((denote (.eval false form frame) >>= Caller.unbounded.settle) m).map _
  rw [Run.bind_apply]
  cases hr : denote (.eval false form frame) m with
  | done step m' =>
    rw [hr] at hsat
    cases step with
    | value v => simp [Result.map]
    | tailCall body inner => exact hsat.2.elim
  | failed e m' => rfl
  | unfinished => rfl

/-- **Evaluation with tail calls agrees with plain recursive evaluation.** Plain evaluation never
ends with a tail call; and where no limit of nested calls is set, evaluation with tail calls comes
to an end if and only if plain evaluation does, with the same value or error and with the same
machine: frames and bindings, atoms, output, input and report. -/
theorem evaluate_agrees_with_plain (form : Value) (frame : FrameId) :
    (∀ (fuel level : Nat) (m m' : Machine) (body : Value) (inner : FrameId),
      perform fuel level (.eval false form frame) m ≠ .done (.tailCall body inner) m') ∧
    ∀ m : Machine, m.Unlimited → ∀ (level : Nat) (r : Result Value), r.Ended →
      ((∃ fuel, evaluate fuel form frame m = r) ↔
        ∃ fuel, perform fuel level (.eval false form frame) m = r.map .value) := by
  constructor
  · intro fuel level m m' body inner
    exact perform_eval_false_ne_tailCall fuel level form body frame inner m m'
  intro m hm level r hr
  have hplain : (∃ fuel, perform fuel level (.eval false form frame) m = r.map .value) ↔
      denote (.eval false form frame) m = r.map .value :=
    exists_fuel_iff (converging_outermost.work (fun _ => level) (.eval false form frame) trivial)
      hm (Result.ended_map hr)
  rw [evaluate_iff hm form frame hr, hplain, denote_eval_false hm]
  constructor
  · intro h
    rw [h]
  · intro h
    exact Result.map_injective (fun _ _ => Step.value.inj) h

/-- `((fn* (x) x) 7)`, whose value is that of a tail call. -/
def identityCall : Value :=
  .form [.form [.symbol "fn*", .form [.symbol "x"], .symbol "x"], .int 7]

/-- With tail calls the call comes to 7, and so it does without them. -/
theorem plain_identityCall :
    Machine.bare.Unlimited ∧
      (evaluate 4 identityCall Session.root Machine.bare).value? = some (.int 7) ∧
      ∃ fuel, perform fuel 0 (.eval false identityCall Session.root) Machine.bare =
        (evaluate 4 identityCall Session.root Machine.bare).map .value := by
  have hvalue : (evaluate 4 identityCall Session.root Machine.bare).value? = some (.int 7) := by
    decide +kernel
  exact ⟨rfl, hvalue, ((evaluate_agrees_with_plain identityCall Session.root).2 Machine.bare
    rfl 0 _ (Result.ended_of_value? hvalue)).1 ⟨4, rfl⟩⟩

end AtomLisp
