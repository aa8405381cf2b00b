import AtomLisp.Proofs.TailCall
import Mathlib.Logic.Relation

/-! # Nested evaluation and tail calls

  How deep evaluation nests is counted here in jobs that are given on inside of each other. A run
  that nests deeper than it may is cut off, which no handler notices, so a run that comes to an end
  has not nested deeper anywhere.

  * `Caller.perform_capped`: a job gives others on at most six steps deeper;
  * `performWithin`, `evaluateWithin`: evaluation that nests at most so deep;
  * `good_perform`, `reaches_evaluate`: where the limit of nested calls grants six steps for each
    nested job, evaluation with enough fuel comes to what comes of such evaluation;
  * `TailState`: what is still to be evaluated between two tail calls, and `TailState.Next`, the way
    from one tail call to the next;
  * `TailState.StaysWithin.evaluate`: however many tail calls there are, evaluation nests no deeper
    than each of them does, and does not meet the limit.
-/

namespace AtomLisp

variable {α β : Type}

/-- The most steps that a job is given on in one go: by the special form that expands a macro call,
which evaluates the bodies that the macro ends with. -/
def Steps.most : Nat := 6

/-! ### How deep jobs are given on -/

namespace Caller

/-- The caller that gives jobs on relatively to its own level, and at most so many steps deeper. -/
def capped (c : Caller) : Caller :=
  ⟨fun steps job => c.work (c.level + min steps Steps.most) job, c.rounds, 0⟩

variable (c : Caller) (frame : FrameId)

theorem value_capped : c.capped.value = c.value := rfl

theorem headValue_capped : c.capped.headValue = c.headValue := rfl

theorem expand_capped : c.capped.expand = c.expand := rfl

theorem values_capped (forms : List Value) :
    c.capped.values frame forms = c.values frame forms := by
  induction forms with
  | nil => rfl
  | cons form forms ih => simp only [values, value_capped, ih]

theorem elementValues_capped (forms : List Value) :
    c.capped.elementValues frame forms = c.elementValues frame forms := by
  induction forms with
  | nil => rfl
  | cons form forms ih =>
    simp only [elementValues, ih]
    rfl

theorem entryValues_capped (entries : List (String × Value)) :
    c.capped.entryValues frame entries = c.entryValues frame entries := by
  induction entries with
  | nil => rfl
  | cons entry entries ih => simp only [entryValues, value_capped, ih]

theorem inner_expand_capped : c.capped.inner.expand = c.inner.expand := rfl

theorem sequence_capped (tail : Bool) (forms : List Value) :
    c.capped.sequence tail frame forms = c.sequence tail frame forms :=
  sequence_congr (c := c.capped) (d := c) rfl rfl tail frame forms

theorem inner_sequence_capped (tail : Bool) (forms : List Value) :
    c.capped.inner.sequence tail frame forms = c.inner.sequence tail frame forms :=
  sequence_congr (c := c.capped.inner) (d := c.inner) rfl rfl tail frame forms

theorem bindPairs_capped : ∀ items : List Value,
    SpecialForm.bindPairs c.capped frame items = SpecialForm.bindPairs c frame items
  | [] => rfl
  | [name] => by cases name <;> rfl
  | name :: form :: rest => by
    cases name with
    | symbol name => simp only [SpecialForm.bindPairs, value_capped, bindPairs_capped rest]
    | _ => rfl

theorem inner_callEach_capped (f : Value) (vs : List Value) :
    Builtin.callEach c.capped.inner f frame vs = Builtin.callEach c.inner f frame vs :=
  Builtin.callEach_congr (c := c.capped.inner) (d := c.inner) rfl f frame vs

theorem builtin_capped (args : List Value) (b : Builtin) :
    b.call c.capped frame args = b.call c frame args := by
  cases b with
  | query q => rfl
  | action a =>
    cases a with
    | map =>
      simp only [Builtin.call, Builtin.Action.perform, Builtin.mapItems,
        inner_callEach_capped]
    | _ => rfl

theorem apply_capped (tail : Bool) (f : Value) (args : List Value) :
    c.capped.apply tail f args frame = c.apply tail f args frame := by
  cases f with
  | builtin b => simp only [apply, builtin_capped]
  | _ => rfl

theorem special_capped (tail : Bool) (form : SpecialForm) (parts : List Value) :
    form.eval c.capped tail frame parts = form.eval c tail frame parts := by
  cases form with
  | letStar =>
    unfold SpecialForm.eval SpecialForm.evalLet
    simp only [bindPairs_capped, inner_sequence_capped]
  | sequence => exact c.sequence_capped frame tail parts
  | expandMacro =>
    unfold SpecialForm.eval
    simp only [inner_expand_capped]
    rfl
  | _ => rfl

theorem evalForm_capped (tail : Bool) (form : Value) :
    c.capped.evalForm tail form frame = c.evalForm tail form frame := by
  unfold evalForm
  simp only [special_capped, values_capped, elementValues_capped, entryValues_capped, apply_capped,
    headValue_capped]

/-- A job gives others on at most six steps deeper than it is itself. -/
theorem perform_capped (job : Job) : c.capped.perform job = c.perform job := by
  cases job with
  | eval tail form frame =>
    simp only [perform, eval, expand_capped, evalForm_capped]
    rfl
  | call f args frame => exact c.apply_capped frame false f args

end Caller

/-! ### Evaluation that nests at most so deep -/

/-- Does a job that may nest others in it, `depth` of them inside of each other along with itself.
What would nest deeper is cut off. -/
def performWithin (rounds : Rounds) : (depth : Nat) → Job → Run Step
  | 0 => fun _ => Run.unfinished
  | depth + 1 => fun job => Caller.perform ⟨fun _ => performWithin rounds depth, rounds, 0⟩ job

/-- The caller whose jobs may nest so deep. -/
def Caller.within (rounds : Rounds) (depth : Nat) : Caller :=
  ⟨fun _ => performWithin rounds depth, rounds, 0⟩

/-- The value of a form, if jobs that nest so deep are enough. -/
def evaluateWithin (rounds : Rounds) (depth : Nat) (form : Value) (frame : FrameId) : Run Value :=
  (Caller.within rounds depth).complete form frame

/-- So many rounds get as far as rounds without bound, or are cut off. -/
theorem performWithin_approx (rounds depth : Nat) (job : Job) (m : Machine) :
    (performWithin rounds depth job m).Approx (performWithin .unbounded depth job m) := by
  induction depth generalizing job m with
  | zero => exact .inl rfl
  | succ depth ih =>
    have hc : Discipline.approximating.Callers
        (Discipline.pair (Caller.within rounds depth) (Caller.within .unbounded depth)) :=
      Discipline.approximating_pair rfl (Rounds.unbounded_exceeds rounds) fun _ _ job m => ih job m
    exact (hc.perform job trivial m trivial).1

/-! ### Runs that reach another one -/

namespace Result

/-- Unless the last result is missing, the numbered ones approximate it, and all from some number on
are equal to it. -/
def Reaches (r : Option Nat → Result α) : Prop :=
  r none = .unfinished ∨
    (∀ n, (r (some n)).Approx (r none)) ∧ ∃ N, ∀ n ≥ N, r (some n) = r none

theorem Reaches.of_ended {r : Option Nat → Result α} (h : Reaches r) (hended : (r none).Ended) :
    (∀ n, (r (some n)).Approx (r none)) ∧ ∃ N, ∀ n ≥ N, r (some n) = r none := by
  rcases h with hcut | h
  · exact absurd hcut (ended_iff.1 hended)
  · exact h

theorem Approx.andThen {r s : Result α} (h : r.Approx s) (f : α → Run β) :
    (r.andThen f).Approx (s.andThen f) := by
  rcases h with rfl | rfl
  · exact .inl rfl
  · exact .refl _

/-- Results may be numbered from one on, if the first one is missing. -/
theorem Reaches.shift {r r' : Option Nat → Result α} (h : Reaches r') (hnone : r none = r' none)
    (hzero : r (some 0) = .unfinished) (hsucc : ∀ n, r (some (n + 1)) = r' (some n)) :
    Reaches r := by
  rcases h with hcut | ⟨happrox, N, hN⟩
  · exact .inl (hnone.trans hcut)
  · refine .inr ⟨?_, N + 1, ?_⟩
    · intro n
      cases n with
      | zero => exact .inl hzero
      | succ n =>
        rw [hsucc, hnone]
        exact happrox n
    · intro n hn
      cases n with
      | zero => omega
      | succ n =>
        rw [hsucc, hnone]
        exact hN n (by omega)

theorem reaches_same (r : Result α) : Reaches fun _ => r :=
  .inr ⟨fun _ => .refl r, 0, fun _ _ => rfl⟩

/-- What is done next with numbered results reaches what is done next with the last one. -/
theorem Reaches.next {r : Option Nat → Result α} (h : Reaches r)
    (next : Option Nat → Result α → Result β) (hcut : ∀ i, next i .unfinished = .unfinished)
    (hnext : ∀ s, (∃ i, r i = s) → Reaches fun i => next i s) :
    Reaches fun i => next i (r i) := by
  rcases h with hnone | ⟨happrox, N, hN⟩
  · exact .inl (by simp only [hnone, hcut])
  · rcases hnext (r none) ⟨none, rfl⟩ with hnone' | ⟨happrox', K, hK⟩
    · exact .inl hnone'
    · refine .inr ⟨?_, max N K, ?_⟩
      · intro n
        rcases happrox n with h | h
        · exact .inl (by simp only [h, hcut])
        · simpa only [h] using happrox' n
      · intro n hn
        show next (some n) (r (some n)) = next none (r none)
        rw [hN n (by omega)]
        exact hK n (by omega)

end Result

namespace Discipline

/-- The numbered runs reach the last one. -/
def reaching (H : Host → Prop) : Discipline (Option Nat) :=
  ofHost H Result.Reaches Result.reaches_same fun next hcut h hnext => h.next next hcut hnext

variable {H : Host → Prop} {step : Option Nat → β → Run (β ⊕ α)} {P : β → Prop} {Q : α → Prop}

/-- Repeating a step more and more often reaches repeating it without bound. -/
theorem reaches_iterate (hstep : ∀ b, P b → (reaching H).Good (fun i => step i b) (Sum.elim P Q))
    {b : β} (hb : P b) {m : Machine} (hm : H m.host) (r : Option Nat → Result α)
    (hsome : ∀ n, r (some n) = Run.iterate (step (some n)) n b m)
    (hnone : r none = Rounds.unbounded.run (step none) b m) : Result.Reaches r := by
  by_cases hcut : r none = .unfinished
  · exact .inl hcut
  obtain ⟨K, hK⟩ := (Run.growing_iterate (step none) b).eventually_eq_limit m
  have hK' : ∀ k ≥ K, Run.iterate (step none) k b m = r none := fun k hk =>
    (hK k hk).trans hnone.symm
  -- With `K` repetitions or more, the last run has come to its end.
  have hreach : ∀ k ≥ K, (∀ n, (Run.iterate (step (some n)) k b m).Approx (r none)) ∧
      ∃ N, ∀ n ≥ N, Run.iterate (step (some n)) k b m = r none := by
    intro k hk
    have hgood : Result.Reaches fun i => Run.iterate (step i) k b m :=
      (Good.iterate hstep k b hb m hm).1
    simp only [Result.Reaches, hK' k hk] at hgood
    exact hgood.resolve_left hcut
  have hgrowing := fun n => Run.growing_iterate (step (some n)) b
  refine .inr ⟨?_, ?_⟩
  · intro n
    rw [hsome]
    exact ((hgrowing n).approx_of_le (Nat.le_max_left n K) m).trans
      ((hreach (max n K) (Nat.le_max_right n K)).1 n)
  · obtain ⟨-, N, hN⟩ := hreach K (Nat.le_refl K)
    refine ⟨max N K, ?_⟩
    intro n hn
    have happrox := (hgrowing n).approx_of_le (show K ≤ n by omega) m
    have hn' : Run.iterate (step (some n)) K b m = r none := hN n (by omega)
    rw [hsome, ← hn']
    exact (happrox.eq_of_ended (Result.ended_iff.2 (hn' ▸ hcut))).symm

/-- Callers reach another one when their jobs do. -/
theorem reaching_numbered {c : Nat → Caller} {last : Caller} (hc : ∀ n, (c n).rounds = n)
    (hlast : last.rounds = .unbounded)
    (hwork : ∀ (levels : Option Nat → Nat) (job : Job),
      (reaching H).Good (fun i => (numbered c last i).work (levels i) job) fun _ => True) :
    (reaching H).Callers (numbered c last) where
  work levels job _ :=
    (hwork levels job).mono fun _ _ => freeStep_of_forall (fun _ => trivial) _
  rounds {β α step P Q} hstep b hb := by
    intro m hm
    have hsome : ∀ n, (numbered c last (some n)).rounds.run (step (some n)) b m =
        Run.iterate (step (some n)) n b m := by
      intro n
      show (c n).rounds.run _ b m = _
      rw [hc]
    have hnone : (numbered c last none).rounds.run (step none) b m =
        Rounds.unbounded.run (step none) b m := by
      show last.rounds.run _ b m = _
      rw [hlast]
    have hreaches : Result.Reaches fun i => (numbered c last i).rounds.run (step i) b m :=
      reaches_iterate hstep hb hm _ hsome hnone
    refine ⟨hreaches, ?_⟩
    intro i
    cases i with
    | none =>
      show ((numbered c last none).rounds.run (step none) b m).Sat _ _
      rw [hnone]
      exact Good.sat_rounds hstep (Rounds.unbounded_exceeds 0) hb hm none
    | some n =>
      show ((numbered c last (some n)).rounds.run (step (some n)) b m).Sat _ _
      rw [hsome]
      exact (Good.iterate hstep n b hb m hm).2 (some n)

/-! ### The limit of nested calls -/

/-- The discipline of single runs that asks only for something about the host. -/
def hosted (H : Host → Prop) : Discipline Unit :=
  ofHost H (fun _ => True) (fun _ => trivial) fun _ _ _ _ => trivial

end Discipline

theorem perform_hosted {H : Host → Prop} (fuel level : Nat) (job : Job) {m : Machine}
    (hm : H m.host) : (perform fuel level job m).Sat (fun m => H m.host) fun _ => True :=
  (((Discipline.callers_perform (Discipline.hosted H) fuel level).work (fun _ => level) job trivial
    m hm).2 ()).mono (fun _ => id) fun _ _ => trivial

/-- Is evaluation granted so many steps? -/
def Host.Grants (steps : Nat) (host : Host) : Prop := host.limits.allows steps = true

/-- Jobs at levels side by side with jobs that nest at most so deep. -/
noncomputable def jobsWithin (levels : Nat → Nat) (depth : Nat) (job : Job) :
    Option Nat → Run Step
  | some n => perform n (levels n) job
  | none => performWithin .unbounded depth job

/-- Where six steps are granted for each nested job, a job that does not nest deeper is done with
enough fuel. -/
theorem good_perform (top depth : Nat) {levels : Nat → Nat}
    (hlevels : ∀ n, levels n + Steps.most * depth ≤ top + Steps.most) (job : Job) :
    (Discipline.reaching (Host.Grants top)).Good (jobsWithin levels depth job) fun _ => True := by
  induction depth generalizing levels job with
  | zero =>
    intro m hm
    refine ⟨.inl rfl, ?_⟩
    intro i
    cases i with
    | none => trivial
    | some n => exact perform_hosted n (levels n) job (show Host.Grants top m.host from hm)
  | succ depth ih =>
    simp only [Steps.most] at hlevels ih
    -- The jobs that are given on are at most six steps deeper.
    let c : Option Nat → Caller := Discipline.numbered
      (fun n => (⟨perform n, n, levels (n + 1)⟩ : Caller).capped) (Caller.within .unbounded depth)
    have hc : (Discipline.reaching (Host.Grants top)).Callers c := by
      refine Discipline.reaching_numbered (fun _ => rfl) rfl ?_
      intro levels' job
      have hgood := @ih (fun n => levels (n + 1) + min (levels' (some n)) 6)
        (fun n => by have := hlevels (n + 1); omega) job
      refine cast (congrArg (Discipline.Good _ · _) ?_) hgood
      funext i
      cases i <;> rfl
    intro m hm
    obtain ⟨hrel, hsat⟩ := hc.perform job trivial m hm
    have hreaches : Result.Reaches fun i => (c i).perform job m := hrel
    have hsucc : ∀ n, perform (n + 1) (levels (n + 1)) job m =
        (⟨perform n, n, levels (n + 1)⟩ : Caller).capped.perform job m := by
      intro n
      have hallows : m.host.limits.allows (levels (n + 1)) = true := by
        have hle := hlevels (n + 1)
        exact Limits.allows_of_le hm (by omega)
      rw [Caller.perform_capped]
      show (if m.host.limits.allows (levels (n + 1)) = true then _ else Run.fail .tooDeep) m = _
      rw [if_pos hallows]
    have hshift : Result.Reaches fun i => jobsWithin levels (depth + 1) job i m :=
      hreaches.shift rfl rfl hsucc
    refine ⟨hshift, ?_⟩
    intro i
    cases i with
    | none => exact (hsat none).mono (fun _ => id) fun _ _ => trivial
    | some n => exact perform_hosted n (levels n) job (show Host.Grants top m.host from hm)

/-- A form is evaluated where six steps are granted for each nested job. -/
theorem reaches_evaluate (depth : Nat) (form : Value) (frame : FrameId) {m : Machine}
    (hm : m.host.limits.allows (Steps.most * depth) = true)
    (hended : (evaluateWithin .unbounded depth form frame m).Ended) :
    ∃ N, ∀ fuel ≥ N, evaluate fuel form frame m = evaluateWithin .unbounded depth form frame m := by
  let c : Option Nat → Caller :=
    Discipline.numbered (fun n => (outermost n).capped) (Caller.within .unbounded depth)
  have hc : (Discipline.reaching (Host.Grants (Steps.most * depth))).Callers c := by
    refine Discipline.reaching_numbered (fun _ => rfl) rfl ?_
    intro levels job
    have hgood := @good_perform (Steps.most * depth) depth
      (fun n => 0 + min (levels (some n)) Steps.most) (fun n => by omega) job
    refine cast (congrArg (Discipline.Good _ · _) ?_) hgood
    funext i
    cases i <;> rfl
  have hreaches : Result.Reaches fun i => (c i).complete form frame m :=
    (hc.complete trivial form m hm).1
  exact (hreaches.of_ended hended).2

/-! ### Tail calls -/

/-- What is still to be evaluated between two tail calls: a form in a frame, and the machine to
start from. -/
structure TailState where
  form    : Value
  frame   : FrameId
  machine : Machine

namespace TailState

/-- Evaluates the form in tail position, in jobs that nest so deep: up to its value or to a tail
call. -/
def step (rounds : Rounds) (depth : Nat) (p : TailState) : Result Step :=
  performWithin rounds depth (.eval true p.form p.frame) p.machine

/-- The one ends with a tail call, and the other one is what that leaves to be evaluated. -/
def Next (depth : Nat) (p q : TailState) : Prop :=
  p.step .unbounded depth = .done (.tailCall q.form q.frame) q.machine

/-- However many tail calls are made, each of them and the end, if there is one, is come to in jobs
that nest so deep. -/
def StaysWithin (depth : Nat) (p : TailState) : Prop :=
  ∀ q, Relation.ReflTransGen (Next depth) p q → (q.step .unbounded depth).Ended

/-- After some tail calls there is a value, or an error. -/
def ComesTo (depth : Nat) (p : TailState) (r : Result Value) : Prop :=
  ∃ q, Relation.ReflTransGen (Next depth) p q ∧ q.step .unbounded depth = r.map .value

variable {depth : Nat} {p q : TailState} {r : Result Value} {m n : Machine}

theorem StaysWithin.next (h : p.StaysWithin depth) (hq : p.Next depth q) : q.StaysWithin depth :=
  fun o ho => h o (.head hq ho)

theorem ComesTo.next (hq : p.Next depth q) (h : q.ComesTo depth r) : p.ComesTo depth r := by
  obtain ⟨o, ho, hend⟩ := h
  exact ⟨o, .head hq ho, hend⟩

/-- The machine grants six steps for each nested job. -/
def Granted (depth : Nat) (p : TailState) : Prop :=
  p.machine.host.limits.allows (Steps.most * depth) = true

theorem good_body {level : Nat} (hlevel : level ≤ Steps.most) (depth : Nat) (job : Job) :
    (Discipline.reaching (Host.Grants (Steps.most * depth))).Good
      (jobsWithin (fun _ => level) depth job) fun _ => True :=
  good_perform _ depth (fun _ => by omega) job

theorem Granted.next (hp : p.Granted depth) (hq : p.Next depth q) : q.Granted depth := by
  have hsat : (p.step .unbounded depth).Sat (fun m => Host.Grants (Steps.most * depth) m.host)
      fun _ => True :=
    (good_body (Nat.zero_le _) depth (.eval true p.form p.frame) p.machine hp).2 none
  rw [hq] at hsat
  exact hsat.1

/-- With any amount of fuel the step ends in the same way, or is cut off. -/
theorem Granted.approx (hp : p.Granted depth) (hended : (p.step .unbounded depth).Ended)
    {level : Nat} (hlevel : level ≤ Steps.most) (fuel : Nat) :
    (perform fuel level (.eval true p.form p.frame) p.machine).Approx
      (p.step .unbounded depth) := by
  have hreaches : Result.Reaches fun i =>
      jobsWithin (fun _ => level) depth (.eval true p.form p.frame) i p.machine :=
    (good_body hlevel depth (.eval true p.form p.frame) p.machine hp).1
  exact (hreaches.of_ended hended).1 fuel

/-! ### Tail calls do not nest -/

theorem complete_eq (depth : Nat) (p : TailState) :
    evaluateWithin .unbounded depth p.form p.frame p.machine =
      (p.step .unbounded depth).andThen (Caller.within .unbounded depth).settle := rfl

theorem settle_within_value (depth : Nat) (v : Value) :
    (Caller.within .unbounded depth).settle (.value v) = pure v :=
  Rounds.unbounded_run (Caller.within .unbounded depth).settleOnce (.value v)

theorem settle_within_tailCall (depth : Nat) (body : Value) (frame : FrameId) :
    (Caller.within .unbounded depth).settle (.tailCall body frame) =
      evaluateWithin .unbounded depth body frame := by
  refine (Rounds.unbounded_run (Caller.within .unbounded depth).settleOnce
    (.tailCall body frame)).trans ?_
  simp only [Caller.settleOnce, bind_assoc, pure_bind]
  rfl

/-- What tail calls come to is found in jobs that nest no deeper than those calls. -/
theorem ComesTo.evaluateWithin (h : p.ComesTo depth r) :
    evaluateWithin .unbounded depth p.form p.frame p.machine = r := by
  obtain ⟨q, hq, hend⟩ := h
  induction hq using Relation.ReflTransGen.head_induction_on with
  | refl =>
    rw [complete_eq, hend]
    cases r with
    | done v n => exact congrFun (settle_within_value depth v) n
    | failed e n => rfl
    | unfinished => rfl
  | head hnext _ ih =>
    rw [complete_eq, hnext]
    exact (congrFun (settle_within_tailCall depth _ _) _).trans ih

/-- The rounds of the trampoline, from one tail call to the next. -/
theorem iterate_settleOnce (c : Caller) (rounds : Nat) (body : Value) (frame : FrameId) :
    Run.iterate c.settleOnce (rounds + 1) (.tailCall body frame) =
      c.work (c.level + Steps.again) (.eval true body frame) >>=
        Run.iterate c.settleOnce rounds := by
  rw [Run.iterate_succ]
  simp only [Caller.settleOnce, bind_assoc, pure_bind]

/-- The trampoline is stepped after the step, or all is cut off. -/
theorem Granted.approx_rounds (hp : p.Granted depth) (hended : (p.step .unbounded depth).Ended)
    {level : Nat} (hlevel : level ≤ Steps.most) (fuel rounds : Nat) :
    ((perform fuel level (.eval true p.form p.frame) >>=
      Run.iterate (outermost fuel).settleOnce rounds) p.machine).Approx
        ((p.step .unbounded depth).andThen (Run.iterate (outermost fuel).settleOnce rounds)) :=
  (hp.approx hended hlevel fuel).andThen _

/-- However often the trampoline is stepped, it has come to where the tail calls come to or is still
under way. -/
theorem StaysWithin.rounds (h : p.StaysWithin depth) (hp : p.Granted depth) {level : Nat}
    (hlevel : level ≤ Steps.most) (fuel rounds : Nat) :
    let r := (perform fuel level (.eval true p.form p.frame) >>=
      Run.iterate (outermost fuel).settleOnce rounds) p.machine
    r = .unfinished ∨ p.ComesTo depth r := by
  -- The first body runs at another level than those that are evaluated in its place.
  induction rounds generalizing p level with
  | zero =>
    intro r
    rcases hp.approx_rounds (h p .refl) hlevel fuel 0 with hcut | hr
    · exact .inl hcut
    · cases hend : p.step .unbounded depth with
      | failed e n =>
        rw [hend] at hr
        exact .inr ⟨p, .refl, hend.trans (congrArg (Result.map _) hr).symm⟩
      | _ =>
        rw [hend] at hr
        exact .inl hr
  | succ rounds ih =>
    intro r
    rcases hp.approx_rounds (h p .refl) hlevel fuel (rounds + 1) with hcut | hr
    · exact .inl hcut
    · cases hend : p.step .unbounded depth with
      | done s n =>
        rw [hend] at hr
        cases s with
        | value v => exact .inr ⟨p, .refl, hend.trans (congrArg (Result.map _) hr).symm⟩
        | tailCall body inner =>
          have hnext : p.Next depth ⟨body, inner, n⟩ := hend
          -- The rounds that are left are those of the tail call.
          have hr' : r = _ :=
            hr.trans (congrFun (iterate_settleOnce (outermost fuel) rounds body inner) n)
          rw [hr']
          have hagain : 0 + Steps.again ≤ Steps.most := by decide
          exact (ih (h.next hnext) (hp.next hnext) hagain).imp id (.next hnext)
      | failed e n =>
        rw [hend] at hr
        exact .inr ⟨p, .refl, hend.trans (congrArg (Result.map _) hr).symm⟩
      | unfinished =>
        rw [hend] at hr
        exact .inl hr

/-- **However many tail calls there are, they do not nest.** If each of them is come to in jobs that
nest so deep, so is the end. Where the machine grants six steps for each nested job, evaluation
comes to the same end and to no other. -/
theorem StaysWithin.evaluate (h : p.StaysWithin depth) (hp : p.Granted depth) :
    (∀ fuel, evaluate fuel p.form p.frame p.machine = .unfinished ∨
      p.ComesTo depth (evaluate fuel p.form p.frame p.machine)) ∧
    ∀ r : Result Value, r.Ended → p.ComesTo depth r →
      evaluateWithin .unbounded depth p.form p.frame p.machine = r ∧
        ∃ N, ∀ fuel ≥ N, evaluate fuel p.form p.frame p.machine = r := by
  have hbody : 0 + Steps.body ≤ Steps.most := by decide
  refine ⟨fun fuel => h.rounds hp hbody fuel fuel, ?_⟩
  rintro r hended hcomes
  have hend := hcomes.evaluateWithin
  obtain ⟨N, hN⟩ := reaches_evaluate depth p.form p.frame hp (hend ▸ hended)
  exact ⟨hend, N, fun fuel hfuel => (hN fuel hfuel).trans hend⟩

/-- If each tail call and the value in the end, if there is one, is come to without an error, so is
the value from the start. -/
theorem error?_evaluate (hp : p.Granted depth)
    (h : ∀ q, Relation.ReflTransGen (Next depth) p q → ∃ s n, q.step .unbounded depth = .done s n)
    (fuel : Nat) : (AtomLisp.evaluate fuel p.form p.frame p.machine).error? = none := by
  have hstays : p.StaysWithin depth := by
    intro q hq
    obtain ⟨s, n, hstep⟩ := h q hq
    rw [hstep]
    trivial
  rcases (hstays.evaluate hp).1 fuel with hcut | ⟨q, hq, hend⟩
  · rw [hcut]
    rfl
  · obtain ⟨s, n, hstep⟩ := h q hq
    cases hr : AtomLisp.evaluate fuel p.form p.frame p.machine with
    | failed e n' =>
      rw [hr, hstep] at hend
      cases hend
    | _ => rfl

/-! ### Following the tail calls -/

/-- Follows the tail calls, at most so many of them, and tells whether there is a value at last. -/
def settles (rounds depth : Nat) : (times : Nat) → TailState → Bool
  | 0, _ => false
  | times + 1, p =>
    match p.step rounds depth with
    | .done (.value _) _ => true
    | .done (.tailCall body frame) m => settles rounds depth times ⟨body, frame, m⟩
    | _ => false

theorem done_of_settles {rounds depth times : Nat} {p : TailState}
    (h : settles rounds depth times p = true) :
    ∀ q, Relation.ReflTransGen (Next depth) p q →
      ∃ s n, q.step .unbounded depth = .done s n := by
  induction times generalizing p with
  | zero => cases h
  | succ times ih =>
    have happrox : (p.step rounds depth).Approx (p.step .unbounded depth) :=
      performWithin_approx rounds depth _ _
    unfold settles at h
    intro q hq
    cases hstep : p.step rounds depth with
    | done s n =>
      have hended : (p.step rounds depth).Ended := by
        rw [hstep]
        trivial
      have hunbounded : p.step .unbounded depth = .done s n :=
        (happrox.eq_of_ended hended).symm.trans hstep
      rw [hstep] at h
      rcases Relation.ReflTransGen.cases_head hq with rfl | ⟨o, ho, hoq⟩
      · exact ⟨s, n, hunbounded⟩
      · -- There is only one way on.
        cases s with
        | value v => cases ho.symm.trans hunbounded
        | tailCall body frame =>
          obtain ⟨form, inner, machine⟩ := o
          cases ho.symm.trans hunbounded
          exact ih h q hoq
    | failed e n =>
      rw [hstep] at h
      cases h
    | unfinished =>
      rw [hstep] at h
      cases h

end TailState

end AtomLisp
