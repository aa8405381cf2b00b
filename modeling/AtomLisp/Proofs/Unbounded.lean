import AtomLisp.Proofs.Discipline.Callers
import AtomLisp.Session

/-! # Unbounded evaluation

  Evaluation is cut off by its fuel, and stopped by the limit of nested calls. This module
  describes evaluation without either, as the limit of evaluation with more and more fuel:

  * `Result.Approx` and `Run.limit`: results that are cut off approximate all others, and a growing
    family of runs has a limit;
  * `performFreely`: doing jobs with fuel, but without the limit of nested calls;
    `agreeing_onLevel`: where no limit is set, it does not matter from which level jobs are given
    on;
  * `denote` and `Caller.unbounded`: doing jobs without fuel, and the caller that gives jobs on
    without any bound. `denote_eq` says that this caller does every job;
  * `evaluate_iff`: where no limit is set, a form evaluates to a result with some amount of fuel if
    and only if it does so without bound.

  Statements about all amounts of fuel become equations between runs of `Caller.unbounded`.
-/

namespace AtomLisp

variable {α β ι : Type}

/-! ### Approximation -/

namespace Result

/-- The first run was cut off, or else both ended in the same way. -/
def Approx (r s : Result α) : Prop := r = .unfinished ∨ r = s

theorem Approx.refl (r : Result α) : r.Approx r := .inr rfl

theorem Approx.trans {r s t : Result α} (hrs : r.Approx s) (hst : s.Approx t) : r.Approx t := by
  rcases hrs with rfl | rfl
  · exact .inl rfl
  · exact hst

theorem Approx.antisymm {r s : Result α} (hrs : r.Approx s) (hsr : s.Approx r) : r = s := by
  rcases hrs with rfl | rfl
  · rcases hsr with rfl | h
    · rfl
    · exact h.symm
  · rfl

theorem Approx.eq_of_ended {r s : Result α} (h : r.Approx s) (hr : r.Ended) : r = s := by
  rcases h with rfl | rfl
  · exact hr.elim
  · rfl

theorem ended_iff {r : Result α} : r.Ended ↔ r ≠ .unfinished := by
  cases r <;> simp [Ended]

end Result

/-! ### Limits of runs -/

namespace Run

/-- A family of runs grows: a run that ended ends in the same way further on. -/
def Growing (x : Nat → Run α) : Prop := ∀ n m, (x n m).Approx (x (n + 1) m)

theorem Growing.approx_of_le {x : Nat → Run α} (hx : Growing x) {n k : Nat} (h : n ≤ k)
    (m : Machine) : (x n m).Approx (x k m) := by
  induction h with
  | refl => exact .refl _
  | step _ ih => exact ih.trans (hx _ m)

open Classical in
/-- Ends as some run of a growing family ends, and is cut off if all of them are. -/
noncomputable def limit (x : Nat → Run α) : Run α := fun m =>
  if h : ∃ n, x n m ≠ .unfinished then x h.choose m else .unfinished

variable {x : Nat → Run α}

theorem Growing.approx_limit (hx : Growing x) (n : Nat) (m : Machine) :
    (x n m).Approx (limit x m) := by
  by_cases hn : x n m = .unfinished
  · exact .inl hn
  · have h : ∃ k, x k m ≠ .unfinished := ⟨n, hn⟩
    have hlimit : limit x m = x h.choose m := dif_pos h
    rw [hlimit]
    -- The member that the limit was taken from comes later, or it has ended before.
    rcases Nat.le_total n h.choose with hle | hle
    · exact hx.approx_of_le hle m
    · have happrox := hx.approx_of_le hle m
      rcases happrox with hcut | heq
      · exact absurd hcut h.choose_spec
      · exact .inr heq.symm

/-- From some member on, the runs of a growing family end as their limit does. -/
theorem Growing.eventually_eq_limit (hx : Growing x) (m : Machine) :
    ∃ N, ∀ n ≥ N, x n m = limit x m := by
  by_cases h : ∃ n, x n m ≠ .unfinished
  · -- Once a run has ended, the runs after it end in the same way.
    obtain ⟨N, hN⟩ := h
    refine ⟨N, ?_⟩
    intro n hn
    have hended : x n m ≠ .unfinished := by
      rcases hx.approx_of_le hn m with hcut | heq
      · exact absurd hcut hN
      · exact heq ▸ hN
    exact (hx.approx_limit n m).eq_of_ended (Result.ended_iff.2 hended)
  · -- All runs are cut off, and so is the limit.
    have hlimit : limit x m = .unfinished := dif_neg h
    refine ⟨0, ?_⟩
    intro n _
    rw [hlimit]
    have hcut : ¬ x n m ≠ .unfinished := fun hn => h ⟨n, hn⟩
    exact Classical.not_not.1 hcut

/-- Limits agree when every run of the one family is matched by the next run of the other. -/
theorem limit_eq_of_shift {y : Nat → Run α} {m m' : Machine} (hx : Growing x) (hy : Growing y)
    (h : ∀ n, y (n + 1) m' = x n m) : limit y m' = limit x m := by
  obtain ⟨N, hN⟩ := hx.eventually_eq_limit m
  obtain ⟨K, hK⟩ := hy.eventually_eq_limit m'
  -- Both limits are reached when both numbers are.
  have hlimit : x (max N K) m = limit x m := hN _ (by omega)
  have hlimit' : y (max N K + 1) m' = limit y m' := hK _ (by omega)
  rw [← hlimit, ← h, hlimit']

/-! ### Repeated steps -/

theorem iterate_succ (step : β → Run (β ⊕ α)) (n : Nat) (b : β) :
    iterate step (n + 1) b = (do
      match ← step b with
      | .inl b => iterate step n b
      | .inr a => pure a) := rfl

/-- A step may be repeated more often. -/
theorem growing_iterate (step : β → Run (β ⊕ α)) (b : β) :
    Growing fun n => iterate step n b := by
  intro n
  induction n generalizing b with
  | zero => exact fun m => .inl rfl
  | succ n ih =>
    intro m
    simp only [iterate_succ, bind_apply]
    cases step b m with
    | done s m' =>
      cases s with
      | inl b => exact ih b m'
      | inr a => exact .refl _
    | failed e m' => exact .refl _
    | unfinished => exact .refl _

end Run

/-- A step is repeated as often as it takes. -/
noncomputable def Rounds.unbounded : Rounds :=
  ⟨fun step b => Run.limit fun n => Run.iterate step n b⟩

theorem Rounds.unbounded_run (step : β → Run (β ⊕ α)) (b : β) :
    Rounds.unbounded.run step b = (do
      match ← step b with
      | .inl b => Rounds.unbounded.run step b
      | .inr a => pure a) := by
  funext m
  have hgrowing := Run.growing_iterate step
  rw [Run.bind_apply]
  show Run.limit (fun n => Run.iterate step n b) m = _
  cases hr : step b m with
  | done s m' =>
    cases s with
    | inl b' =>
      -- One round has been used up; the others start where it has led to.
      refine Run.limit_eq_of_shift (hgrowing b') (hgrowing b) ?_
      intro n
      simp only [Run.iterate_succ, Run.bind_apply, hr]
    | inr a =>
      obtain ⟨N, hN⟩ := (hgrowing b).eventually_eq_limit m
      rw [← hN (N + 1) (by omega), Run.iterate_succ, Run.bind_apply, hr]
  | failed e m' =>
    obtain ⟨N, hN⟩ := (hgrowing b).eventually_eq_limit m
    rw [← hN (N + 1) (by omega), Run.iterate_succ, Run.bind_apply, hr]
  | unfinished =>
    obtain ⟨N, hN⟩ := (hgrowing b).eventually_eq_limit m
    rw [← hN (N + 1) (by omega), Run.iterate_succ, Run.bind_apply, hr]

/-- Wherever these rounds come to an end, at least `n` repetitions do so too or are cut off. -/
def Rounds.Exceeds (rounds : Rounds) (n : Nat) : Prop :=
  ∀ {β α : Type} (step : β → Run (β ⊕ α)) (b : β) (m : Machine),
    ∃ k ≥ n, rounds.run step b m = Run.iterate step k b m

theorem Rounds.exceeds_of_le {n k : Nat} (h : n ≤ k) : (k : Rounds).Exceeds n :=
  fun _ _ _ => ⟨k, h, rfl⟩

theorem Rounds.unbounded_exceeds (n : Nat) : Rounds.unbounded.Exceeds n := by
  intro β α step b m
  obtain ⟨N, hN⟩ := (Run.growing_iterate step b).eventually_eq_limit m
  exact ⟨max N n, by omega, (hN (max N n) (by omega)).symm⟩

/-! ### Three disciplines -/

namespace Discipline

/-- A discipline that asks nothing of frames, and of machines only something about their host. -/
def ofHost (H : Host → Prop) (Rel : {α : Type} → (ι → Result α) → Prop)
    (rel_same : ∀ {α : Type} (r : Result α), Rel fun _ : ι => r)
    (rel_next : ∀ {α β : Type} {r : ι → Result α} (next : ι → Result α → Result β),
      (∀ i, next i .unfinished = .unfinished) → Rel r →
      (∀ s, (∃ i, r i = s) → Rel fun i => next i s) → Rel fun i => next i (r i)) :
    Discipline ι where
  Inv m := H m.host
  Free _ := True
  Rel := Rel
  rel_same := rel_same
  rel_next := rel_next
  inv_still h _ hhost := hhost ▸ h
  inv_define _ _ h _ := h
  inv_push _ _ h := h
  free_size _ := trivial
  free_root _ _ := trivial

/-- The first run approximates the second one. -/
def approximating : Discipline Bool :=
  ofHost (fun _ => True) (fun r => (r false).Approx (r true)) (fun r => .refl r) (by
    intro α β r next hcut hrel hnext
    rcases hrel with h | h
    · exact .inl (by simp only [h, hcut])
    · simpa only [h] using hnext (r true) ⟨true, rfl⟩)

/-- The two runs end in the same way. -/
def agreeing (H : Host → Prop) : Discipline Bool :=
  ofHost H (fun r => r false = r true) (fun _ => rfl) (by
    intro α β r next _ hrel hnext
    simpa only [hrel] using hnext (r true) ⟨true, rfl⟩)

/-- The numbered runs approximate the last one, and all from some number on end as it does. -/
def converging (H : Host → Prop) : Discipline (Option Nat) :=
  ofHost H (fun r => (∀ n, (r (some n)).Approx (r none)) ∧ ∃ N, ∀ n ≥ N, r (some n) = r none)
    (fun r => ⟨fun _ => .refl r, 0, fun _ _ => rfl⟩) (by
    rintro α β r next hcut ⟨happrox, N, hN⟩ hnext
    obtain ⟨happrox', K, hK⟩ := hnext (r none) ⟨none, rfl⟩
    constructor
    · intro n
      rcases happrox n with h | h
      · exact .inl (by simp only [h, hcut])
      · simpa only [h] using happrox' n
    · -- From the larger of the two numbers on, both parts end as they do at last.
      refine ⟨max N K, ?_⟩
      intro n hn
      show next (some n) (r (some n)) = next none (r none)
      rw [hN n (by omega)]
      exact hK n (by omega))

variable {D : Discipline ι} {step : ι → β → Run (β ⊕ α)} {P : β → Prop} {Q : α → Prop}

/-- Rounds that get far enough keep what the step keeps. -/
theorem Good.sat_rounds (hstep : ∀ b, P b → D.Good (fun i => step i b) (Sum.elim P Q))
    {rounds : Rounds} {n : Nat} (hrounds : rounds.Exceeds n) {b : β} (hb : P b) {m : Machine}
    (hm : D.Inv m) (i : ι) : (rounds.run (step i) b m).Sat D.Inv Q := by
  obtain ⟨k, -, hk⟩ := hrounds (step i) b m
  rw [hk]
  exact (Good.iterate hstep k b hb m hm).2 i

/-- Two callers side by side. -/
def pair (c₀ c₁ : Caller) : Bool → Caller
  | false => c₀
  | true => c₁

/-- A caller whose jobs and rounds get at least as far is approximated. -/
theorem approximating_pair {c₀ c₁ : Caller} {n : Nat} (h₀ : c₀.rounds = n)
    (h₁ : c₁.rounds.Exceeds n)
    (hwork : ∀ (l₀ l₁ : Nat) (job : Job) (m : Machine),
      (c₀.work l₀ job m).Approx (c₁.work l₁ job m)) :
    approximating.Callers (pair c₀ c₁) where
  work levels job _ m _ := ⟨hwork (levels false) (levels true) job m, fun _ =>
    Result.sat_of_forall (fun _ => trivial) (freeStep_of_forall fun _ => trivial) _⟩
  rounds hstep b hb m hm := by
    obtain ⟨hrel, hsat⟩ := Good.iterate hstep n b hb m hm
    constructor
    · show (c₀.rounds.run _ b m).Approx (c₁.rounds.run _ b m)
      obtain ⟨k, hk, heq⟩ := h₁ _ b m
      rw [h₀, heq]
      exact Result.Approx.trans hrel ((Run.growing_iterate _ b).approx_of_le hk m)
    · intro i
      cases i with
      | false =>
        show (c₀.rounds.run _ b m).Sat _ _
        rw [h₀]
        exact hsat false
      | true => exact Good.sat_rounds hstep h₁ hb hm true

/-- Callers with the same rounds agree when their jobs do. -/
theorem agreeing_pair {H : Host → Prop} {c₀ c₁ : Caller} {n : Nat} (h₀ : c₀.rounds = n)
    (h₁ : c₁.rounds = n)
    (hwork : ∀ (levels : Bool → Nat) (job : Job),
      (agreeing H).Good (fun i => (pair c₀ c₁ i).work (levels i) job) fun _ => True) :
    (agreeing H).Callers (pair c₀ c₁) where
  work levels job _ :=
    (hwork levels job).mono fun _ _ => freeStep_of_forall (fun _ => trivial) _
  rounds hstep b hb := by
    have hrounds : ∀ i, (pair c₀ c₁ i).rounds = n := by rintro (_ | _) <;> assumption
    simp only [hrounds]
    exact Good.iterate hstep n b hb

/-- Numbered callers side by side with the one that they converge to. -/
def numbered (c : Nat → Caller) (limit : Caller) : Option Nat → Caller
  | some n => c n
  | none => limit

/-- Repeating a step more and more often converges to repeating it without bound. -/
theorem converging_iterate {H : Host → Prop} {step : Option Nat → β → Run (β ⊕ α)}
    (hstep : ∀ b, P b → (converging H).Good (fun i => step i b) (Sum.elim P Q)) {b : β}
    (hb : P b) {m : Machine} (hm : H m.host) :
    (∀ n, (Run.iterate (step (some n)) n b m).Approx (Rounds.unbounded.run (step none) b m)) ∧
      ∃ N, ∀ n ≥ N,
        Run.iterate (step (some n)) n b m = Rounds.unbounded.run (step none) b m := by
  have happrox : ∀ n,
      (Run.iterate (step (some n)) n b m).Approx (Rounds.unbounded.run (step none) b m) := by
    intro n
    have hnumbered := (Good.iterate hstep n b hb m hm).1.1 n
    exact hnumbered.trans ((Run.growing_iterate (step none) b).approx_limit n m)
  refine ⟨happrox, ?_⟩
  obtain ⟨K, hK⟩ := (Run.growing_iterate (step none) b).eventually_eq_limit m
  obtain ⟨-, N, hN⟩ := (Good.iterate hstep K b hb m hm).1
  refine ⟨max N K, ?_⟩
  intro n hn
  -- With `n` repetitions the numbered run gets at least as far as with `K`, and no further.
  have hlow := (Run.growing_iterate (step (some n)) b).approx_of_le
    (show K ≤ n by omega) m
  have heq : Run.iterate (step (some n)) K b m = Rounds.unbounded.run (step none) b m :=
    (hN n (by omega)).trans (hK K (Nat.le_refl K))
  exact (happrox n).antisymm (heq ▸ hlow)

/-- Callers converge when their jobs do. -/
theorem converging_numbered {H : Host → Prop} {c : Nat → Caller} {limit : Caller}
    (hc : ∀ n, (c n).rounds = n) (hlimit : limit.rounds = .unbounded)
    (hwork : ∀ (levels : Option Nat → Nat) (job : Job),
      (converging H).Good (fun i => (numbered c limit i).work (levels i) job) fun _ => True) :
    (converging H).Callers (numbered c limit) where
  work levels job _ :=
    (hwork levels job).mono fun _ _ => freeStep_of_forall (fun _ => trivial) _
  rounds {β α step P Q} hstep b hb := by
    have hrun : ∀ i m, (numbered c limit i).rounds.run (step i) b m =
        match i with
        | some n => Run.iterate (step i) n b m
        | none => Rounds.unbounded.run (step i) b m := by
      rintro (_ | n) m
      · show limit.rounds.run _ b m = _
        rw [hlimit]
      · show (c n).rounds.run _ b m = _
        rw [hc]
    intro m hm
    simp only [hrun]
    refine ⟨converging_iterate hstep hb hm, fun i => ?_⟩
    cases i with
    | none => exact Good.sat_rounds hstep (Rounds.unbounded_exceeds 0) hb hm none
    | some n => exact (Good.iterate hstep n b hb m hm).2 (some n)

end Discipline

/-! ### Jobs without levels -/

/-- Does a job with an amount of fuel, however deep it is nested. -/
def performFreely : (fuel : Nat) → Job → Run Step
  | 0 => fun _ => Run.unfinished
  | fuel + 1 => fun job => Caller.perform ⟨fun _ => performFreely fuel, fuel, 0⟩ job

/-- The caller that gives jobs on with an amount of fuel, however deep they are nested. -/
def Caller.free (fuel : Nat) : Caller := ⟨fun _ => performFreely fuel, fuel, 0⟩

/-- With one more unit of fuel jobs get at least as far. -/
theorem growing_performFreely (job : Job) : Run.Growing fun n => performFreely n job := by
  intro n
  induction n generalizing job with
  | zero => exact fun m => .inl rfl
  | succ n ih =>
    have hc : Discipline.approximating.Callers
        (Discipline.pair (Caller.free n) (Caller.free (n + 1))) :=
      Discipline.approximating_pair rfl (Rounds.exceeds_of_le (Nat.le_succ n))
        fun _ _ job m => ih job m
    exact fun m => (hc.perform job trivial m trivial).1

/-- Does a job without bound. -/
noncomputable def denote (job : Job) : Run Step := Run.limit fun n => performFreely n job

/-- The caller that gives jobs on without any bound. -/
noncomputable def Caller.unbounded : Caller := ⟨fun _ => denote, .unbounded, 0⟩

/-- Jobs with fuel approximate jobs without bound. -/
theorem approximating_free_unbounded (n : Nat) :
    Discipline.approximating.Callers (Discipline.pair (Caller.free n) Caller.unbounded) :=
  Discipline.approximating_pair rfl (Rounds.unbounded_exceeds n)
    fun _ _ job m => (growing_performFreely job).approx_limit n m

/-- More and more fuel gets jobs to where they get without bound. -/
theorem converging_free :
    (Discipline.converging fun _ => True).Callers
      (Discipline.numbered Caller.free Caller.unbounded) := by
  refine Discipline.converging_numbered (fun _ => rfl) rfl fun levels job m _ => ?_
  have hgrowing := growing_performFreely job
  exact ⟨⟨fun n => hgrowing.approx_limit n m, hgrowing.eventually_eq_limit m⟩,
    fun _ => Result.sat_of_forall (fun _ => trivial) (fun _ => trivial) _⟩

/-- Without bound, doing a job is a matter of the jobs that it gives on. -/
theorem denote_eq (job : Job) : denote job = Caller.unbounded.perform job := by
  funext m
  obtain ⟨N, hN⟩ := (growing_performFreely job).eventually_eq_limit m
  obtain ⟨-, K, hK⟩ := (converging_free.perform job trivial m trivial).1
  -- Doing the job takes one unit of fuel more than the jobs that it gives on.
  calc denote job m = performFreely (max N K + 1) job m := (hN _ (by omega)).symm
    _ = Caller.unbounded.perform job m := hK (max N K) (by omega)

/-! ### Machines without a limit -/

/-- No limit of nested calls is set. -/
def Host.Unlimited (host : Host) : Prop := host.limits.calls = none

/-- No limit of nested calls is set. -/
def Machine.Unlimited (m : Machine) : Prop := m.host.Unlimited

/-- A machine as a session starts with: no files, no prelude and no limit of nested calls. -/
def Machine.bare : Machine :=
  Session.machine
    { files := ⟨[], []⟩, clock := fun _ => 0, journal := .unset,
      limits := ⟨none, Limits.leastSteps⟩ } .ended []

/-- Where no limit is set, a job is done in the same way at every level. -/
theorem perform_succ_of_unlimited {m : Machine} (hm : m.Unlimited) (n level : Nat) (job : Job) :
    perform (n + 1) level job m = Caller.perform ⟨perform n, n, level⟩ job m := by
  have hallows : m.host.limits.allows level = true := by
    have hnone : m.host.limits.calls = none := hm
    simp [Limits.allows, hnone]
  exact perform_succ_of_allows hallows n job

open Discipline in
/-- Where no limit is set, levels do not matter. -/
theorem agreeing_perform (n level : Nat) :
    (agreeing Host.Unlimited).Callers (pair ⟨perform n, n, level⟩ (Caller.free n)) := by
  induction n generalizing level with
  | zero =>
    refine agreeing_pair rfl rfl fun levels job m _ => ⟨rfl, fun i => ?_⟩
    cases i <;> trivial
  | succ n ih =>
    refine agreeing_pair rfl rfl ?_
    intro levels job m hm
    obtain ⟨hrel, hsat⟩ := (ih (levels false)).perform job trivial m hm
    have hstep := perform_succ_of_unlimited hm n (levels false) job
    refine ⟨hstep.trans hrel, ?_⟩
    intro i
    cases i with
    | false =>
      show (perform (n + 1) (levels false) job m).Sat _ _
      rw [hstep]
      exact (hsat false).mono (fun _ => id) fun _ _ => trivial
    | true => exact (hsat true).mono (fun _ => id) fun _ _ => trivial

/-- The host is never changed. -/
theorem perform_sat {m : Machine} (hm : m.Unlimited) (n level : Nat) (job : Job) :
    (perform n level job m).Sat Machine.Unlimited fun _ => True :=
  ((agreeing_perform n level).work (fun _ => level) job trivial m hm).2 false |>.mono
    (fun _ => id) fun _ _ => trivial

open Discipline in
/-- Nor does it matter from which level jobs are given on. -/
theorem agreeing_onLevel (n level level' : Nat) :
    (agreeing Host.Unlimited).Callers (pair ⟨perform n, n, level⟩ ⟨perform n, n, level'⟩) := by
  refine agreeing_pair rfl rfl ?_
  intro levels job m hm
  -- At both levels the job is done as it is without levels.
  have heq : ∀ level, perform n level job m = performFreely n job m := fun level =>
    ((agreeing_perform n 0).work (fun _ => level) job trivial m hm).1
  constructor
  · show perform n (levels false) job m = perform n (levels true) job m
    rw [heq, heq]
  · rintro (_ | _)
    · exact perform_sat hm n _ job
    · exact perform_sat hm n _ job

/-- Where no limit is set, more and more fuel gets jobs to where they get without bound. -/
theorem converging_outermost :
    (Discipline.converging Host.Unlimited).Callers
      (Discipline.numbered outermost Caller.unbounded) := by
  refine Discipline.converging_numbered (fun _ => rfl) rfl ?_
  intro levels job m hm
  have hgrowing := growing_performFreely job
  -- The levels may be different ones for each amount of fuel, but they do not matter.
  have heq : ∀ n, perform n (levels (some n)) job m = performFreely n job m := fun n =>
    ((agreeing_perform n 0).work (fun _ => levels (some n)) job trivial m hm).1
  obtain ⟨N, hN⟩ := hgrowing.eventually_eq_limit m
  refine ⟨⟨?_, N, ?_⟩, ?_⟩
  · intro n
    show (perform n (levels (some n)) job m).Approx (denote job m)
    rw [heq]
    exact hgrowing.approx_limit n m
  · intro n hn
    show perform n (levels (some n)) job m = denote job m
    rw [heq]
    exact hN n hn
  · intro i
    cases i with
    | some n => exact perform_sat hm n _ job
    | none =>
      show (denote job m).Sat _ _
      rw [denote, ← hN N (Nat.le_refl N), ← heq]
      exact perform_sat hm N _ job

/-- Forms of a text are evaluated one after another, so that keeps what evaluation keeps. -/
theorem Discipline.Callers.evalEach {D : Discipline ι} {c : ι → Caller} (hc : D.Callers c)
    (hroot : D.Free Session.root) (forms : List Value) :
    D.Good (fun i => Session.evalEach (c i) forms) fun _ => True := by
  induction forms with
  | nil => exact .pure trivial
  | cons form forms ih =>
    apply (Good.of_still (.number form)).bind
    intro numbered _
    apply (hc.complete hroot numbered).bind
    intro v _
    exact ih.map _ fun _ _ => trivial

/-- What converges comes to an end in the same ways. -/
theorem exists_fuel_iff {x : Option Nat → Run α} {Q : α → Prop}
    (hx : (Discipline.converging Host.Unlimited).Good x Q) {m : Machine} (hm : m.Unlimited)
    {r : Result α} (hr : r.Ended) : (∃ fuel, x (some fuel) m = r) ↔ x none m = r := by
  obtain ⟨happrox, N, hN⟩ := (hx m hm).1
  constructor
  · -- What has come to an end is not changed by more fuel.
    rintro ⟨fuel, rfl⟩
    exact ((happrox fuel).eq_of_ended hr).symm
  · rintro rfl
    exact ⟨N, hN N (Nat.le_refl N)⟩

/-- With enough fuel a form evaluates to what it evaluates to without bound. -/
theorem evaluate_iff {m : Machine} (hm : m.Unlimited) (form : Value) (frame : FrameId)
    {r : Result Value} (hr : r.Ended) :
    (∃ fuel, evaluate fuel form frame m = r) ↔ Caller.unbounded.complete form frame m = r :=
  exists_fuel_iff (converging_outermost.complete trivial form) hm hr

/-! ### The unbounded caller -/

namespace Caller

@[simp] theorem settle_value (v : Value) : unbounded.settle (.value v) = pure v :=
  Rounds.unbounded_run unbounded.settleOnce (.value v)

theorem settle_tailCall (body : Value) (frame : FrameId) :
    unbounded.settle (.tailCall body frame) = unbounded.complete body frame := by
  refine (Rounds.unbounded_run unbounded.settleOnce (.tailCall body frame)).trans ?_
  simp only [settleOnce, bind_assoc, pure_bind]
  rfl

end Caller

end AtomLisp
