import AtomLisp.Proofs.Conduct
import AtomLisp.Proofs.Handlers

/-! # Macro expansion

  A form is expanded until it is no macro call, as the machine then stands: macros may change what
  symbols mean while they expand. Evaluating the form is expanding it and evaluating what came of
  it.

  * `Machine.IsMacroCall`: a symbol in front of the form means a macro;
  * `Caller.expand_done`: what comes of expansion is no macro call, where expansion has led to;
  * `Caller.eval_eq_expand`: a caller evaluates a form by expanding it first;
  * `expandFully`: what a form is expanded to before it is evaluated;
  * `evaluate_expandFully`: expansion comes to a fixed point, and evaluation factors through it.
-/

namespace AtomLisp

variable {m n : Machine} {form r : Value} {frame : FrameId}

/-! ### Macro calls -/

/-- The form is a list with a symbol in front, and the innermost frame that binds the symbol binds
it to a macro. -/
def Machine.IsMacroCall (m : Machine) (form : Value) (frame : FrameId) : Prop :=
  ∃ (serial : Serial) (name : String) (args : List Value) (v : Value),
    form = .list serial (.symbol name :: args) ∧ m.frames.lookup? name frame = some v ∧
      v.isMacro = true

theorem Machine.macroCall?_eq_none_iff :
    m.macroCall? form frame = none ↔ ¬ m.IsMacroCall form frame := by
  constructor
  · rintro hnone ⟨serial, name, args, v, rfl, hlookup, hmacro⟩
    cases v with
    | closure serial params body home isMacro =>
      cases hmacro
      simp only [macroCall?, hlookup] at hnone
      cases hnone
    | _ => cases hmacro
  · intro hcall
    unfold macroCall?
    split
    · next serial name args =>
      split
      · next serial' params body home hlookup =>
        exact absurd ⟨serial, name, args, _, rfl, hlookup, rfl⟩ hcall
      · rfl
    · rfl

namespace Caller

variable {c : Caller}

/-! ### Expansion -/

theorem expandNext_of_some {call : MacroCall} (h : m.macroCall? form frame = some call) :
    c.expandNext frame form m = (Sum.inl <$> c.expandCall call : Run (Value ⊕ Value)) m := by
  unfold expandNext
  simp only [Run.bind_apply, Run.get, h, map_eq_pure_bind]

/-- A macro call takes one round, and its expansion the others. -/
theorem iterate_expandNext_of_some {call : MacroCall} (h : m.macroCall? form frame = some call)
    (rounds : Nat) :
    Run.iterate (c.expandNext frame) (rounds + 1) form m =
      (c.expandCall call >>= Run.iterate (c.expandNext frame) rounds) m := by
  rw [Run.iterate_succ, Run.bind_congr_at (expandNext_of_some h), map_eq_pure_bind, bind_assoc]
  rfl

/-- Expansion ends with a form that is no macro call, as the machine then stands. -/
theorem expand_done {rounds : Nat} (h : c.expand frame rounds form m = .done r n) :
    0 < rounds ∧ n.macroCall? r frame = none := by
  have hiterate : Run.iterate (c.expandNext frame) rounds form m = .done r n := h
  clear h
  -- Only a round in which the form is no macro call is the last one.
  induction rounds generalizing form m with
  | zero => cases hiterate
  | succ rounds ih =>
    refine ⟨Nat.succ_pos rounds, ?_⟩
    cases hcall : m.macroCall? form frame with
    | none =>
      have hdone := expand_succ_of_none c hcall rounds
      cases hdone.symm.trans hiterate
      exact hcall
    | some call =>
      rw [iterate_expandNext_of_some hcall, Run.bind_apply] at hiterate
      cases hexpansion : c.expandCall call m with
      | done form' m' =>
        rw [hexpansion] at hiterate
        exact (ih hiterate).2
      | failed | unfinished =>
        rw [hexpansion] at hiterate
        cases hiterate

/-- A caller evaluates a form by expanding it, and then evaluating what came of that. -/
theorem eval_eq_expand {rounds : Nat} (hrounds : c.rounds = (rounds : Nat)) (tail : Bool)
    (form : Value) (frame : FrameId) :
    c.eval tail form frame =
      c.expand frame c.rounds form >>= fun r => c.eval tail r frame := by
  funext m
  rw [eval, Run.bind_apply, Run.bind_apply]
  cases hexpand : c.expand frame c.rounds form m with
  | done r n =>
    -- When the form is looked at again, on the machine as it is now, it is no macro call.
    rw [hrounds] at hexpand
    obtain ⟨hpos, hcall⟩ := expand_done hexpand
    obtain ⟨k, rfl⟩ := Nat.exists_eq_add_of_le' hpos
    exact (eval_of_none hrounds hcall tail).symm
  | failed e n => rfl
  | unfinished => rfl

end Caller

/-! ### Evaluation -/

/-- What a form is expanded to before it is evaluated. The expansion runs at the level at which
`evaluate` does its own; the special form `macroexpand`, and forms inside of others, are expanded at
levels of theirs, which makes a difference only close to the limit of nested calls. -/
def expandFully (fuel : Nat) (form : Value) (frame : FrameId) : Run Value :=
  (⟨perform fuel, fuel, Steps.body⟩ : Caller).expand frame fuel form

/-- Expansion leaves the host as it is. -/
theorem host_of_expandFully {fuel : Nat} (h : expandFully fuel form frame m = .done r n) :
    n.host = m.host := by
  have hc : Caller.Regular ⟨perform fuel, fuel, Steps.body⟩ :=
    ⟨regular_perform fuel, fun h => .iterate h fuel⟩
  exact ((hc.expand frame form).follows h).host

theorem evaluate_succ (hm : m.host.limits.allows Steps.body = true) (fuel : Nat) (form : Value)
    (frame : FrameId) :
    evaluate (fuel + 1) form frame m =
      ((⟨perform fuel, fuel, Steps.body⟩ : Caller).eval true form frame >>=
        (outermost (fuel + 1)).settle) m :=
  Run.bind_congr_at (perform_succ_of_allows hm fuel (.eval true form frame)) _

/-- To evaluate a form is to expand it, and to evaluate what came of that. -/
theorem evaluate_eq_expandFully (hm : m.host.limits.allows Steps.body = true) (fuel : Nat)
    (form : Value) (frame : FrameId) :
    evaluate (fuel + 1) form frame m =
      (expandFully fuel form frame >>= fun r => evaluate (fuel + 1) r frame) m := by
  rw [evaluate_succ hm, Caller.eval_eq_expand rfl, bind_assoc]
  show (expandFully fuel form frame >>= _) m = _
  rw [Run.bind_apply, Run.bind_apply]
  cases hexpand : expandFully fuel form frame m with
  | done r n =>
    rw [← host_of_expandFully hexpand] at hm
    exact (evaluate_succ hm fuel r frame).symm
  | failed e n => rfl
  | unfinished => rfl

/-- The value of a step that is one is settled in one round. -/
theorem Caller.settle_value_of_rounds {c : Caller} {rounds : Nat}
    (hrounds : c.rounds = (rounds + 1 : Nat)) (v : Value) : c.settle (.value v) = pure v := by
  unfold settle
  rw [hrounds]
  rfl

section

variable {level : Nat} {name : String} {v : Value}

/-- A symbol comes to its value wherever it stands. -/
theorem perform_symbol (hv : m.frames.lookup? name frame = some v)
    (hallows : m.host.limits.allows level = true) (fuel : Nat) (tail : Bool) :
    perform (fuel + 2) level (.eval tail (.symbol name) frame) m = .done (.value v) m := by
  rw [perform_succ_of_allows hallows]
  show Caller.eval _ tail (.symbol name) frame m = _
  rw [Caller.eval_of_none rfl rfl]
  simp only [Caller.evalForm, Run.bind_apply, Run.get, hv]
  rfl

theorem finish_symbol (hv : m.frames.lookup? name frame = some v) (steps : Nat)
    (hallows : m.host.limits.allows (level + steps) = true) (fuel : Nat) (tail : Bool) :
    (⟨perform (fuel + 2), (fuel + 2 : Nat), level⟩ : Caller).finish steps
      (.eval tail (.symbol name) frame) m = .done v m := by
  let c : Caller := ⟨perform (fuel + 2), (fuel + 2 : Nat), level⟩
  have hrounds : c.rounds = (fuel + 1 + 1 : Nat) := rfl
  show (perform (fuel + 2) (level + steps) (.eval tail (.symbol name) frame) >>= c.settle) m = _
  rw [Run.bind_apply, perform_symbol hv hallows fuel tail]
  exact congrFun (Caller.settle_value_of_rounds hrounds v) m

end

/-! ### Without a limit of nested calls -/

namespace Discipline

/-- Levels do not matter for a family of callers. -/
theorem Callers.of_eq {ι : Type} {D : Discipline ι} {c c' : ι → Caller} (hc : D.Callers c)
    (hwork : ∀ i, (c' i).work = (c i).work) (hrounds : ∀ i, (c' i).rounds = (c i).rounds) :
    D.Callers c' where
  work := by
    simp only [hwork]
    exact hc.work
  rounds := by
    simp only [hrounds]
    exact hc.rounds

/-- What converges and has ended ends in the same way from some number on. -/
theorem eventually_of_ended {α : Type} {x : Option Nat → Run α} {Q : α → Prop}
    (hx : (converging Host.Unlimited).Good x Q) (hm : m.Unlimited) {fuel : Nat} {s : Result α}
    (h : x (some fuel) m = s) (hs : s.Ended) : ∃ N, ∀ k ≥ N, x (some k) m = s := by
  obtain ⟨happrox, N, hN⟩ := (hx m hm).1
  have hlimit : s = x none m := by
    rw [← h] at hs ⊢
    exact (happrox fuel).eq_of_ended hs
  exact ⟨N, fun k hk => (hN k hk).trans hlimit.symm⟩

end Discipline

/-- More fuel does not change an expansion that has ended. -/
theorem eventually_expandFully (hm : m.Unlimited) {fuel : Nat} {s : Result Value}
    (h : expandFully fuel form frame m = s) (hs : s.Ended) :
    ∃ N, ∀ k ≥ N, expandFully k form frame m = s := by
  have hc : (Discipline.converging Host.Unlimited).Callers
      (Discipline.numbered (fun k => ⟨perform k, k, Steps.body⟩) Caller.unbounded) := by
    refine converging_outermost.of_eq ?_ ?_
    all_goals rintro (_ | k) <;> rfl
  exact Discipline.eventually_of_ended (hc.expand frame form) hm h hs

/-- More fuel does not change an evaluation that has ended. -/
theorem eventually_evaluate (hm : m.Unlimited) {fuel : Nat} {s : Result Value}
    (h : evaluate fuel form frame m = s) (hs : s.Ended) :
    ∃ N, ∀ k ≥ N, evaluate k form frame m = s :=
  Discipline.eventually_of_ended (converging_outermost.complete trivial form) hm h hs

theorem allows_of_unlimited (hm : m.Unlimited) (level : Nat) :
    m.host.limits.allows level = true := by
  have hnone : m.host.limits.calls = none := hm
  simp [Limits.allows, hnone]

/-- Where no limit is set, expansion and evaluation may be given fuel of their own. -/
theorem exists_evaluate_iff (hm : m.Unlimited) (form : Value) (frame : FrameId)
    {s : Result Value} (hs : s.Ended) :
    (∃ fuel, evaluate fuel form frame m = s) ↔
      (∃ fuel r n, expandFully fuel form frame m = .done r n ∧
        ∃ fuel', evaluate fuel' r frame n = s) ∨
      ∃ fuel e n, expandFully fuel form frame m = .failed e n ∧ s = .failed e n := by
  have hallows := allows_of_unlimited hm Steps.body
  constructor
  · rintro ⟨fuel, heval⟩
    cases fuel with
    | zero =>
      subst heval
      exact hs.elim
    | succ fuel =>
      rw [evaluate_eq_expandFully hallows, Run.bind_apply] at heval
      cases hexpand : expandFully fuel form frame m with
      | done r n =>
        rw [hexpand] at heval
        exact .inl ⟨fuel, r, n, hexpand, fuel + 1, heval⟩
      | failed e n =>
        rw [hexpand] at heval
        exact .inr ⟨fuel, e, n, hexpand, heval.symm⟩
      | unfinished =>
        rw [hexpand] at heval
        subst heval
        exact hs.elim
  · rintro (⟨fuel, r, n, hexpand, fuel', heval⟩ | ⟨fuel, e, n, hexpand, rfl⟩)
    · have hn : n.Unlimited := by
        rw [Machine.Unlimited, host_of_expandFully hexpand]
        exact hm
      obtain ⟨N, hN⟩ := eventually_expandFully hm hexpand trivial
      obtain ⟨K, hK⟩ := eventually_evaluate hn heval hs
      -- One amount of fuel is enough for both.
      refine ⟨max N K + 1, ?_⟩
      rw [evaluate_eq_expandFully hallows, Run.bind_apply, hN _ (Nat.le_max_left N K)]
      exact hK _ (Nat.le_succ_of_le (Nat.le_max_right N K))
    · refine ⟨fuel + 1, ?_⟩
      rw [evaluate_eq_expandFully hallows, Run.bind_apply, hexpand]

/-! ### Expansion in front of evaluation -/

/-- **Macro expansion comes to a fixed point, and evaluation factors through it.** If a form is
expanded, then what comes of it is no macro call, as the machine stands after the expansion; to
expand it again changes nothing; and evaluating the form is evaluating what came of it, on the
machine that expansion has left. Where expansion fails, evaluation fails with the same error, and
leaves the same machine. -/
theorem evaluate_expandFully (form : Value) (frame : FrameId) (m : Machine)
    (hm : m.host.limits.allows Steps.body = true) :
    (∀ fuel r n, expandFully fuel form frame m = .done r n →
      ¬ n.IsMacroCall r frame ∧ (∀ more, expandFully (more + 1) r frame n = .done r n) ∧
      evaluate (fuel + 1) form frame m = evaluate (fuel + 1) r frame n) ∧
    (∀ fuel e n, expandFully fuel form frame m = .failed e n →
      evaluate (fuel + 1) form frame m = .failed e n) ∧
    (∀ fuel, expandFully fuel form frame m = .unfinished →
      evaluate (fuel + 1) form frame m = .unfinished) ∧
    (m.Unlimited → ∀ s : Result Value, s.Ended →
      ((∃ fuel, evaluate fuel form frame m = s) ↔
        (∃ fuel r n, expandFully fuel form frame m = .done r n ∧
          ∃ fuel', evaluate fuel' r frame n = s) ∨
        ∃ fuel e n, expandFully fuel form frame m = .failed e n ∧ s = .failed e n)) := by
  refine ⟨?_, ?_, ?_, fun hunlimited s hs => exists_evaluate_iff hunlimited form frame hs⟩
  · intro fuel r n hexpand
    obtain ⟨-, hcall⟩ := Caller.expand_done hexpand
    refine ⟨Machine.macroCall?_eq_none_iff.1 hcall, fun more => ?_, ?_⟩
    · exact Caller.expand_succ_of_none _ hcall more
    · rw [evaluate_eq_expandFully hm, Run.bind_apply, hexpand]
  · intro fuel e n hexpand
    rw [evaluate_eq_expandFully hm, Run.bind_apply, hexpand]
  · intro fuel hexpand
    rw [evaluate_eq_expandFully hm, Run.bind_apply, hexpand]

/-- A machine whose macro `twice` makes itself a function while it expands. -/
def Machine.fickle : Machine :=
  let forget := .form [.symbol "eval", .form [.symbol "quote",
    .form [.symbol "def!", .symbol "twice", .symbol "list"]]]
  let answer := .form [.symbol "list", .form [.symbol "quote", .symbol "twice"], .symbol "x",
    .symbol "x"]
  Machine.bare.define Session.root "twice"
    (.closure 1 ["x"] (.form [.symbol "do", forget, answer]) Session.root true)

/-- Its call expands to a form with the same symbol in front, which is no macro call any more. -/
theorem evaluate_fickle :
    let form : Value := .form [.symbol "twice", .int 7]
    Machine.fickle.host.limits.allows Steps.body = true ∧
      Machine.fickle.IsMacroCall form Session.root ∧
      ∃ r n, expandFully 9 form Session.root Machine.fickle = .done r n ∧
        ¬ n.IsMacroCall r Session.root ∧
        evaluate 10 form Session.root Machine.fickle = evaluate 10 r Session.root n ∧
        (evaluate 10 r Session.root n).value? = some (.list 2 [.int 7, .int 7]) := by
  intro form
  have hallows : Machine.fickle.host.limits.allows Steps.body = true := rfl
  have hmacro : Machine.fickle.IsMacroCall form Session.root := by
    have hlookup : (Machine.fickle.frames.lookup? "twice" Session.root).map Value.isMacro =
        some true := by decide +kernel
    obtain ⟨v, hv, hv'⟩ := Option.map_eq_some_iff.1 hlookup
    exact ⟨0, "twice", [.int 7], v, rfl, hv, hv'⟩
  have hexpansion : (expandFully 9 form Session.root Machine.fickle).value? =
      some (.list 1 [.symbol "twice", .int 7, .int 7]) := by decide +kernel
  have hvalue : (evaluate 10 form Session.root Machine.fickle).value? =
      some (.list 2 [.int 7, .int 7]) := by decide +kernel
  obtain ⟨n, hexpand⟩ := Result.exists_of_value? hexpansion
  obtain ⟨hfixed, -, heval⟩ := (evaluate_expandFully form Session.root _ hallows).1 9 _ n hexpand
  exact ⟨hallows, hmacro, _, n, hexpand, hfixed, heval, heval ▸ hvalue⟩

end AtomLisp
