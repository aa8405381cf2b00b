import AtomLisp.Proofs.MacroExpansion
import Mathlib.Data.List.Induction

/-! # The shapes of special forms

  A special form checks the shape of its parts by itself. `WellFormed` says which shapes there are,
  `Refuses` which mistakes are seen before any part is evaluated, and how they are reported. There
  is one mistake that is seen later: `let*` looks at each name when its turn comes, so the forms of
  the names before it have been evaluated by then.

  * `SpecialForm.not_wellFormed_iff`: what is not well formed is refused, at once or late;
  * `SpecialForm.Refuses.eval`: what is refused at once is refused in the same way whoever asks for
    it, so nothing has been evaluated;
  * `SpecialForm.StraysLate.eval`: what `let*` has done when it refuses a name late;
  * `evaluate_malformed`: both, for evaluation as a whole.
-/

namespace AtomLisp

/-! ### Well-formed special forms -/

/-- The value can be a name. -/
def Value.IsSymbol (v : Value) : Prop := ∃ name, v = .symbol name

theorem Value.not_isSymbol_int (i : Int) : ¬ (Value.int i).IsSymbol := by
  rintro ⟨name, h⟩
  cases h

namespace SpecialForm

/-- Names in turn with forms. -/
inductive NamesAndForms : List Value → Prop
  | nil : NamesAndForms []
  | cons (name : String) (form : Value) {rest : List Value} :
    NamesAndForms rest → NamesAndForms (.symbol name :: form :: rest)

/-- The clause of a handler, `(catch* name handler)`. -/
def IsClause (v : Value) : Prop :=
  ∃ serial name handler, v = .list serial [.symbol "catch*", .symbol name, handler]

/-- The special forms that have one part. -/
def takesOne : SpecialForm → Bool
  | quote | quasiquote | quasiquoteExpand | expandMacro => true
  | _ => false

/-- The parts that a special form may have. -/
inductive WellFormed : SpecialForm → List Value → Prop
  | define (name : String) (form : Value) : WellFormed define [.symbol name, form]
  | defineMacro (name : String) (form : Value) : WellFormed defineMacro [.symbol name, form]
  | letStar {bindings : Value} {items : List Value} (forms : List Value) :
    bindings.items? = some items → NamesAndForms items → WellFormed letStar (bindings :: forms)
  | sequence (forms : List Value) : WellFormed sequence forms
  | oneBranch (condition yes : Value) : WellFormed conditional [condition, yes]
  | twoBranches (condition yes no : Value) : WellFormed conditional [condition, yes, no]
  | function {params : Value} {items : List Value} (forms : List Value) :
    params.items? = some items → (∀ param ∈ items, param.IsSymbol) →
    WellFormed function (params :: forms)
  | one {special : SpecialForm} (v : Value) : special.takesOne = true → WellFormed special [v]
  | handle (form : Value) : WellFormed handle [form]
  | handleClause (form : Value) {clause : Value} : IsClause clause →
    WellFormed handle [form, clause]

/-! ### Refusals -/

/-- How a special form is refused. -/
inductive Refusal where
  | misuse (callee : String) (why : Misuse)
  /-- What stands where a name should is shown. -/
  | stray (callee : String) (why : String → Misuse) (v : Value)

/-- The error on a machine. Of a stray value that has no inspected form, there is only the error of
showing it. -/
def Refusal.error (m : Machine) : Refusal → Error
  | misuse callee why => .invalidArguments callee why
  | stray callee why v =>
    match m.inspect v with
    | .ok shown => .invalidArguments callee (why shown)
    | .error e => e

/-- Stops with the error. -/
def Refusal.refuse {α : Type} : Refusal → Run α
  | misuse callee why => Run.fail (.invalidArguments callee why)
  | stray callee why v => do
    Run.fail (.invalidArguments callee (why (← Run.read (·.inspect v))))

theorem Refusal.refuse_apply {α : Type} (refusal : Refusal) (m : Machine) :
    (refusal.refuse : Run α) m = .failed (refusal.error m) m := by
  cases refusal with
  | misuse callee why => rfl
  | stray callee why v =>
    simp only [refuse, error, Run.bind_apply, Run.read]
    cases m.inspect v <;> rfl

theorem Refusal.refuse_bind {α β : Type} (refusal : Refusal) (f : α → Run β) :
    refusal.refuse >>= f = refusal.refuse := by
  funext m
  simp only [Run.bind_apply, refuse_apply]

/-- Mistakes that are seen before any part is evaluated. -/
inductive Refuses : SpecialForm → List Value → Refusal → Prop
  | defineCount {parts : List Value} : parts.length ≠ 2 →
    Refuses define parts (.misuse "def!" .nameAndValue)
  | defineName {v : Value} (form : Value) : ¬ v.IsSymbol →
    Refuses define [v, form] (.stray "def!" .bound v)
  | macroCount {parts : List Value} : parts.length ≠ 2 →
    Refuses defineMacro parts (.misuse "defmacro!" .nameAndFunction)
  | macroName {v : Value} (form : Value) : ¬ v.IsSymbol →
    Refuses defineMacro [v, form] (.stray "defmacro!" .bound v)
  | noBindings : Refuses letStar [] (.misuse "let*" .bindingList)
  | bindingList {bindings : Value} (forms : List Value) : bindings.items? = none →
    Refuses letStar (bindings :: forms) (.misuse "let*" .bindingList)
  | bindingPairs {bindings : Value} {items : List Value} (forms : List Value) :
    bindings.items? = some items → items.length % 2 ≠ 0 →
    Refuses letStar (bindings :: forms) (.misuse "let*" .bindingPairs)
  | firstName {bindings v form : Value} {rest : List Value} (forms : List Value) :
    bindings.items? = some (v :: form :: rest) → rest.length % 2 = 0 → ¬ v.IsSymbol →
    Refuses letStar (bindings :: forms) (.stray "let*" .bound v)
  | branchCount {parts : List Value} : parts.length ≠ 2 → parts.length ≠ 3 →
    Refuses conditional parts (.misuse "if" .conditional)
  | noParameters : Refuses function [] (.misuse "fn*" .parameterList)
  | parameterList {params : Value} (forms : List Value) : params.items? = none →
    Refuses function (params :: forms) (.misuse "fn*" .parameterList)
  | parameter {params v : Value} {before rest : List Value} (forms : List Value) :
    params.items? = some (before ++ v :: rest) → (∀ param ∈ before, param.IsSymbol) →
    ¬ v.IsSymbol → Refuses function (params :: forms) (.stray "fn*" .parameter v)
  | oneCount {special : SpecialForm} {parts : List Value} : special.takesOne = true →
    parts.length ≠ 1 → Refuses special parts (.misuse special.name .oneArgument)
  | handleCount {parts : List Value} : parts.length ≠ 1 → parts.length ≠ 2 →
    Refuses handle parts (.misuse "try*" .bodyAndClause)
  | clause {clause : Value} (form : Value) : ¬ IsClause clause →
    Refuses handle [form, clause] (.misuse "catch*" .clause)

/-- The mistake that is seen late: behind the pairs `before`, something else than a name is to be
bound by `let*`. -/
structure StraysLate (parts before : List Value) (v : Value) : Prop where
  /-- The binding list is a list of pairs. -/
  binds  : ∃ bindings forms form rest, parts = bindings :: forms ∧
    bindings.items? = some (before ++ v :: form :: rest) ∧ rest.length % 2 = 0
  pairs  : NamesAndForms before
  later  : before ≠ []
  stray  : ¬ v.IsSymbol

/-! ### Where names should stand -/

theorem NamesAndForms.length_even {items : List Value} (h : NamesAndForms items) :
    items.length % 2 = 0 := by
  induction h with
  | nil => rfl
  | cons name form _ ih => rw [List.length_cons, List.length_cons]; omega

/-- The first name that is none ends the names and forms. -/
theorem NamesAndForms.not_append {before : List Value} (h : NamesAndForms before) {v : Value}
    (hv : ¬ v.IsSymbol) (rest : List Value) : ¬ NamesAndForms (before ++ v :: rest) := by
  induction h with
  | nil =>
    rintro (_ | ⟨name, form, _⟩)
    exact hv ⟨name, rfl⟩
  | cons name form _ ih =>
    rintro (_ | ⟨_, _, hrest⟩)
    exact ih hrest

/-- Pairs are names and forms, or there is a first name that is none. -/
theorem exists_stray_name {items : List Value} (heven : items.length % 2 = 0)
    (hnot : ¬ NamesAndForms items) :
    ∃ before v form rest, items = before ++ v :: form :: rest ∧ rest.length % 2 = 0 ∧
      NamesAndForms before ∧ ¬ v.IsSymbol := by
  induction items using List.twoStepInduction with
  | nil => exact absurd .nil hnot
  | singleton x => cases heven
  | cons_cons v form rest ih _ =>
    have hrest : rest.length % 2 = 0 := by
      rw [List.length_cons, List.length_cons] at heven
      omega
    by_cases hv : v.IsSymbol
    · -- A pair that is in order leaves the mistake to the pairs after it.
      obtain ⟨name, rfl⟩ := hv
      obtain ⟨before, w, form', rest', rfl, hrest', hbefore, hw⟩ :=
        ih hrest fun h => hnot (.cons name form h)
      exact ⟨.symbol name :: form :: before, w, form', rest', rfl, hrest', .cons name form hbefore,
        hw⟩
    · exact ⟨[], v, form, rest, rfl, hrest, .nil, hv⟩

/-- Parameters are names, or there is a first one that is none. -/
theorem exists_stray_parameter {items : List Value} (hnot : ¬ ∀ param ∈ items, param.IsSymbol) :
    ∃ before v rest, items = before ++ v :: rest ∧ (∀ param ∈ before, param.IsSymbol) ∧
      ¬ v.IsSymbol := by
  induction items with
  | nil => exact absurd (fun _ h => absurd h List.not_mem_nil) hnot
  | cons v rest ih =>
    by_cases hv : v.IsSymbol
    · obtain ⟨before, w, rest', rfl, hbefore, hw⟩ :=
        ih fun h => hnot (List.forall_mem_cons.2 ⟨hv, h⟩)
      exact ⟨v :: before, w, rest', rfl, List.forall_mem_cons.2 ⟨hv, hbefore⟩, hw⟩
    · exact ⟨[], v, rest, rfl, fun _ h => absurd h List.not_mem_nil, hv⟩

/-- A name and a form, something else and a form, or not two parts. -/
theorem nameAndForm_cases (parts : List Value) :
    (∃ name form, parts = [.symbol name, form]) ∨
      (∃ v form, parts = [v, form] ∧ ¬ v.IsSymbol) ∨ parts.length ≠ 2 := by
  by_cases htwo : parts.length = 2
  · obtain ⟨v, form, rfl⟩ := List.length_eq_two.1 htwo
    by_cases hv : v.IsSymbol
    · obtain ⟨name, rfl⟩ := hv
      exact .inl ⟨name, form, rfl⟩
    · exact .inr (.inl ⟨v, form, rfl, hv⟩)
  · exact .inr (.inr htwo)

theorem clause?_eq_none_iff {v : Value} : clause? v = none ↔ ¬ IsClause v := by
  constructor
  · rintro hnone ⟨serial, name, handler, rfl⟩
    cases hnone
  · intro hnot
    unfold clause?
    split
    · next serial keyword name handler =>
      rw [if_neg]
      rintro rfl
      exact hnot ⟨serial, name, handler, rfl⟩
    · rfl

/-! ### Every mistake is seen -/

/-- What is refused at once is not well formed. -/
theorem Refuses.not_wellFormed {special : SpecialForm} {parts : List Value} {refusal : Refusal}
    (h : Refuses special parts refusal) : ¬ WellFormed special parts := by
  intro hshape
  cases h with
  | defineCount hcount =>
    cases hshape with
    | define => exact hcount rfl
    | one _ hone => cases hone
  | defineName form hv =>
    cases hshape with
    | define name => exact hv ⟨name, rfl⟩
  | macroCount hcount =>
    cases hshape with
    | defineMacro => exact hcount rfl
    | one _ hone => cases hone
  | macroName form hv =>
    cases hshape with
    | defineMacro name => exact hv ⟨name, rfl⟩
  | noBindings => cases hshape
  | bindingList forms hnone =>
    cases hshape with
    | letStar _ hitems => cases hnone.symm.trans hitems
    | one _ hone => cases hone
  | bindingPairs forms hitems hodd =>
    cases hshape with
    | letStar _ hitems' hpairs =>
      cases hitems.symm.trans hitems'
      exact hodd hpairs.length_even
    | one _ hone => cases hone
  | firstName forms hitems _ hv =>
    cases hshape with
    | letStar _ hitems' hpairs =>
      cases hitems.symm.trans hitems'
      exact NamesAndForms.nil.not_append hv _ hpairs
    | one _ hone => cases hone
  | branchCount htwo hthree =>
    cases hshape with
    | oneBranch => exact htwo rfl
    | twoBranches => exact hthree rfl
    | one _ hone => cases hone
  | noParameters => cases hshape
  | parameterList forms hnone =>
    cases hshape with
    | function _ hitems => cases hnone.symm.trans hitems
    | one _ hone => cases hone
  | parameter forms hitems _ hv =>
    cases hshape with
    | function _ hitems' hnames =>
      cases hitems.symm.trans hitems'
      exact hv (hnames _ (List.mem_append_cons_self))
    | one _ hone => cases hone
  | oneCount hone hcount =>
    cases hshape with
    | one => exact hcount rfl
    | _ => cases hone
  | handleCount hcount htwo =>
    cases hshape with
    | handle => exact hcount rfl
    | handleClause => exact htwo rfl
    | one _ hone => cases hone
  | clause form hclause =>
    cases hshape with
    | handleClause _ hclause' => exact hclause hclause'

/-- What is refused late is not well formed. -/
theorem StraysLate.not_wellFormed {parts before : List Value} {v : Value}
    (h : StraysLate parts before v) : ¬ WellFormed letStar parts := by
  obtain ⟨⟨bindings, forms, form, rest, rfl, hitems, _⟩, hbefore, -, hv⟩ := h
  intro hshape
  cases hshape with
  | letStar _ hitems' hpairs =>
    cases hitems.symm.trans hitems'
    exact hbefore.not_append hv _ hpairs
  | one _ hone => cases hone

theorem exists_refusal_letStar {parts : List Value} (h : ¬ WellFormed letStar parts) :
    (∃ refusal, Refuses letStar parts refusal) ∨ ∃ before v, StraysLate parts before v := by
  cases parts with
  | nil => exact .inl ⟨_, .noBindings⟩
  | cons bindings forms =>
    cases hitems : bindings.items? with
    | none => exact .inl ⟨_, .bindingList forms hitems⟩
    | some items =>
      by_cases heven : items.length % 2 = 0
      · obtain ⟨before, v, form, rest, rfl, hrest, hbefore, hv⟩ :=
          exists_stray_name heven fun hpairs => h (.letStar forms hitems hpairs)
        by_cases hnil : before = []
        · subst hnil
          exact .inl ⟨_, .firstName forms hitems hrest hv⟩
        · exact .inr ⟨before, v, ⟨bindings, forms, form, rest, rfl, hitems, hrest⟩, hbefore, hnil,
            hv⟩
      · exact .inl ⟨_, .bindingPairs forms hitems heven⟩

theorem exists_refusal_function {parts : List Value} (h : ¬ WellFormed function parts) :
    ∃ refusal, Refuses function parts refusal := by
  cases parts with
  | nil => exact ⟨_, .noParameters⟩
  | cons params forms =>
    cases hitems : params.items? with
    | none => exact ⟨_, .parameterList forms hitems⟩
    | some items =>
      obtain ⟨before, v, rest, rfl, hbefore, hv⟩ :=
        exists_stray_parameter fun hnames => h (.function forms hitems hnames)
      exact ⟨_, .parameter forms hitems hbefore hv⟩

theorem exists_refusal_handle {parts : List Value} (h : ¬ WellFormed handle parts) :
    ∃ refusal, Refuses handle parts refusal := by
  by_cases htwo : parts.length = 2
  · obtain ⟨form, clause, rfl⟩ := List.length_eq_two.1 htwo
    exact ⟨_, .clause form fun hclause => h (.handleClause form hclause)⟩
  · refine ⟨_, .handleCount (fun hone => ?_) htwo⟩
    obtain ⟨form, rfl⟩ := List.length_eq_one_iff.1 hone
    exact h (.handle form)

theorem exists_refusal_takesOne {special : SpecialForm} {parts : List Value}
    (hone : special.takesOne = true) (h : ¬ WellFormed special parts) :
    ∃ refusal, Refuses special parts refusal := by
  refine ⟨_, .oneCount hone fun hcount => ?_⟩
  obtain ⟨v, rfl⟩ := List.length_eq_one_iff.1 hcount
  exact h (.one v hone)

/-- **What is not well formed is refused**, at once or, by `let*`, late. -/
theorem not_wellFormed_iff {special : SpecialForm} {parts : List Value} :
    ¬ WellFormed special parts ↔
      (∃ refusal, Refuses special parts refusal) ∨
        special = letStar ∧ ∃ before v, StraysLate parts before v := by
  constructor
  · intro h
    cases special with
    | define =>
      obtain ⟨name, form, rfl⟩ | ⟨v, form, rfl, hv⟩ | hcount := nameAndForm_cases parts
      · exact absurd (.define name form) h
      · exact .inl ⟨_, .defineName form hv⟩
      · exact .inl ⟨_, .defineCount hcount⟩
    | defineMacro =>
      obtain ⟨name, form, rfl⟩ | ⟨v, form, rfl, hv⟩ | hcount := nameAndForm_cases parts
      · exact absurd (.defineMacro name form) h
      · exact .inl ⟨_, .macroName form hv⟩
      · exact .inl ⟨_, .macroCount hcount⟩
    | letStar => exact (exists_refusal_letStar h).imp_right fun hlate => ⟨rfl, hlate⟩
    | sequence => exact absurd (.sequence parts) h
    | conditional =>
      refine .inl ⟨_, .branchCount (fun htwo => ?_) fun hthree => ?_⟩
      · obtain ⟨condition, yes, rfl⟩ := List.length_eq_two.1 htwo
        exact h (.oneBranch condition yes)
      · obtain ⟨condition, yes, no, rfl⟩ := List.length_eq_three.1 hthree
        exact h (.twoBranches condition yes no)
    | function => exact .inl (exists_refusal_function h)
    | handle => exact .inl (exists_refusal_handle h)
    | quote | quasiquote | quasiquoteExpand | expandMacro =>
      exact .inl (exists_refusal_takesOne rfl h)
  · rintro (⟨refusal, h⟩ | ⟨rfl, before, v, h⟩)
    · exact h.not_wellFormed
    · exact h.not_wellFormed

/-! ### Mistakes that are seen at once -/

variable (c : Caller) (tail : Bool) (frame : FrameId) {special : SpecialForm} {parts : List Value}

theorem evalDefine_of_length_ne (h : parts.length ≠ 2) :
    evalDefine c frame parts = (Refusal.misuse "def!" .nameAndValue).refuse := by
  unfold evalDefine
  split
  · exact absurd rfl h
  · exact absurd rfl h
  · rfl

theorem evalDefineMacro_of_length_ne (h : parts.length ≠ 2) :
    evalDefineMacro c frame parts = (Refusal.misuse "defmacro!" .nameAndFunction).refuse := by
  unfold evalDefineMacro
  split
  · exact absurd rfl h
  · exact absurd rfl h
  · rfl

theorem evalConditional_of_length_ne (h : parts.length ≠ 2) (h' : parts.length ≠ 3) :
    evalConditional c tail frame parts = (Refusal.misuse "if" .conditional).refuse := by
  unfold evalConditional
  split
  · exact absurd rfl h
  · exact absurd rfl h'
  · rfl

theorem evalHandle_of_length_ne (h : parts.length ≠ 1) (h' : parts.length ≠ 2) :
    evalHandle c tail frame parts = (Refusal.misuse "try*" .bodyAndClause).refuse := by
  unfold evalHandle
  split
  · exact absurd rfl h
  · exact absurd rfl h'
  · rfl

theorem only_of_length_ne (special : SpecialForm) (h : parts.length ≠ 1) :
    special.only parts = (Refusal.misuse special.name .oneArgument).refuse := by
  unfold only
  split
  · exact absurd rfl h
  · rfl

section

variable {v : Value} (hv : ¬ v.IsSymbol)

include hv

theorem evalDefine_stray (form : Value) :
    evalDefine c frame [v, form] = (Refusal.stray "def!" .bound v).refuse := by
  cases v with
  | symbol name => exact absurd ⟨name, rfl⟩ hv
  | _ => rfl

theorem evalDefineMacro_stray (form : Value) :
    evalDefineMacro c frame [v, form] = (Refusal.stray "defmacro!" .bound v).refuse := by
  cases v with
  | symbol name => exact absurd ⟨name, rfl⟩ hv
  | _ => rfl

/-- Names are bound in turn, up to the first that is none. -/
theorem bindPairs_stray {before : List Value} (hbefore : NamesAndForms before) (form : Value)
    (rest : List Value) :
    bindPairs c frame (before ++ v :: form :: rest) =
      bindPairs c frame before >>= fun _ => (Refusal.stray "let*" .bound v).refuse := by
  induction hbefore with
  | nil =>
    cases v with
    | symbol name => exact absurd ⟨name, rfl⟩ hv
    | _ => rfl
  | cons name form' _ ih =>
    simp only [List.cons_append, bindPairs, bind_assoc, ih]

/-- Parameters are looked at in turn. -/
theorem paramNames_stray {before : List Value} (hbefore : ∀ param ∈ before, param.IsSymbol)
    (rest : List Value) :
    paramNames (before ++ v :: rest) = (Refusal.stray "fn*" .parameter v).refuse := by
  induction before with
  | nil =>
    cases v with
    | symbol name => exact absurd ⟨name, rfl⟩ hv
    | _ => rfl
  | cons param before ih =>
    obtain ⟨⟨name, rfl⟩, hrest⟩ := List.forall_mem_cons.1 hbefore
    rw [List.cons_append, paramNames, ih hrest, Refusal.refuse_bind]

end

/-- Whoever the caller is, it is given nothing to do. Only `let*` may have made its frame. -/
theorem Refuses.eval_eq {refusal : Refusal} (h : Refuses special parts refusal) (frame : FrameId) :
    (∀ c tail, special.eval c tail frame parts = refusal.refuse) ∨
      ∀ c tail, special.eval c tail frame parts =
        Run.newFrame frame [] >>= fun _ => refusal.refuse := by
  cases h with
  | @firstName bindings v form rest forms hitems heven hv =>
    refine .inr fun c tail => ?_
    have heven' : (v :: form :: rest).length % 2 = 0 := by
      rw [List.length_cons, List.length_cons]
      omega
    have hbind : ∀ inner, bindPairs c inner (v :: form :: rest) =
        (Refusal.stray "let*" .bound v).refuse :=
      fun inner => bindPairs_stray c inner hv .nil form rest
    simp only [SpecialForm.eval, evalLet, hitems, if_pos heven', hbind, Refusal.refuse_bind]
  | defineCount hcount =>
    refine .inl fun c tail => ?_
    simp only [SpecialForm.eval, evalDefine_of_length_ne c frame hcount]
    rfl
  | defineName form hv =>
    refine .inl fun c tail => ?_
    simp only [SpecialForm.eval, evalDefine_stray c frame hv, map_eq_pure_bind, Refusal.refuse_bind]
  | macroCount hcount =>
    refine .inl fun c tail => ?_
    simp only [SpecialForm.eval, evalDefineMacro_of_length_ne c frame hcount]
    rfl
  | macroName form hv =>
    refine .inl fun c tail => ?_
    simp only [SpecialForm.eval, evalDefineMacro_stray c frame hv, map_eq_pure_bind,
      Refusal.refuse_bind]
  | noBindings | noParameters => exact .inl fun c tail => rfl
  | bindingList forms hnone =>
    refine .inl fun c tail => ?_
    simp only [SpecialForm.eval, evalLet, hnone]
    rfl
  | bindingPairs forms hitems hodd =>
    refine .inl fun c tail => ?_
    simp only [SpecialForm.eval, evalLet, hitems, if_neg hodd]
    rfl
  | branchCount htwo hthree =>
    exact .inl fun c tail => evalConditional_of_length_ne c tail frame htwo hthree
  | parameterList forms hnone =>
    refine .inl fun c tail => ?_
    simp only [SpecialForm.eval, evalFunction, hnone]
    rfl
  | parameter forms hitems hbefore hv =>
    refine .inl fun c tail => ?_
    simp only [SpecialForm.eval, evalFunction, hitems, paramNames_stray hv hbefore,
      map_eq_pure_bind, Refusal.refuse_bind]
  | oneCount hone hcount =>
    refine .inl fun c tail => ?_
    cases special with
    | quote | quasiquote | quasiquoteExpand | expandMacro =>
      simp only [SpecialForm.eval, only_of_length_ne _ hcount]
      rfl
    | _ => cases hone
  | handleCount hcount htwo =>
    exact .inl fun c tail => evalHandle_of_length_ne c tail frame hcount htwo
  | clause form hclause =>
    refine .inl fun c tail => ?_
    simp only [SpecialForm.eval, evalHandle, clause?_eq_none_iff.2 hclause]
    rfl

end SpecialForm

/-- Nothing that was there has changed; there may be new frames. -/
structure Machine.Untouched (m n : Machine) : Prop where
  frames     : ∀ id < m.frames.size, n.frames.get? id = m.frames.get? id
  cells      : n.cells = m.cells
  nextSerial : n.nextSerial = m.nextSerial
  input      : n.input = m.input
  readings   : n.readings = m.readings
  output     : n.output = m.output
  report     : n.report = m.report
  host       : n.host = m.host

theorem Machine.Untouched.refl (m : Machine) : m.Untouched m :=
  ⟨fun _ _ => rfl, rfl, rfl, rfl, rfl, rfl, rfl, rfl⟩

theorem Machine.Untouched.pushFrame (m : Machine) (outer : Option FrameId)
    (vars : Entries Value) : m.Untouched (m.pushFrame outer vars) :=
  ⟨fun _ hid => Frames.get?_push_of_lt hid outer vars, rfl, rfl, rfl, rfl, rfl, rfl, rfl⟩

namespace SpecialForm

variable {special : SpecialForm} {parts : List Value}

/-- **A mistake that is seen at once leaves nothing behind**, whoever the caller is. -/
theorem Refuses.eval {refusal : Refusal} (h : Refuses special parts refusal) (m : Machine)
    (frame : FrameId) :
    ∃ n, m.Untouched n ∧ ∀ (c : Caller) (tail : Bool),
      special.eval c tail frame parts m = .failed (refusal.error m) n := by
  rcases h.eval_eq frame with heval | heval
  · refine ⟨m, .refl m, fun c tail => ?_⟩
    rw [heval, Refusal.refuse_apply]
  · refine ⟨_, .pushFrame m (some frame) [], fun c tail => ?_⟩
    -- What the message shows does not depend on the new frame.
    have herror : refusal.error (m.pushFrame (some frame) []) = refusal.error m := by
      cases refusal <;> rfl
    simp only [heval, Run.bind_apply, Run.newFrame, Refusal.refuse_apply, herror]

/-! ### The mistake that is seen late -/

/-- Binds the names of `before` in a new frame, and stops at what is no name. -/
def bindUntil {α : Type} (c : Caller) (frame : FrameId) (before : List Value) (v : Value) :
    Run α := do
  bindPairs c (← Run.newFrame frame []) before
  (Refusal.stray "let*" .bound v).refuse

/-- **A mistake that is seen late leaves behind what the forms before it did.** -/
theorem StraysLate.eval {before : List Value} {v : Value} (h : StraysLate parts before v)
    (c : Caller) (tail : Bool) (frame : FrameId) :
    letStar.eval c tail frame parts = bindUntil c frame before v := by
  obtain ⟨⟨bindings, forms, form, rest, rfl, hitems, hrest⟩, hbefore, -, hv⟩ := h
  have heven : (before ++ v :: form :: rest).length % 2 = 0 := by
    have := hbefore.length_even
    rw [List.length_append, List.length_cons, List.length_cons]
    omega
  simp only [SpecialForm.eval, evalLet, hitems, if_pos heven, bindPairs_stray c _ hv hbefore,
    bind_assoc, Refusal.refuse_bind, bindUntil]

theorem bindUntil_bind {α β : Type} (c : Caller) (frame : FrameId) (before : List Value)
    (v : Value) (f : α → Run β) :
    bindUntil c frame before v >>= f = bindUntil c frame before v := by
  simp only [bindUntil, bind_assoc, Refusal.refuse_bind]

end SpecialForm

/-! ### Evaluation -/

section

variable {m : Machine} {frame : FrameId} {special : SpecialForm} {parts : List Value}
  (hplain : m.NoMacro special.name frame)

include hplain

/-- A form with the name of a special form in front is that special form, unless a macro of the
name comes before it. -/
theorem perform_special (serial : Serial) (parts : List Value) (fuel : Nat) {level : Nat}
    (hallows : m.host.limits.allows level = true) (tail : Bool) :
    perform (fuel + 2) level
        (.eval tail (.list serial (.symbol special.name :: parts)) frame) m =
      special.eval ⟨perform (fuel + 1), (fuel + 1 : Nat), level⟩ tail frame parts m := by
  have hspecial : SpecialForm.ofName? special.name = some special := by
    cases special <;> decide
  rw [perform_succ_of_allows hallows]
  show Caller.eval _ tail _ frame m = _
  rw [Caller.eval_of_none rfl (Machine.macroCall?_eq_none hplain serial parts)]
  simp only [Caller.evalForm, Caller.evalForm.specialForm?, hspecial]

/-- **Malformed special forms are refused, and all but one kind before anything happens.** Let a
list start with the name of a special form which is no macro in the frame, and let its parts have
none of the shapes that the special form may have.

  * Either the mistake is seen at once. Then the form fails, whoever evaluates it: no part of it is
    given on to be evaluated, and whatever was there before is untouched. The error says which
    arguments are invalid, unless it has to show what stands where a name should, and that has no
    inspected form.
  * Or the form is a `let*`, and something else than a name stands behind pairs that are in order.
    Then these pairs are bound first, whatever their forms do, and only then the form is refused. -/
theorem evaluate_malformed (hshape : ¬ special.WellFormed parts) (serial : Serial) :
    let form := .list serial (.symbol special.name :: parts)
    (∃ refusal n, special.Refuses parts refusal ∧ m.Untouched n ∧
      (∀ (c : Caller) (tail : Bool),
        special.eval c tail frame parts m = .failed (refusal.error m) n) ∧
      (∀ (fuel level : Nat) (tail : Bool), m.host.limits.allows level = true →
        perform (fuel + 2) level (.eval tail form frame) m = .failed (refusal.error m) n) ∧
      (m.host.limits.allows Steps.body = true → ∀ fuel,
        evaluate (fuel + 2) form frame m = .failed (refusal.error m) n)) ∨
    (special = .letStar ∧ ∃ before v, SpecialForm.StraysLate parts before v ∧
      (∀ (fuel level : Nat) (tail : Bool), m.host.limits.allows level = true →
        perform (fuel + 2) level (.eval tail form frame) m =
          SpecialForm.bindUntil ⟨perform (fuel + 1), (fuel + 1 : Nat), level⟩ frame before v m) ∧
      (m.host.limits.allows Steps.body = true → ∀ fuel,
        evaluate (fuel + 2) form frame m =
          SpecialForm.bindUntil ⟨perform (fuel + 1), (fuel + 1 : Nat), Steps.body⟩ frame before v
            m)) := by
  intro form
  have hevaluate : ∀ fuel, evaluate (fuel + 2) form frame m =
      (perform (fuel + 2) Steps.body (.eval true form frame) >>=
        (outermost (fuel + 2)).settle) m := fun fuel => rfl
  rcases SpecialForm.not_wellFormed_iff.1 hshape with ⟨refusal, hrefuses⟩ | ⟨rfl, before, v, hlate⟩
  · obtain ⟨n, huntouched, heval⟩ := hrefuses.eval m frame
    have hperform : ∀ (fuel level : Nat) (tail : Bool), m.host.limits.allows level = true →
        perform (fuel + 2) level (.eval tail form frame) m = .failed (refusal.error m) n :=
      fun fuel level tail hallows =>
        (perform_special hplain serial parts fuel hallows tail).trans (heval _ tail)
    refine .inl ⟨refusal, n, hrefuses, huntouched, heval, hperform, fun hallows fuel => ?_⟩
    rw [hevaluate, Run.bind_apply, hperform fuel _ true hallows]
  · have hperform : ∀ (fuel level : Nat) (tail : Bool), m.host.limits.allows level = true →
        perform (fuel + 2) level (.eval tail form frame) m =
          SpecialForm.bindUntil ⟨perform (fuel + 1), (fuel + 1 : Nat), level⟩ frame before v m :=
      fun fuel level tail hallows =>
        (perform_special hplain serial parts fuel hallows tail).trans
          (congrFun (hlate.eval _ tail frame) m)
    refine .inr ⟨rfl, before, v, hlate, hperform, fun hallows fuel => ?_⟩
    rw [hevaluate, Run.bind_congr_at (hperform fuel _ true hallows),
      SpecialForm.bindUntil_bind]

end

/-- In `(def! 5 (println 1))` the name is looked at first, so nothing is written. -/
theorem evaluate_misnamed :
    let parts := [.int 5, .form [.symbol "println", .int 1]]
    Machine.bare.NoMacro SpecialForm.define.name Session.root ∧
      ¬ SpecialForm.define.WellFormed parts ∧
      Machine.bare.host.limits.allows Steps.body = true ∧
      ∃ n, Machine.bare.Untouched n ∧
        evaluate 9 (.form (.symbol SpecialForm.define.name :: parts)) Session.root Machine.bare =
          .failed (.invalidArguments "def!" (.bound "5")) n := by
  intro parts
  have hlookup : Machine.bare.frames.lookup? SpecialForm.define.name Session.root = none := by
    decide +kernel
  have hplain : Machine.bare.NoMacro SpecialForm.define.name Session.root :=
    Machine.noMacro_of_none hlookup
  have hshape : ¬ SpecialForm.define.WellFormed parts :=
    (SpecialForm.Refuses.defineName _ (Value.not_isSymbol_int 5)).not_wellFormed
  have herror : (SpecialForm.Refusal.stray "def!" .bound (.int 5)).error Machine.bare =
      .invalidArguments "def!" (.bound "5") := by decide +kernel
  refine ⟨hplain, hshape, rfl, ?_⟩
  rcases evaluate_malformed hplain hshape 0 with
    ⟨refusal, n, hrefuses, huntouched, -, -, heval⟩ | ⟨hlet, -⟩
  · refine ⟨n, huntouched, (heval rfl 7).trans ?_⟩
    subst parts
    cases hrefuses with
    | defineName => rw [herror]
    | defineCount hcount => exact absurd rfl hcount
    | oneCount hone => cases hone
  · cases hlet

/-- In `(let* (a (println 1) 5 2) a)` the second name is looked at when the first one has been
bound, so a line is written before the form is refused. And where an integer with too many digits
stands in the place of a name, its arguments are not called invalid: it has no text for the
message. -/
theorem malformed_changed :
    (let parts := [.form [.symbol "a", .form [.symbol "println", .int 1], .int 5, .int 2],
        .symbol "a"]
      let r := evaluate 9 (.form (.symbol SpecialForm.letStar.name :: parts)) Session.root
        Machine.bare
      Machine.bare.NoMacro SpecialForm.letStar.name Session.root ∧
        ¬ SpecialForm.letStar.WellFormed parts ∧
        r.error? = some (.invalidArguments "let*" (.bound "5")) ∧
        Machine.bare.output = "" ∧ r.written? = some "1\n") ∧
    (let parts := [.int Numeral.bound, .int 1]
      let r := evaluate 9 (.form (.symbol SpecialForm.define.name :: parts)) Session.root
        Machine.bare
      Machine.bare.NoMacro SpecialForm.define.name Session.root ∧
        ¬ SpecialForm.define.WellFormed parts ∧ r.error? = some .numeralTooLong) := by
  have hlet : Machine.bare.frames.lookup? SpecialForm.letStar.name Session.root = none := by
    decide +kernel
  have hdefine : Machine.bare.frames.lookup? SpecialForm.define.name Session.root = none := by
    decide +kernel
  have hlate : SpecialForm.StraysLate
      [.form [.symbol "a", .form [.symbol "println", .int 1], .int 5, .int 2], .symbol "a"]
      [.symbol "a", .form [.symbol "println", .int 1]] (.int 5) :=
    ⟨⟨_, _, .int 2, [], rfl, rfl, rfl⟩, .cons "a" _ .nil, List.cons_ne_nil _ _,
      Value.not_isSymbol_int 5⟩
  exact ⟨⟨Machine.noMacro_of_none hlet, hlate.not_wellFormed, by decide +kernel, rfl,
      by decide +kernel⟩,
    Machine.noMacro_of_none hdefine,
    (SpecialForm.Refuses.defineName _ (Value.not_isSymbol_int _)).not_wellFormed,
    by decide +kernel⟩

end AtomLisp
