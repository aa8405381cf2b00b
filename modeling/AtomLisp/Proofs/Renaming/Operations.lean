import AtomLisp.Call
import AtomLisp.Expansion
import AtomLisp.Proofs.Renaming.Runs
import AtomLisp.SpecialForm

/-! # Operations with other numbers

  What evaluation does without evaluating anything further: the builtins that call nothing, binding
  parameters, expanding templates, finding macro calls, and taking special forms apart. None of it
  sees the numbers.

  * `Run.Alike.query` and the lemmas after it, one for each builtin that calls nothing;
  * `Run.Alike.bindParameters`, `Template.expand_alike`: parameters and templates;
  * `Machine.Renamed.macroCall?`: a form with other numbers is the same macro call, if it is one.
-/

namespace AtomLisp

open Run

variable {r : Renaming} {m : Machine}

/-! ### Builtins that call nothing -/

namespace Run.Alike

variable {args : List Value}

theorem make {answer : Answer} (h : m.Knows Renaming.answer answer) :
    Alike r Renaming.value m answer.make (r.answer answer).make := by
  cases answer with
  | value v => exact .pure fun s t hagree => Answer.value.inj (h s t hagree)
  | form v => exact .number fun s t hagree => Answer.form.inj (h s t hagree)
  | list items =>
    have hitems : m.Knows Renaming.values items := by
      intro s t hagree
      rw [s.values_eq_map, t.values_eq_map]
      exact Answer.list.inj (h s t hagree)
    show Alike r _ m (Run.newList items) (Run.newList (items.map r.value))
    rw [← r.values_eq_map]
    exact .newList hitems
  | vector items =>
    have hitems : m.Knows Renaming.values items := by
      intro s t hagree
      rw [s.values_eq_map, t.values_eq_map]
      exact Answer.vector.inj (h s t hagree)
    show Alike r _ m (Run.newVector items) (Run.newVector (items.map r.value))
    rw [← r.values_eq_map]
    exact .newVector hitems
  | map entries =>
    have hentries : m.Knows Renaming.entriesOf entries := by
      intro s t hagree
      rw [s.entriesOf_eq_map, t.entriesOf_eq_map]
      exact Answer.map.inj (h s t hagree)
    show Alike r _ m (Run.newMap entries) (Run.newMap (entries.map r.entry))
    rw [← r.entriesOf_eq_map]
    exact .newMap hentries
  | time => exact Alike.readClock.bind fun _ _ _ _ => .pure fun _ _ _ => rfl

theorem query (q : Builtin.Query) (h : m.Knows Renaming.values args) :
    Alike r Renaming.value m (Run.read (q.answer · args) >>= Answer.make)
      (Run.read (q.answer · (r.values args)) >>= Answer.make) := by
  have hanswer : Alike r Renaming.answer m (Run.read (q.answer · args))
      (Run.read (q.answer · (r.values args))) := by
    refine .read ?_
    intro n n' hmn hr
    refine hr.outcome (g := q.answer) ?_ (h.mono hmn)
    intro s o o' ho args
    rw [s.values_eq_map]
    exact q.answer_value ho args
  exact hanswer.bind fun _ _ _ => .make

theorem inspect {v : Value} (h : m.Knows Renaming.value v) :
    Alike r Renaming.plain m (Run.read (·.inspect v)) (Run.read (·.inspect (r.value v))) :=
  .read fun _ _ hmn hr => hr.outcome (fun _ _ _ ho v => ho.inspect_value v) (h.mono hmn)

theorem print {v : Value} (h : m.Knows Renaming.value v) :
    Alike r Renaming.plain m (Run.read (·.print true v)) (Run.read (·.print true (r.value v))) :=
  .read fun _ _ hmn hr =>
    hr.outcome (g := fun m => m.print true) (fun _ _ _ ho v => ho.print_value true v) (h.mono hmn)

theorem printLine (readable : Bool) (h : m.Knows Renaming.values args) :
    Alike r Renaming.value m (Builtin.printLine readable args)
      (Builtin.printLine readable (r.values args)) := by
  have hprint : Alike r Renaming.plain m (Run.read (·.printAll readable " " args))
      (Run.read (·.printAll readable " " (r.values args))) := by
    refine .read ?_
    intro n n' hmn hr
    refine hr.outcome (g := fun m => m.printAll readable " ") ?_ (h.mono hmn)
    intro s o o' ho args
    rw [s.values_eq_map]
    exact ho.printAll_value readable " " args
  refine hprint.bind ?_
  intro n text _ _
  exact (Alike.write _).bind fun _ _ _ _ => .pure fun _ _ _ => rfl

theorem promptLine (h : m.Knows Renaming.values args) :
    Alike r Renaming.value m (Builtin.promptLine args) (Builtin.promptLine (r.values args)) := by
  have hprompt : Alike r Renaming.plain m
      (Run.ofExcept (Arguments.oneText Builtin.Action.readline.name args))
      (Run.ofExcept (Arguments.oneText Builtin.Action.readline.name (r.values args))) := by
    refine .ofExcept ?_ h
    intro s args
    rw [s.values_eq_map]
    exact Arguments.oneText_value s _ args
  refine hprompt.bind ?_
  intro n prompt _ _
  refine (Alike.ask prompt).bind ?_
  intro o line _ _
  cases line <;> exact .pure fun _ _ _ => rfl

theorem one (callee : String) (h : m.Knows Renaming.values args) :
    Alike r Renaming.value m (Run.ofExcept (Arguments.one callee args))
      (Run.ofExcept (Arguments.one callee (r.values args))) := by
  refine .ofExcept ?_ h
  intro s args
  rw [s.values_eq_map]
  exact Arguments.one_value s _ args

theorem two (callee : String) (h : m.Knows Renaming.values args) :
    Alike r (fun r => Prod.map r.value r.value) m (Run.ofExcept (Arguments.two callee args))
      (Run.ofExcept (Arguments.two callee (r.values args))) := by
  refine .ofExcept ?_ h
  intro s args
  rw [s.values_eq_map]
  exact Arguments.two_value s _ args

theorem resetAtom (h : m.Knows Renaming.values args) :
    Alike r Renaming.value m (Builtin.resetAtom args) (Builtin.resetAtom (r.values args)) := by
  refine (Alike.two _ h).bind ?_
  rintro n ⟨v, w⟩ _ hvw
  have hw : n.Knows Renaming.value w := fun s t hagree => (Prod.mk.inj (hvw s t hagree)).2
  cases v with
  | atom cell => exact .writeCell cell hw
  | _ => exact .stop fun _ => rfl

end Run.Alike

/-! ### Parameters -/

namespace Parameters

/-- An assignment whose values have other numbers. -/
def Assignment.rename (r : Renaming) (a : Assignment) : Assignment :=
  ⟨a.single.map r.entry, a.rest.map fun rest => (rest.1, rest.2.map r.value)⟩

theorem zip_map_value (r : Renaming) (names : List String) (args : List Value) :
    names.zip (args.map r.value) = (names.zip args).map r.entry := by
  rw [List.zip_map_right]
  rfl

theorem assign_value (r : Renaming) (params : List String) (args : List Value) :
    assign params (args.map r.value) = (assign params args).map (Assignment.rename r) := by
  unfold assign
  split
  · rw [List.length_map]
    split
    · rw [zip_map_value]
      rfl
    · rfl
  · simp only [List.length_map]
    split
    · rw [zip_map_value, ← List.map_drop]
      rfl
    · rfl
  · rfl

end Parameters

namespace Run.Alike

variable {args : List Value}

theorem bindParameters (params : List String) {home : FrameId}
    (hargs : m.Knows Renaming.values args) :
    Alike r Renaming.frameId m (Parameters.bind params args home)
      (Parameters.bind params (r.values args) (r.frameId home)) := by
  have hassign := fun r => Parameters.assign_value r params args
  -- What is assigned is known, as the arguments are.
  have hknows : ∀ s t, m.Agree s t →
      (Parameters.assign params args).map (Parameters.Assignment.rename s) =
        (Parameters.assign params args).map (Parameters.Assignment.rename t) := by
    intro s t hagree
    have heq := hargs s t hagree
    rw [s.values_eq_map, t.values_eq_map] at heq
    rw [← hassign, ← hassign, heq]
  unfold Parameters.bind
  rw [r.values_eq_map, hassign]
  cases h : Parameters.assign params args with
  | error misuse => exact .stop fun _ => rfl
  | ok a =>
    obtain ⟨single, rest?⟩ := a
    rw [h] at hknows
    have hsingle : m.Knows Renaming.entriesOf (Entries.insertAll [] single) := by
      intro s t hagree
      have heq := congrArg Parameters.Assignment.single (Except.ok.inj (hknows s t hagree))
      have hs := s.insertAll_map_entry [] single
      have ht := t.insertAll_map_entry [] single
      rw [show single.map s.entry = single.map t.entry from heq] at hs
      rw [s.entriesOf_eq_map, t.entriesOf_eq_map, ← hs, ← ht]
      rfl
    have hvars : Entries.insertAll [] (single.map r.entry) =
        r.entriesOf (Entries.insertAll [] single) := by
      rw [r.entriesOf_eq_map]
      exact r.insertAll_map_entry [] single
    cases rest? with
    | none =>
      show Alike r _ m (Run.newFrame home _) (Run.newFrame (r.frameId home) _)
      rw [hvars]
      exact .newFrame home hsingle
    | some rest =>
      obtain ⟨name, rest⟩ := rest
      have hrest : m.Knows Renaming.values rest := by
        intro s t hagree
        have heq := congrArg Parameters.Assignment.rest (Except.ok.inj (hknows s t hagree))
        rw [s.values_eq_map, t.values_eq_map]
        exact (Prod.mk.inj (Option.some.inj heq)).2
      refine newSerial.bind ?_
      intro n serial hmn hserial
      have hlist : n.Knows Renaming.value (.list serial rest) := .list hserial (hrest.mono hmn)
      have hinsert := r.entriesOf_insert name (.list serial rest) (Entries.insertAll [] single)
      rw [r.value_list, ← hvars] at hinsert
      show Alike r _ n (Run.newFrame home _) (Run.newFrame (r.frameId home) _)
      rw [← hinsert]
      exact .newFrame home (.insert hlist (hsingle.mono hmn) name)

end Run.Alike

/-! ### Templates -/

namespace Template

variable (r : Renaming)

theorem marked?_value (head : String) (v : Value) :
    marked? head (r.value v) = (marked? head v).map r.value := by
  cases v with
  | list serial items =>
    match items with
    | [] => rfl
    | [w] => cases w <;> rfl
    | [w, x] =>
      cases w with
      | symbol name =>
        show (if name = head then some (r.value x) else none) =
          (if name = head then some x else none).map r.value
        split <;> rfl
      | _ => rfl
    | w :: x :: y :: rest => cases w <;> rfl
  | _ => rfl

mutual

theorem depth_value : ∀ v : Value, depth (r.value v) = depth v
  | .list serial items => by
    have hmarked := marked?_value r "unquote" (.list serial items)
    have hitems := depthOfItems_value items
    rw [Renaming.value] at hmarked ⊢
    simp only [depth, hmarked, hitems]
    cases marked? "unquote" (.list serial items) <;> rfl
  | .vector serial items => by
    simp only [Renaming.value, depth, depthOfItems_value items]
  | .nil | .bool _ | .int _ | .text _ | .symbol _ | .map .. | .atom _ | .builtin _
  | .closure .. => rfl

theorem depthOfItems_value : ∀ vs : List Value, depthOfItems (r.values vs) = depthOfItems vs
  | [] => rfl
  | v :: vs => by
    simp only [Renaming.values, depthOfItems, marked?_value, depth_value v, depthOfItems_value vs]
    cases marked? "splice-unquote" v <;> rfl

end

variable {r} {m : Machine}

theorem knows_marked? {head : String} {v x : Value} (hv : m.Knows Renaming.value v)
    (h : marked? head v = some x) : m.Knows Renaming.value x := by
  intro s t hagree
  have hs := marked?_value s head v
  have ht := marked?_value t head v
  rw [hv s t hagree, ht, h] at hs
  exact (Option.some.inj hs).symm

mutual

theorem expand_alike : ∀ (m : Machine) (v : Value), m.Knows Renaming.value v →
    Alike r Renaming.value m (expand v) (expand (r.value v))
  | m, .list serial items, hv => by
    have hmarked := marked?_value r "unquote" (.list serial items)
    rw [Renaming.value] at hmarked ⊢
    unfold expand
    rw [hmarked]
    cases h : marked? "unquote" (.list serial items) with
    | some x => exact .pure (knows_marked? hv h)
    | none => exact expandItems_alike m items hv.items_of_list
  | m, .vector serial items, hv => by
    rw [Renaming.value]
    unfold expand
    refine (expandItems_alike m items hv.items_of_vector).bind ?_
    intro n code _ hcode
    exact .newList (.cons (.symbol _) (.cons hcode .nil))
  | m, .symbol name, hv =>
    .newList (.cons (.symbol _) (.cons hv .nil))
  | m, .map serial entries, hv =>
    .newList (.cons (.symbol _) (.cons hv .nil))
  | m, .nil, hv | m, .bool _, hv | m, .int _, hv | m, .text _, hv | m, .atom _, hv
  | m, .builtin _, hv | m, .closure .., hv => .pure hv

theorem expandItems_alike : ∀ (m : Machine) (vs : List Value), m.Knows Renaming.values vs →
    Alike r Renaming.value m (expandItems vs) (expandItems (r.values vs))
  | m, [], _ => by
    have hform : Alike r Renaming.value m (Pure.pure (.form [])) (Pure.pure (r.value (.form []))) :=
      .pure (.form .nil)
    rwa [r.value_form] at hform
  | m, v :: vs, h => by
    rw [Renaming.values]
    unfold expandItems
    refine (expandItems_alike m vs h.tail).bind ?_
    intro n rest hmn hrest
    rw [marked?_value]
    cases hmarked : marked? "splice-unquote" v with
    | some x =>
      exact .newList (.cons (.symbol _)
        (.cons ((knows_marked? h.head hmarked).mono hmn) (.cons hrest .nil)))
    | none =>
      refine (expand_alike n v (h.head.mono hmn)).bind ?_
      intro o code hno hcode
      exact .newList (.cons (.symbol _) (.cons hcode (.cons (hrest.mono hno) .nil)))

end

end Template

/-! ### Macro calls and errors -/

/-- A macro call with other numbers. -/
def Renaming.macroCall (r : Renaming) (call : MacroCall) : MacroCall :=
  { call with
    body := r.value call.body, home := r.frameId call.home, args := r.values call.args }

theorem Renaming.caught?_error (r : Renaming) (e : Error) :
    (r.error e).caught? = e.caught?.map r.value := by
  cases e <;> rfl

/-- The macro that a name is bound to, if it is one, with the arguments of its call. -/
theorem Machine.Renamed.macroCall? {m' : Machine} (h : m.Renamed r m') (form : Value)
    (frame : FrameId) :
    m'.macroCall? (r.value form) (r.frameId frame) = (m.macroCall? form frame).map r.macroCall := by
  cases form with
  | list serial items =>
    cases items with
    | nil => rfl
    | cons head args =>
      cases head with
      | symbol name =>
        simp only [Machine.macroCall?, Renaming.value, Renaming.values, h.lookup? name frame]
        cases m.frames.lookup? name frame with
        | none => rfl
        | some v =>
          cases v with
          | closure s params body home isMacro => cases isMacro <;> rfl
          | _ => rfl
      | _ => rfl
  | _ => rfl

theorem Machine.Proper.knows_macroCall (h : m.Proper) {form : Value} {frame : FrameId}
    {call : MacroCall} (hform : m.Knows Renaming.value form)
    (hcall : m.macroCall? form frame = some call) :
    m.Knows Renaming.value call.body ∧ m.Knows Renaming.values call.args := by
  unfold Machine.macroCall? at hcall
  split at hcall
  · split at hcall
    · rename_i hlookup
      cases hcall
      exact ⟨(h.knows_lookup? hlookup).body_of_closure, hform.items_of_list.tail⟩
    · cases hcall
  · cases hcall

/-! ### Sequences taken apart -/

theorem Renaming.spread_values (r : Renaming) (vs : List Value) :
    Builtin.spread (r.values vs) = r.values (Builtin.spread vs) := by
  induction vs with
  | nil => rfl
  | cons v vs ih =>
    simp only [Builtin.spread, Renaming.values, List.flatMap_cons, r.values_append] at ih ⊢
    rw [ih, r.items?_value]
    cases v.items? with
    | none => rfl
    | some items =>
      simp only [Option.map_some, Option.getD_some, r.values_eq_map]

theorem Machine.Knows.spread {vs : List Value} (h : m.Knows Renaming.values vs) :
    m.Knows Renaming.values (Builtin.spread vs) := by
  intro s t hagree
  rw [← s.spread_values, ← t.spread_values, h s t hagree]

/-! ### Parts of special forms that evaluate nothing -/

namespace SpecialForm

variable {parts : List Value}

theorem misuse_alike {α : Type} {act : Renaming → α → α} (form : SpecialForm) (why : Misuse) :
    Alike r act m (form.misuse why) (form.misuse why) :=
  .stop fun _ => rfl

theorem unbindable_alike {α : Type} {act : Renaming → α → α} {v : Value} (form : SpecialForm)
    (hv : m.Knows Renaming.value v) :
    Alike r act m (form.unbindable v) (form.unbindable (r.value v)) :=
  (Alike.inspect hv).bind fun _ _ _ _ => misuse_alike form _

theorem paramNames_alike (items : List Value) (h : m.Knows Renaming.values items) :
    Alike r Renaming.plain m (paramNames items) (paramNames (r.values items)) := by
  induction items generalizing m with
  | nil => exact .pure fun _ _ _ => rfl
  | cons v vs ih =>
    cases v with
    | symbol name => exact (ih h.tail).map fun _ _ _ _ => ⟨fun _ _ _ => rfl, rfl⟩
    | _ => exact (Alike.inspect h.head).bind fun _ _ _ _ => misuse_alike _ _

theorem body_value (r : Renaming) (forms : List Value) :
    body (r.values forms) = r.value (body forms) := by
  match forms with
  | [] | [_] => rfl
  | v :: w :: rest =>
    show Value.form (.symbol sequence.name :: r.values (v :: w :: rest)) = r.value (.form _)
    rw [r.value_form, r.values_eq_map]
    rfl

theorem knows_body (h : m.Knows Renaming.values parts) : m.Knows Renaming.value (body parts) := by
  intro s t hagree
  rw [← body_value, ← body_value, h s t hagree]

theorem clause?_value (r : Renaming) (v : Value) :
    clause? (r.value v) = (clause? v).map fun named => (named.1, r.value named.2) := by
  cases v with
  | list serial items =>
    match items with
    | [] => rfl
    | [w] => cases w <;> rfl
    | [w, x] => cases w <;> first | rfl | (cases x <;> rfl)
    | [w, x, y] =>
      cases w with
      | symbol keyword =>
        cases x with
        | symbol name =>
          show (if keyword = "catch*" then some (name, r.value y) else none) =
            (if keyword = "catch*" then some (name, y) else none).map _
          split <;> rfl
        | _ => rfl
      | _ => rfl
    | w :: x :: y :: z :: rest => cases w <;> first | rfl | (cases x <;> rfl)
  | _ => rfl

theorem knows_handler {clause handler : Value} {name : String}
    (hclause : m.Knows Renaming.value clause) (h : clause? clause = some (name, handler)) :
    m.Knows Renaming.value handler := by
  intro s t hagree
  have hs := clause?_value s clause
  rw [hclause s t hagree, clause?_value, h] at hs
  exact (Prod.mk.inj (Option.some.inj hs)).2.symm

theorem only_alike (form : SpecialForm) (h : m.Knows Renaming.values parts) :
    Alike r Renaming.value m (form.only parts) (form.only (r.values parts)) := by
  match parts, h with
  | [], _ => exact misuse_alike _ _
  | [v], h => exact .pure h.head
  | _ :: _ :: _, _ => exact misuse_alike _ _

theorem expandTemplate_alike {template : Value} (h : m.Knows Renaming.value template) :
    Alike r Renaming.value m (expandTemplate template) (expandTemplate (r.value template)) := by
  refine .get_bind ?_
  intro n n' hmn hr
  rw [Template.depth_value, hr.host]
  split
  · exact Template.expand_alike n template (h.mono hmn)
  · exact .stop fun _ => rfl

theorem evalFunction_alike {frame : FrameId} (hframe : m.Knows Renaming.frameId frame)
    (h : m.Knows Renaming.values parts) :
    Alike r Renaming.value m (evalFunction frame parts)
      (evalFunction (r.frameId frame) (r.values parts)) := by
  match parts, h with
  | [], _ => exact misuse_alike _ _
  | params :: forms, h =>
    simp only [evalFunction, Renaming.values, r.items?_value]
    cases hitems : params.items? with
    | none => exact misuse_alike _ _
    | some items =>
      simp only [Option.map_some, ← r.values_eq_map]
      refine (paramNames_alike items (h.head.items_of_eq hitems)).bind ?_
      intro n names hmn _
      refine Alike.newSerial.bind ?_
      intro o serial hno hserial
      rw [body_value]
      have hclosure : o.Knows Renaming.value
          (.closure serial names (body forms) frame false) :=
        .closure hserial ((knows_body h.tail).mono (hmn.trans hno)) (hframe.mono (hmn.trans hno))
      exact .pure hclosure

end SpecialForm

end AtomLisp
