import AtomLisp.Proofs.FrameChanges
import Mathlib.Data.List.Induction
import Mathlib.Data.List.TakeWhile

/-! # How arguments find their names

  A call of a function or macro binds its parameters to its arguments in a frame of its own. This
  module says which parameters and arguments fit, and what the frame holds if they do.

  * `Entries.keys_insertAll`, `Entries.lookup_insertAll_zip`: what writing pair after pair
    comes to;
  * `Parameters.Fit`: the arguments fit the parameters;
  * `Parameters.Binds`: what the frame of a call binds;
  * `bind_arguments`: arguments that fit are bound so, and others are refused.
-/

namespace AtomLisp

/-! ### Writing pair after pair -/

namespace Entries

variable {α : Type}

theorem insertAll_concat (entries pairs : Entries α) (key : String) (value : α) :
    insertAll entries (pairs ++ [(key, value)]) = insert key value (insertAll entries pairs) :=
  List.foldl_append ..

/-- What is there keeps its place, and new keys come behind it in the order in which they were first
written. -/
theorem keys_insertAll (entries pairs : List (String × α)) :
    keys (insertAll entries pairs) =
      keys entries ++ ((pairs.map Prod.fst).filter (· ∉ keys entries)).eraseDups := by
  induction pairs using List.reverseRecOn with
  | nil => simp [insertAll]
  | append_singleton pairs pair ih =>
    rw [insertAll_concat, keys_insert, ih, List.map_append, List.filter_append,
      List.eraseDups_append]
    -- The last key was there, or has been written before, or is new.
    by_cases hold : pair.1 ∈ keys entries
    · simp [hold, List.removeAll]
    · by_cases hmem : pair.1 ∈ pairs.map Prod.fst
      · simp [hold, hmem, List.removeAll]
      · simp [hold, hmem, List.removeAll, List.eraseDups_cons]

theorem keys_insertAll_nil (pairs : List (String × α)) :
    keys (insertAll [] pairs) = (pairs.map Prod.fst).eraseDups := by
  rw [keys_insertAll, List.filter_eq_self.2 (by simp [keys])]
  rfl

theorem lookup_insertAll_of_notMem {pairs : List (String × α)} {key : String}
    (h : key ∉ pairs.map Prod.fst) (entries : Entries α) :
    (insertAll entries pairs).lookup key = entries.lookup key := by
  induction pairs generalizing entries with
  | nil => rfl
  | cons pair pairs ih =>
    simp only [List.map_cons, List.mem_cons, not_or] at h
    have hrest := ih h.2 (insert pair.1 pair.2 entries)
    rw [lookup_insert_of_ne h.1] at hrest
    exact hrest

/-- Of several values that are written under one key the last one counts. -/
theorem lookup_insertAll_zip {names : List String} {values : List α}
    (hlength : names.length ≤ values.length) {i : Nat} {name : String} (hi : names[i]? = some name)
    (hlast : name ∉ names.drop (i + 1)) (entries : Entries α) :
    (insertAll entries (names.zip values)).lookup name = values[i]? := by
  induction names generalizing values i entries with
  | nil => simp at hi
  | cons first names ih =>
    cases values with
    | nil => simp at hlength
    | cons value values =>
      have hlength' : names.length ≤ values.length := by simpa using hlength
      cases i with
      | zero =>
        obtain rfl : first = name := by simpa using hi
        have hnot : first ∉ (names.zip values).map Prod.fst := by
          rw [List.map_fst_zip hlength']
          exact hlast
        have hrest := lookup_insertAll_of_notMem hnot (insert first value entries)
        rw [lookup_insert_self] at hrest
        exact hrest
      | succ i => exact ih hlength' hi hlast (insert first value entries)

end Entries

namespace Parameters

/-! ### Arguments that fit -/

/-- The arguments fit the parameters: `required` are the parameters that take one argument each,
and `rest?` is the one that takes the others. -/
inductive Fit (args : List Value) : (params required : List String) → (rest? : Option String) → Prop
  /-- The marker does not occur, and there are as many arguments as parameters. -/
  | exact {params : List String} (hmarker : restMarker ∉ params)
      (hlength : args.length = params.length) : Fit args params params none
  /-- One name follows the first marker, and there are arguments for all names before it. -/
  | rest {required : List String} {name : String} (hmarker : restMarker ∉ required)
      (hlength : required.length ≤ args.length) :
      Fit args (required ++ [restMarker, name]) required (some name)

/-- What the frame of a call binds. The list of the remaining arguments is a new one. -/
structure Binds (args : List Value) (required : List String) (rest? : Option String)
    (serial : Serial) (vars : Entries Value) : Prop where
  /-- Each name once, in the order of first definition. -/
  keys : Entries.keys vars = (required ++ rest?.toList).eraseDups
  /-- A name takes the argument at its last occurrence. -/
  single : ∀ (i : Nat) (name : String), required[i]? = some name →
    name ∉ required.drop (i + 1) → rest? ≠ some name →
      ∃ arg, args[i]? = some arg ∧ vars.lookup name = some arg
  /-- The name after the marker takes the others, whatever else it may stand for. -/
  rest : ∀ name, rest? = some name →
    vars.lookup name = some (.list serial (args.drop required.length))

variable {params required : List String} {args : List Value} {rest? : Option String}

theorem Fit.length_le (h : Fit args params required rest?) : required.length ≤ args.length := by
  cases h with
  | exact _ hlength => exact Nat.le_of_eq hlength.symm
  | rest _ hlength => exact hlength

/-! ### The first marker -/

theorem bne_marker_of_notMem (h : restMarker ∉ required) :
    ∀ name ∈ required, (name != restMarker) = true := by
  intro name hname
  simpa using fun heq : name = restMarker => h (heq ▸ hname)

theorem assign_of_notMem (h : restMarker ∉ params) (args : List Value) :
    assign params args =
      if args.length = params.length then .ok ⟨params.zip args, none⟩
      else .error (.count params.length args.length) := by
  have hnil : params.dropWhile (· != restMarker) = [] :=
    List.dropWhile_eq_nil_iff.2 (bne_marker_of_notMem h)
  unfold assign
  rw [hnil]

theorem dropWhile_append_marker (h : restMarker ∉ required) (after : List String) :
    (required ++ restMarker :: after).dropWhile (· != restMarker) = restMarker :: after := by
  rw [List.dropWhile_append_of_pos (bne_marker_of_notMem h)]
  simp

theorem takeWhile_append_marker (h : restMarker ∉ required) (after : List String) :
    (required ++ restMarker :: after).takeWhile (· != restMarker) = required := by
  rw [List.takeWhile_append_of_pos (bne_marker_of_notMem h)]
  simp

theorem assign_append_name (h : restMarker ∉ required) (name : String) (args : List Value) :
    assign (required ++ [restMarker, name]) args =
      if required.length ≤ args.length then
        .ok ⟨required.zip args, some (name, args.drop required.length)⟩
      else .error (.atLeast required.length args.length) := by
  unfold assign
  rw [dropWhile_append_marker h, takeWhile_append_marker h]

/-- Nothing but one name may follow the first marker. -/
theorem assign_append_of_ne {after : List String} (h : restMarker ∉ required)
    (hafter : ∀ name, after ≠ [name]) (args : List Value) :
    assign (required ++ restMarker :: after) args = .error .oneRestName := by
  unfold assign
  rw [dropWhile_append_marker h]
  rcases after with _ | ⟨name, _ | ⟨next, after⟩⟩
  · rfl
  · exact absurd rfl (hafter name)
  · rfl

theorem assign_of_fit (h : Fit args params required rest?) :
    assign params args =
      .ok ⟨required.zip args, rest?.map fun name => (name, args.drop required.length)⟩ := by
  cases h with
  | exact hmarker hlength => rw [assign_of_notMem hmarker, if_pos hlength]; rfl
  | rest hmarker hlength => rw [assign_append_name hmarker, if_pos hlength]; rfl

/-- Whatever is matched fits. -/
theorem fit_of_assign {assignment : Assignment} (h : assign params args = .ok assignment) :
    ∃ required rest?, Fit args params required rest? := by
  by_cases hmem : restMarker ∈ params
  · obtain ⟨required, after, rfl, hmarker⟩ := List.eq_append_cons_of_mem hmem
    by_cases hafter : ∃ name, after = [name]
    · obtain ⟨name, rfl⟩ := hafter
      rw [assign_append_name hmarker] at h
      by_cases hlength : required.length ≤ args.length
      · exact ⟨required, some name, .rest hmarker hlength⟩
      · rw [if_neg hlength] at h
        cases h
    · rw [assign_append_of_ne hmarker (not_exists.1 hafter)] at h
      cases h
  · rw [assign_of_notMem hmem] at h
    by_cases hlength : args.length = params.length
    · exact ⟨params, none, .exact hmem hlength⟩
    · rw [if_neg hlength] at h
      cases h

/-! ### The frame of a call -/

/-- The bindings of the frame of a call. -/
def varsOf (args : List Value) (required : List String) (rest? : Option String)
    (serial : Serial) : Entries Value :=
  Entries.insertAll [] (required.zip args ++
    rest?.toList.map fun name => (name, .list serial (args.drop required.length)))

theorem binds_varsOf (h : Fit args params required rest?) (serial : Serial) :
    Binds args required rest? serial (varsOf args required rest? serial) where
  keys := by
    have hnames : (required.zip args).map Prod.fst = required := List.map_fst_zip h.length_le
    rw [varsOf, Entries.keys_insertAll_nil, List.map_append, hnames, List.map_map]
    simp [Function.comp_def]
  single i name hi hlast hrest := by
    have hlookup : (varsOf args required rest? serial).lookup name = args[i]? := by
      rw [← Entries.lookup_insertAll_zip h.length_le hi hlast []]
      cases rest? with
      | none => simp [varsOf]
      | some other =>
        have hne : name ≠ other := fun heq => hrest (heq ▸ rfl)
        exact (congrArg (List.lookup name) (Entries.insertAll_concat ..)).trans
          (Entries.lookup_insert_of_ne hne ..)
    have hlt : i < args.length := by
      have := (List.getElem?_eq_some_iff.1 hi).1
      have := h.length_le
      omega
    exact ⟨args[i], List.getElem?_eq_getElem hlt, hlookup.trans (List.getElem?_eq_getElem hlt)⟩
  rest name hname := by
    subst hname
    exact (congrArg (List.lookup name) (Entries.insertAll_concat ..)).trans
      (Entries.lookup_insert_self ..)

theorem bind_of_fit (h : Fit args params required rest?) (home : FrameId) (m : Machine) :
    bind params args home m =
      .done m.frames.size
        ({ m with nextSerial := m.nextSerial + rest?.toList.length }.pushFrame (some home)
          (varsOf args required rest? m.nextSerial)) := by
  unfold bind
  rw [assign_of_fit h]
  cases rest? with
  | none => simp [varsOf]; rfl
  | some name =>
    have hvars : varsOf args required (some name) m.nextSerial = _ := Entries.insertAll_concat ..
    rw [hvars]
    rfl

/-- **A call binds its parameters to its arguments, or fails cleanly.** It succeeds if and only if
the arguments fit the parameters. Then there is a new frame below that of the closure, which binds
the names to the arguments; the list of remaining arguments takes a serial number, and everything
else stays as it was. Otherwise the arguments are refused, and the machine stays as it was. -/
theorem bind_arguments (params : List String) (args : List Value) (home : FrameId) (m : Machine)
    (hhome : home < m.frames.size) :
    ((∃ frame n, bind params args home m = .done frame n) ↔
      ∃ required rest?, Fit args params required rest?) ∧
    (∀ required rest?, Fit args params required rest? → ∃ vars n,
      bind params args home m = .done m.frames.size n ∧
      Binds args required rest? m.nextSerial vars ∧
      n.frames.get? m.frames.size = some ⟨vars, some home⟩ ∧
      (∀ id < m.frames.size, n.frames.get? id = m.frames.get? id) ∧
      n = { m with frames := n.frames, nextSerial := m.nextSerial + rest?.toList.length }) ∧
    ((¬ ∃ required rest?, Fit args params required rest?) →
      ∃ misuse, bind params args home m = .failed (.invalidArguments "fn*" misuse) m) := by
  have hfailed : (¬ ∃ required rest?, Fit args params required rest?) →
      ∃ misuse, bind params args home m = .failed (.invalidArguments "fn*" misuse) m := by
    intro hnot
    cases hassign : assign params args with
    | ok assignment => exact absurd (fit_of_assign hassign) hnot
    | error misuse =>
      refine ⟨misuse, ?_⟩
      unfold bind
      rw [hassign]
      rfl
  refine ⟨⟨?_, ?_⟩, ?_, hfailed⟩
  · rintro ⟨frame, n, hdone⟩
    by_contra hnot
    obtain ⟨misuse, hmisuse⟩ := hfailed hnot
    rw [hmisuse] at hdone
    cases hdone
  · rintro ⟨required, rest?, hfit⟩
    exact ⟨_, _, bind_of_fit hfit home m⟩
  · intro required rest? hfit
    refine ⟨_, _, bind_of_fit hfit home m, binds_varsOf hfit m.nextSerial, ?_, ?_, rfl⟩
    · show (m.frames.push (some home) _).get? m.frames.size = _
      rw [Frames.get?_push, if_pos rfl, Option.filter_some, if_pos (by simpa using hhome)]
    · intro id hid
      exact Frames.get?_push_of_lt hid ..

/-- A name that is repeated takes its last argument, the marker may itself be the name for the
others, and there has to be such a name. -/
theorem bind_repeatedNames :
    let args : List Value := [.int 1, .int 2, .int 3, .int 4]
    1 < siblings.frames.size ∧
      Fit args ["a", "b", "a", "&", "&"] ["a", "b", "a"] (some "&") ∧
      (∃ vars n, bind ["a", "b", "a", "&", "&"] args 1 siblings = .done siblings.frames.size n ∧
        n.frames.get? siblings.frames.size = some ⟨vars, some 1⟩ ∧
        Entries.keys vars = ["a", "b", "&"] ∧ vars.lookup "a" = some (.int 3) ∧
        vars.lookup "&" = some (.list siblings.nextSerial [.int 4])) ∧
      (¬ ∃ required rest?, Fit args ["a", "&"] required rest?) ∧
      ∃ misuse, bind ["a", "&"] args 1 siblings = .failed (.invalidArguments "fn*" misuse)
        siblings := by
  intro args
  have hhome : 1 < siblings.frames.size := by decide
  have hfit : Fit args ["a", "b", "a", "&", "&"] ["a", "b", "a"] (some "&") :=
    show Fit args (["a", "b", "a"] ++ [restMarker, "&"]) ["a", "b", "a"] (some "&") from
      .rest (by decide) (by decide)
  obtain ⟨-, hdone, -⟩ := bind_arguments ["a", "b", "a", "&", "&"] args 1 siblings hhome
  obtain ⟨vars, n, hbind, hbinds, hframe, -⟩ := hdone _ _ hfit
  obtain ⟨arg, harg, ha⟩ := hbinds.single 2 "a" rfl (by decide) (by decide)
  cases harg
  obtain ⟨hiff, -, hfailed⟩ := bind_arguments ["a", "&"] args 1 siblings hhome
  have hnot : ¬ ∃ required rest?, Fit args ["a", "&"] required rest? := by
    rw [← hiff]
    rintro ⟨frame, n, hbind⟩
    have hvalue : (bind ["a", "&"] args 1 siblings).value? = none := by decide +kernel
    rw [hbind] at hvalue
    cases hvalue
  exact ⟨hhome, hfit, ⟨vars, n, hbind, hframe, hbinds.keys, ha, hbinds.rest "&" rfl⟩, hnot,
    hfailed hnot⟩

end Parameters

end AtomLisp
