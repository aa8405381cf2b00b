import AtomLisp.Proofs.FrameChanges
import AtomLisp.Proofs.Quasiquote
import AtomLisp.Proofs.Reading.Wrapping
import AtomLisp.Proofs.Renaming.Sessions
import AtomLisp.Proofs.RoundTrip

/-! # Loading files

  The prelude's `load-file` wraps the text of a file, reads the wrapped text as one form and
  evaluates that form. This module shows that it evaluates the forms of the file one after another
  in the root frame.

  * `Reader.readFirst_wrapped`: the wrapped text of a file reads as one form, with the forms of the
    file in it, whatever comments the text has;
  * `Machine.LoadsFrom.complete_call`: the call evaluates what the wrapped text reads as;
  * `Machine.LoadsFrom.complete_loadFile`: these are the forms, in a machine that has a
    frame for the call and has given the forms their numbers (`Machine.loading`);
  * `Machine.Proper.matches_loading`: frame and numbers make no difference;
  * `evaluate_loadFile`: so the call does what the forms do.
-/

namespace AtomLisp

/-! ### The wrapped text -/

/-- The form that `load-file` makes of the forms of a file. -/
def wrappedForm (forms : List Value) : Value := .form (.symbol "do" :: (forms ++ [.nil]))

/-- The wrapped text of a file reads as the one form that wraps the forms of the file. -/
theorem Reader.readFirst_wrapped {nesting limit : Nat} {content : String} {forms : List Value}
    (h : readAll nesting content = (forms, none)) (hlimit : nesting + 2 < limit) :
    readFirst limit (wrapped content) = .ok (wrappedForm forms) :=
  readFirst_of_completes (.of_readAll h) hlimit

/-! ### The function -/

/-- A text is read by its characters. -/
theorem Reader.readAll_of_toList {nesting : Nat} {text : String} {cs : List Char}
    (h : text.toList = cs) :
    readAll nesting text =
      run nesting (Token.trailingFault cs.length (Token.split cs).2) [] (Token.split cs).1 := by
  subst h
  rfl

namespace Prelude

/-- The body of the function as it is written; its lists may have any serial numbers. -/
def loadFileBody (s₁ s₂ s₃ s₄ : Serial) : Value :=
  .list s₁ [.symbol "eval", .list s₂ [.symbol "read-string", .list s₃
    [.symbol "str", .text "(do ", .list s₄ [.symbol "slurp", .symbol "f"], .text "\nnil)"]]]

theorem value_loadFileBody (r : Renaming) (s₁ s₂ s₃ s₄ : Serial) :
    r.value (loadFileBody s₁ s₂ s₃ s₄) =
      loadFileBody (r.serial s₁) (r.serial s₂) (r.serial s₃) (r.serial s₄) := rfl

/-- The value is the function that the prelude binds to `load-file`. -/
def IsLoadFile (v : Value) : Prop :=
  ∃ serial s₁ s₂ s₃ s₄,
    v = .closure serial ["f"] (loadFileBody s₁ s₂ s₃ s₄) Session.root false

set_option maxRecDepth 4000 in
/-- So the prelude defines it. -/
theorem loadFile_mem_prelude :
    .form [.symbol "def!", .symbol "load-file",
      .form [.symbol "fn*", .form [.symbol "f"], loadFileBody 0 0 0 0]] ∈
        (Reader.readAll Limits.leastSteps text).1 := by
  have hchars : text.toList = _ := String.toList_ofList
  rw [Reader.readAll_of_toList hchars]
  decide +kernel

end Prelude

/-- In the frame `load-file` is the function of the prelude, and what it uses is in the root frame
as it was installed. -/
structure Machine.LoadsFrom (m : Machine) (frame : FrameId) : Prop where
  loadFile   : ∃ v, m.frames.lookup? "load-file" frame = some v ∧ Prelude.IsLoadFile v
  eval       : m.frames.lookup? "eval" Session.root = some (.builtin (.action .eval))
  readString : m.frames.lookup? "read-string" Session.root = some (.builtin (.query .readString))
  str        : m.frames.lookup? "str" Session.root = some (.builtin (.query .str))
  slurp      : m.frames.lookup? "slurp" Session.root = some (.builtin (.query .slurp))
  plainDo    : m.NoMacro "do" Session.root

namespace Frames

variable {frames : Frames} {name : String} {v : Value}

/-- The first frame is a root. -/
theorem get?_root_of_lookup? (h : frames.lookup? name Session.root = some v) :
    ∃ frame, frames.get? Session.root = some frame ∧ frame.outer = none := by
  cases hget : frames.get? Session.root with
  | none =>
    rw [lookup?_of_none hget] at h
    cases h
  | some frame =>
    refine ⟨frame, rfl, ?_⟩
    cases houter : frame.outer with
    | none => rfl
    | some outer => exact absurd (frames.outer_lt _ frame outer hget houter) (Nat.not_lt_zero _)

variable {root : FrameId} {frame : Frame}

theorem get?_push_self (hroot : frames.get? root = some frame) (vars : Entries Value) :
    (frames.push (some root) vars).get? frames.size = some ⟨vars, some root⟩ := by
  have hlt : root < frames.toArray.size := lt_size_of_get? hroot
  simp [get?, push, size, hlt]

theorem get?_push_root (hroot : frames.get? root = some frame) (vars : Entries Value) :
    (frames.push (some root) vars).get? root = some frame := by
  rw [get?_push_of_lt (lt_size_of_get? hroot), hroot]

/-- What a frame below a root does not bind is looked up there. -/
theorem lookup?_push_self (hroot : frames.get? root = some frame) (houter : frame.outer = none)
    (vars : Entries Value) (name : String) :
    (frames.push (some root) vars).lookup? name frames.size =
      (vars.lookup name).or (frames.lookup? name root) := by
  rw [lookup?_of_outer (get?_push_self hroot vars) rfl, lookup?_of_root hroot houter,
    lookup?_of_root (get?_push_root hroot vars) houter]

theorem lookup?_push_one (hroot : frames.get? root = some frame) (houter : frame.outer = none)
    (name : String) (v : Value) (other : String) :
    (frames.push (some root) [(name, v)]).lookup? other frames.size =
      if other = name then some v else frames.lookup? other root := by
  rw [lookup?_push_self hroot houter]
  by_cases hname : other = name
  · simp [hname]
  · have hne : (other == name) = false := by simpa using hname
    simp [List.lookup_cons, hne, hname]

/-- What is bound in a frame that is there does not change when one more is made. -/
theorem lookup?_push_of_lt {id : FrameId} (h : id < frames.size) (outer : Option FrameId)
    (vars : Entries Value) (name : String) :
    (frames.push outer vars).lookup? name id = frames.lookup? name id := by
  -- Outer frames are older, so the walk outward is an induction on the number of the frame.
  induction id using Nat.strongRecOn with
  | ind id ih =>
    obtain ⟨frame, hget⟩ := exists_get? h
    have hget' : (frames.push outer vars).get? id = some frame := by
      rw [get?_push_of_lt h, hget]
    cases houter : frame.outer with
    | none => rw [lookup?_of_root hget houter, lookup?_of_root hget' houter]
    | some out =>
      have hlt : out < id := frames.outer_lt id frame out hget houter
      rw [lookup?_of_outer hget houter, lookup?_of_outer hget' houter,
        ih out hlt (Nat.lt_trans hlt h)]

theorem lookup?_push_root (hroot : frames.get? root = some frame) (vars : Entries Value)
    (name : String) :
    (frames.push (some root) vars).lookup? name root = frames.lookup? name root :=
  lookup?_push_of_lt (lt_size_of_get? hroot) (some root) vars name

theorem root_push_self (hroot : frames.get? root = some frame) (houter : frame.outer = none)
    (vars : Entries Value) : (frames.push (some root) vars).root frames.size = root := by
  rw [root_of_outer (get?_push_self hroot vars) rfl,
    root_of_root (get?_push_root hroot vars) houter]

end Frames

/-! ### Its evaluation -/

namespace Caller

variable {m m' n : Machine} {frame : FrameId} {name : String} {args vs : List Value} {v : Value}

/-- A call of a builtin that only looks. -/
theorem complete_query {q : Builtin.Query} (hname : SpecialForm.ofName? name = none)
    (h : m.frames.lookup? name frame = some (.builtin (.query q)))
    (hargs : unbounded.values frame args m = .done vs m') (serial : Serial) :
    unbounded.complete (.list serial (.symbol name :: args)) frame m =
      (Run.ofExcept (q.answer m' vs) >>= Answer.make) m' := by
  rw [complete_builtin hname h, Run.bind_apply, hargs]
  show (Run.read (q.answer · vs) >>= Answer.make) m' = _
  simp only [Run.bind_apply, Run.read]
  cases q.answer m' vs <;> rfl

theorem values_cons {form : Value} {forms : List Value}
    (hv : unbounded.complete form frame m = .done v m')
    (hvs : unbounded.values frame forms m' = .done vs n) :
    unbounded.values frame (form :: forms) m = .done (v :: vs) n := by
  simp only [values, value_eq_complete, Run.bind_apply, hv, hvs]
  rfl

theorem complete_text (s : String) : unbounded.complete (.text s) frame m = .done (.text s) m :=
  complete_of_evalForm rfl rfl

/-- What `do` does with forms that have their numbers, and `nil` after them. -/
theorem sequence_append_nil (forms : List Value) (h : ∀ form ∈ forms, form.Numbered) (m : Machine) :
    (unbounded.sequence true Session.root (forms ++ [.nil]) >>= unbounded.settle) m =
      (Session.evalEach unbounded forms >>= fun _ => pure .nil) m := by
  induction forms generalizing m with
  | nil =>
    show unbounded.complete .nil Session.root m = _
    rw [complete_of_evalForm rfl rfl]
    rfl
  | cons form forms ih =>
    have hforms : ∀ form ∈ forms, form.Numbered := fun f hf => h f (List.mem_cons_of_mem _ hf)
    have hnumber : Run.number form m = .done form m := by
      simp only [Run.number, h form (List.mem_cons_self ..) m.nextSerial]
    have hsequence : unbounded.sequence true Session.root (form :: forms ++ [.nil]) =
        unbounded.value form Session.root >>= fun _ =>
          unbounded.sequence true Session.root (forms ++ [.nil]) := by
      cases forms <;> rfl
    have hforms' :
        (Session.evalEach unbounded (form :: forms) >>= fun _ => pure .nil : Run Value) m =
          (unbounded.complete form Session.root >>= fun _ =>
            Session.evalEach unbounded forms >>= fun _ => pure .nil : Run Value) m := by
      rw [Session.evalEach]
      simp only [bind_assoc, pure_bind]
      rw [Run.bind_apply, hnumber]
    rw [hforms', hsequence, value_eq_complete, bind_assoc, Run.bind_apply, Run.bind_apply]
    cases unbounded.complete form Session.root m with
    | done v m' => exact ih hforms m'
    | _ => rfl

theorem complete_do (hplain : m.NoMacro "do" Session.root) (serial : Serial) (forms : List Value)
    (h : ∀ form ∈ forms, form.Numbered) :
    unbounded.complete (.list serial (.symbol "do" :: (forms ++ [.nil]))) Session.root m =
      (Session.evalEach unbounded forms >>= fun _ => pure .nil) m := by
  rw [complete_of_none (Machine.macroCall?_eq_none hplain serial _)]
  exact sequence_append_nil forms h m

end Caller

/-- The machine in which `load-file` evaluates the forms of a file: the call has its frame, and the
form that was read has its numbers. -/
def Machine.loading (m : Machine) (path : String) (forms : List Value) : Machine :=
  { m.pushFrame (some Session.root) [("f", .text path)] with
    nextSerial := (Value.numberAll (m.nextSerial + 1) forms).2 }

theorem Value.numberAll_append_nil (next : Serial) (forms : List Value) :
    numberAll next (forms ++ [.nil]) =
      ((numberAll next forms).1 ++ [.nil], (numberAll next forms).2) := by
  induction forms generalizing next with
  | nil => rfl
  | cons form forms ih => simp only [List.cons_append, numberAll, ih]

theorem Machine.number_wrappedForm (m : Machine) (path : String) (forms : List Value) :
    Run.number (wrappedForm forms) (m.pushFrame (some Session.root) [("f", .text path)]) =
      .done (.list m.nextSerial
        (.symbol "do" :: ((Value.numberAll (m.nextSerial + 1) forms).1 ++ [.nil])))
        (m.loading path forms) := by
  have hnumber : (wrappedForm forms).number m.nextSerial =
      (.list m.nextSerial (.symbol "do" ::
        ((Value.numberAll (m.nextSerial + 1) forms).1 ++ [.nil])),
        (Value.numberAll (m.nextSerial + 1) forms).2) := by
    simp only [wrappedForm, Value.number, Value.numberAll, Value.numberAll_append_nil]
  show Result.done ((wrappedForm forms).number m.nextSerial).1
    { m.pushFrame (some Session.root) [("f", .text path)] with
      nextSerial := ((wrappedForm forms).number m.nextSerial).2 } = _
  rw [hnumber]
  rfl

namespace Machine.LoadsFrom

variable {m : Machine} {frame : FrameId} {path content : String} {forms : List Value}
  {nesting : Nat}

/-- In the frame of the call, the parameter is bound to the path; other names are those of the root
frame. -/
theorem lookup?_call (h : m.LoadsFrom frame) (name : String) :
    (m.frames.push (some Session.root) [("f", .text path)]).lookup? name m.frames.size =
      if name = "f" then some (.text path) else m.frames.lookup? name Session.root := by
  obtain ⟨root, hroot, houter⟩ := Frames.get?_root_of_lookup? h.eval
  exact Frames.lookup?_push_one hroot houter "f" (.text path) name

/-- The text that the file is wrapped in is no keyword; the text of the file stands in between as
it is printed. -/
theorem printed_wrapped (content : String) (hnesting : 0 < m.host.limits.nesting) :
    Texts.printed m false "" [.text "(do ", .text content, .text "\nnil)"] =
      .ok (.value (.text (wrapped (Value.printText false content)))) := by
  obtain ⟨n, hn⟩ : ∃ n, m.host.limits.nesting = n + 1 := Nat.exists_eq_add_of_le' hnesting
  have hstart : Value.printText false "(do " = "(do " := by decide +kernel
  have hend : Value.printText false "\nnil)" = "\nnil)" := by decide +kernel
  have hprinted : ∀ s, Value.print m.cells false (n + 1) (.text s) =
      .ok (Value.printText false s) := fun s => by rw [Value.print]
  unfold Texts.printed Machine.printAll Value.printAll
  rw [hn]
  simp only [List.mapM_cons, List.mapM_nil, hprinted, hstart, hend]
  show Except.ok (Answer.value (.text ("".intercalate
    ["(do ", Value.printText false content, "\nnil)"]))) = _
  have hjoin : "".intercalate ["(do ", Value.printText false content, "\nnil)"] =
      "(do " ++ "" ++ Value.printText false content ++ "" ++ "\nnil)" := rfl
  rw [hjoin, String.append_empty, String.append_empty]
  rfl

/-- The body of the function reads the wrapped text and evaluates its form in the root frame. -/
theorem complete_body (h : m.LoadsFrom frame)
    (hcontent : Texts.contentOf m [.text path] = .ok (.value (.text content)))
    (hnesting : 0 < m.host.limits.nesting) (s₁ s₂ s₃ s₄ : Serial) :
    Caller.unbounded.complete (Prelude.loadFileBody s₁ s₂ s₃ s₄) m.frames.size
        (m.pushFrame (some Session.root) [("f", .text path)]) =
      (Run.ofExcept (Reader.readFirst m.host.limits.nesting
          (wrapped (Value.printText false content))) >>= fun form => Run.number form >>=
        fun v => Caller.unbounded.complete v Session.root)
          (m.pushFrame (some Session.root) [("f", .text path)]) := by
  obtain ⟨root, hroot, houter⟩ := Frames.get?_root_of_lookup? h.eval
  let m₁ := m.pushFrame (some Session.root) [("f", .text path)]
  have hlookup : ∀ name, m₁.frames.lookup? name m.frames.size =
      if name = "f" then some (.text path) else m.frames.lookup? name Session.root :=
    h.lookup?_call
  have hnil : Caller.unbounded.values m.frames.size [] m₁ = .done [] m₁ := rfl
  -- The text of the file
  have hf : Caller.unbounded.complete (.symbol "f") m.frames.size m₁ = .done (.text path) m₁ :=
    Caller.complete_symbol (hlookup "f")
  have hslurp : Caller.unbounded.complete (.list s₄ [.symbol "slurp", .symbol "f"]) m.frames.size
      m₁ = .done (.text content) m₁ := by
    have hanswer : Builtin.Query.answer .slurp m₁ [.text path] = .ok (.value (.text content)) :=
      hcontent
    rw [Caller.complete_query (by decide) ((hlookup "slurp").trans h.slurp)
      (Caller.values_cons hf hnil), hanswer]
    rfl
  -- The wrapped text
  have hstr : Caller.unbounded.complete (.list s₃ [.symbol "str", .text "(do ",
      .list s₄ [.symbol "slurp", .symbol "f"], .text "\nnil)"]) m.frames.size m₁ =
        .done (.text (wrapped (Value.printText false content))) m₁ := by
    have hanswer : Builtin.Query.answer .str m₁ [.text "(do ", .text content, .text "\nnil)"] =
        .ok (.value (.text (wrapped (Value.printText false content)))) :=
      printed_wrapped (m := m₁) content hnesting
    rw [Caller.complete_query (by decide) ((hlookup "str").trans h.str)
      (Caller.values_cons (Caller.complete_text _) (Caller.values_cons hslurp
        (Caller.values_cons (Caller.complete_text _) hnil))), hanswer]
    rfl
  -- The wrapped form
  have hform : Caller.unbounded.complete (.list s₂ [.symbol "read-string", .list s₃ [.symbol "str",
      .text "(do ", .list s₄ [.symbol "slurp", .symbol "f"], .text "\nnil)"]]) m.frames.size m₁ =
        (Run.ofExcept (Reader.readFirst m.host.limits.nesting
          (wrapped (Value.printText false content))) >>= Run.number) m₁ := by
    rw [Caller.complete_query (by decide) ((hlookup "read-string").trans h.readString)
      (Caller.values_cons hstr hnil)]
    show (Run.ofExcept (Reader.readFirst m.host.limits.nesting
      (wrapped (Value.printText false content)) >>= fun form => pure (Answer.form form)) >>=
        Answer.make) m₁ = _
    cases Reader.readFirst m.host.limits.nesting (wrapped (Value.printText false content)) <;> rfl
  -- Its evaluation
  rw [Prelude.loadFileBody, Caller.complete_builtin (by decide) ((hlookup "eval").trans h.eval)]
  simp only [Caller.values, Caller.value_eq_complete, Run.bind_apply]
  rw [hform]
  cases Reader.readFirst m.host.limits.nesting (wrapped (Value.printText false content)) with
  | error e => rfl
  | ok form =>
    have hroot' : m₁.frames.root m.frames.size = Session.root :=
      Frames.root_push_self hroot houter _
    show Caller.unbounded.complete _ (m₁.frames.root m.frames.size) _ = _
    rw [hroot']
    rfl

/-- The call does what the body of the function does in a frame of its own. -/
theorem complete_call (h : m.LoadsFrom frame)
    (hcontent : Texts.contentOf m [.text path] = .ok (.value (.text content)))
    (hnesting : 0 < m.host.limits.nesting) (serial : Serial) :
    Caller.unbounded.complete (.list serial [.symbol "load-file", .text path]) frame m =
      (Run.ofExcept (Reader.readFirst m.host.limits.nesting
          (wrapped (Value.printText false content))) >>= fun form => Run.number form >>=
        fun v => Caller.unbounded.complete v Session.root)
          (m.pushFrame (some Session.root) [("f", .text path)]) := by
  obtain ⟨v, hv, closureSerial, s₁, s₂, s₃, s₄, rfl⟩ := h.loadFile
  have hcall : m.NoMacro "load-file" frame := by
    intro w hw
    rw [hv] at hw
    cases hw
    rfl
  have hhead : Caller.unbounded.headValue (.symbol "load-file") frame m =
      .done (.closure closureSerial ["f"] (Prelude.loadFileBody s₁ s₂ s₃ s₄) Session.root false)
        m := by
    rw [Caller.headValue_eq_value, Caller.value_eq_complete, Caller.complete_symbol hv]
  have hargs : Caller.unbounded.values frame [.text path] m = .done [.text path] m :=
    Caller.values_cons (Caller.complete_text path) rfl
  have hform : Caller.unbounded.evalForm true (.list serial [.symbol "load-file", .text path])
      frame m = .done (.tailCall (Prelude.loadFileBody s₁ s₂ s₃ s₄) m.frames.size)
        (m.pushFrame (some Session.root) [("f", .text path)]) := by
    have hspecial : SpecialForm.ofName? "load-file" = none := by decide
    simp only [Caller.evalForm, Caller.evalForm.specialForm?, hspecial, Run.bind_apply, hhead,
      hargs]
    rfl
  rw [Caller.complete_of_none (Machine.macroCall?_eq_none hcall serial [.text path]),
    Run.bind_apply, hform]
  show Caller.unbounded.settle (.tailCall _ _) _ = _
  rw [Caller.settle_tailCall, h.complete_body hcontent hnesting]

/-- The call evaluates the forms of the file. -/
theorem complete_loadFile (h : m.LoadsFrom frame)
    (hcontent : Texts.contentOf m [.text path] = .ok (.value (.text content)))
    (hplain : Keyword.isKeyword content = false)
    (hread : Reader.readAll nesting content = (forms, none))
    (hnesting : nesting + 2 < m.host.limits.nesting) (serial : Serial) :
    Caller.unbounded.complete (.list serial [.symbol "load-file", .text path]) frame m =
      (Session.evalEach Caller.unbounded (Value.numberAll (m.nextSerial + 1) forms).1 >>= fun _ =>
        pure .nil : Run Value) (m.loading path forms) := by
  obtain ⟨root, hroot, houter⟩ := Frames.get?_root_of_lookup? h.eval
  have hdo : (m.loading path forms).NoMacro "do" Session.root := by
    intro w hw
    refine h.plainDo w ?_
    rw [← hw]
    exact (Frames.lookup?_push_root hroot _ "do").symm
  have hnumbered := Value.numbered_numberAll (Nat.succ_pos m.nextSerial) forms
  have hprinted : Value.printText false content = content := by simp [Value.printText, hplain]
  have hfirst : Reader.readFirst m.host.limits.nesting (wrapped content) =
      .ok (wrappedForm forms) := Reader.readFirst_wrapped hread hnesting
  rw [h.complete_call hcontent (Nat.zero_lt_of_lt hnesting), hprinted, hfirst]
  show (Run.number (wrappedForm forms) >>= fun v =>
    Caller.unbounded.complete v Session.root) _ = _
  rw [Run.bind_apply, m.number_wrappedForm path forms]
  exact Caller.complete_do hdo _ _ hnumbered

end Machine.LoadsFrom

/-- Another name of the root frame does not matter. -/
theorem Machine.LoadsFrom.define_of_ne {m : Machine} {name : String}
    (h : m.LoadsFrom Session.root)
    (hname : name ∉ ["load-file", "eval", "read-string", "str", "slurp", "do"]) (v : Value) :
    (m.define Session.root name v).LoadsFrom Session.root := by
  obtain ⟨root, hroot, houter⟩ := Frames.get?_root_of_lookup? h.eval
  have hroot' : (m.frames.define Session.root name v).get? Session.root =
      some { root with vars := Entries.insert name v root.vars } := by
    rw [Frames.get?_define_self, hroot]
    rfl
  have hlookup : ∀ other, other ≠ name →
      (m.frames.define Session.root name v).lookup? other Session.root =
        m.frames.lookup? other Session.root := by
    intro other hother
    rw [Frames.lookup?_of_root hroot' houter, Frames.lookup?_of_root hroot houter,
      Entries.lookup_insert_of_ne hother]
  simp only [List.mem_cons, List.not_mem_nil, or_false, not_or] at hname
  obtain ⟨hload, heval, hread, hstr, hslurp, hdo⟩ := hname
  obtain ⟨f, hf, hprelude⟩ := h.loadFile
  exact
    { loadFile := ⟨f, (hlookup _ (Ne.symm hload)).trans hf, hprelude⟩
      eval := (hlookup _ (Ne.symm heval)).trans h.eval
      readString := (hlookup _ (Ne.symm hread)).trans h.readString
      str := (hlookup _ (Ne.symm hstr)).trans h.str
      slurp := (hlookup _ (Ne.symm hslurp)).trans h.slurp
      plainDo := fun w hw => h.plainDo w ((hlookup _ (Ne.symm hdo)).symm.trans hw) }

/-! ### A session with a file -/

namespace Machine

/-- A session's machine with a file, in whose root frame `load-file` is bound as in the prelude. -/
def withFile (limits : Limits) (content : String) : Machine :=
  let m := Session.machine
    { files := ⟨["home"], [(["home", "a.mal"], .file content.toUTF8)]⟩, clock := fun _ => 0,
      journal := .unset, limits } .ended []
  define { m with nextSerial := m.nextSerial + 5 } Session.root "load-file"
    (.closure 1 ["f"] (Prelude.loadFileBody 2 3 4 5) Session.root false)

theorem proper_withFile (limits : Limits) (content : String) :
    (withFile limits content).Proper := by
  let m := Session.machine
    { files := ⟨["home"], [(["home", "a.mal"], .file content.toUTF8)]⟩, clock := fun _ => 0,
      journal := .unset, limits } .ended []
  obtain ⟨hm, hroot⟩ : m.Proper ∧ Session.root < m.frames.size := Session.proper_machine ..
  have hknown : ∀ serial : Nat, serial < 6 →
      Knows { m with nextSerial := m.nextSerial + 5 } Renaming.serial serial :=
    fun serial h r s hagree => hagree.serial serial h
  have hbody : Knows { m with nextSerial := m.nextSerial + 5 } Renaming.value
      (Prelude.loadFileBody 2 3 4 5) := by
    intro r s h
    rw [Prelude.value_loadFileBody, Prelude.value_loadFileBody, hknown 2 (by decide) r s h,
      hknown 3 (by decide) r s h, hknown 4 (by decide) r s h, hknown 5 (by decide) r s h]
  exact (hm.skipSerials 5).define _ _
    (.closure (hknown 1 (by decide)) hbody (.frameId_of_lt hroot))

theorem lookup?_withFile (limits : Limits) (content name : String) :
    (withFile limits content).frames.lookup? name Session.root =
      (withFile .least "").frames.lookup? name Session.root := rfl

theorem loadsFrom_withFile (limits : Limits) (content : String) :
    (withFile limits content).LoadsFrom Session.root := by
  have hdo : (withFile .least "").frames.lookup? "do" Session.root = none := by decide +kernel
  constructor
  case loadFile =>
    refine ⟨.closure 1 ["f"] (Prelude.loadFileBody 2 3 4 5) Session.root false, ?_,
      1, 2, 3, 4, 5, rfl⟩
    rw [lookup?_withFile]
    decide +kernel
  case plainDo =>
    intro v hv
    rw [lookup?_withFile, hdo] at hv
    cases hv
  all_goals
    rw [lookup?_withFile]
    decide +kernel

theorem contentOf_define (m : Machine) (frame : FrameId) (name : String) (v : Value)
    (args : List Value) :
    Texts.contentOf (m.define frame name v) args = Texts.contentOf m args := rfl

theorem contentOf_withFile (limits : Limits) {content : String}
    (h : String.ofList (FileTree.unifyLines content.toList) = content) :
    Texts.contentOf (withFile limits content) [.text "a.mal"] = .ok (.value (.text content)) := by
  have hresolve : (withFile limits content).host.files.resolve (Path.ofString "a.mal") =
      .ok (.file content.toUTF8) := rfl
  have hutf8 : String.fromUTF8? content.toUTF8 = some content := dif_pos content.isValidUTF8
  have hread : (withFile limits content).host.files.readText (Path.ofString "a.mal") =
      .ok content := by
    simp only [FileTree.readText, hresolve, hutf8, h]
  have hname : "a.mal".toList.contains '\x00' = false := by decide
  have harg : Arguments.oneText Builtin.Query.slurp.name [.text "a.mal"] = .ok "a.mal" := rfl
  simp only [Texts.contentOf, harg, bind, Except.bind, hname, hread, Bool.false_eq_true, if_false]
  rfl

end Machine

/-! ### Loading a file -/

/-- The forms of a file, each with its number when its turn comes, evaluate from the machine itself
to the same as in the call. -/
theorem Machine.Proper.matches_loading {m : Machine} (hm : m.Proper)
    (hknown : Session.root < m.frames.size) (fuel : Nat) (path : String) {forms : List Value}
    (hforms : ∀ r : Renaming, r.values forms = forms) :
    m.Matches ((Session.evalForms fuel forms >>= fun _ => pure .nil : Run Value) m)
      ((Session.evalForms fuel (Value.numberAll (m.nextSerial + 1) forms).1 >>= fun _ =>
        pure .nil : Run Value) (m.loading path forms)) := by
  have hlast := Value.numberAll_snd (m.nextSerial + 1) forms
  have hbelow : m.nextSerial < (Value.numberAll (m.nextSerial + 1) forms).2 :=
    Value.le_numberAll (m.nextSerial + 1) forms
  -- The call has a frame, and all the numbers for the forms are given.
  have hassign : Assignable (Renaming.skipFrame m.frames.size).serial m.nextSerial 0 0
      (Value.numberAll (m.nextSerial + 1) forms).2 :=
    { injective := fun _ _ h => h
      apart := fun _ _ => .inr (Nat.zero_le _)
      below := fun _ h => Nat.lt_trans h hbelow
      le_last := Nat.zero_le _ }
  have hloading := (hm.renamed_pushFrame (some Session.root) [("f", .text path)]).renumber hassign
  have hagree : m.Agree ((Renaming.skipFrame m.frames.size).renumber hm.serial_pos hassign) .id :=
    ⟨fun _ h => assign_of_lt h, fun _ h => assign_of_lt h⟩
  obtain ⟨r, hr, hresult⟩ := Session.evalForms_numberAll fuel hforms hloading
    (hagree.frameId _ hknown) hknown (Nat.succ_pos m.nextSerial)
    (fun serial h => .inl ((hagree.serial serial h).symm ▸ Nat.lt_succ_of_lt h))
    (Nat.le_of_eq hlast.symm)
  exact ⟨r, hr.symm.trans hagree, hresult⟩

/-- The call comes to an end if and only if the forms do once they have their numbers, and to the
same. -/
theorem evaluate_iff_loading {m : Machine} {frame : FrameId} {path content : String}
    {forms : List Value} {nesting : Nat} (hm : m.Unlimited) (hloads : m.LoadsFrom frame)
    (hcontent : Texts.contentOf m [.text path] = .ok (.value (.text content)))
    (hplain : Keyword.isKeyword content = false)
    (hread : Reader.readAll nesting content = (forms, none))
    (hnesting : nesting + 2 < m.host.limits.nesting) (serial : Serial) {x : Result Value}
    (hx : x.Ended) :
    (∃ fuel, evaluate fuel (.list serial [.symbol "load-file", .text path]) frame m = x) ↔
      ∃ fuel, (Session.evalForms fuel (Value.numberAll (m.nextSerial + 1) forms).1 >>= fun _ =>
        pure .nil : Run Value) (m.loading path forms) = x := by
  have hm' : (m.loading path forms).Unlimited := hm
  have hforms := (converging_outermost.evalEach trivial
    (Value.numberAll (m.nextSerial + 1) forms).1).map (fun _ => Value.nil) (R := fun _ => True)
      fun _ _ => trivial
  have hiff := exists_fuel_iff hforms hm' hx
  rw [evaluate_iff hm _ frame hx, hloads.complete_loadFile hcontent hplain hread hnesting serial]
  exact hiff.symm

/-- **Loading a file evaluates its forms in order in the root frame.** The call comes to an end if
and only if the forms do, and to the same as they do: the same output, the same error if there is
one and `nil` otherwise, and the same bindings and atoms. Only the numbers of frames and things made
on the way differ. The machine is proper, as that of every session is (`Session.proper_start`). -/
theorem evaluate_loadFile (m : Machine) (frame : FrameId) (path content : String)
    (forms : List Value) (nesting : Nat) (hm : m.Unlimited) (hproper : m.Proper)
    (hloads : m.LoadsFrom frame)
    (hcontent : Texts.contentOf m [.text path] = .ok (.value (.text content)))
    (hplain : Keyword.isKeyword content = false)
    (hread : Reader.readAll nesting content = (forms, none))
    (hnesting : nesting + 2 < m.host.limits.nesting) (serial : Serial) :
    let call : Nat → Result Value := fun fuel =>
      evaluate fuel (.list serial [.symbol "load-file", .text path]) frame m
    let file : Nat → Result Value := fun fuel => (do
      let _ ← Session.evalForms fuel forms
      return .nil : Run Value) m
    (∀ fuel, (file fuel).Ended → ∃ fuel', m.Matches (file fuel) (call fuel')) ∧
      ∀ fuel, (call fuel).Ended → ∃ fuel', m.Matches (file fuel') (call fuel) := by
  intro call file
  obtain ⟨root, hroot, -⟩ := Frames.get?_root_of_lookup? hloads.eval
  have hforms : ∀ r : Renaming, r.values forms = forms := by
    intro r
    have hvalues := Session.values_readAll r nesting content
    rwa [hread] at hvalues
  have hmatch := fun fuel =>
    hproper.matches_loading (Frames.lt_size_of_get? hroot) fuel path hforms
  have hiff : ∀ {x : Result Value}, x.Ended → ((∃ fuel, call fuel = x) ↔ _) :=
    evaluate_iff_loading hm hloads hcontent hplain hread hnesting serial
  constructor
  · intro fuel hended
    have hloading := hmatch fuel
    obtain ⟨fuel', hcall⟩ := (hiff (hloading.ended_iff.1 hended)).2 ⟨fuel, rfl⟩
    rw [← hcall] at hloading
    exact ⟨fuel', hloading⟩
  · intro fuel hended
    obtain ⟨fuel', hfile⟩ := (hiff hended).1 ⟨fuel, rfl⟩
    have hloading := hmatch fuel'
    rw [hfile] at hloading
    exact ⟨fuel', hloading⟩

/-- The file has a comment in it and one at its end, without a line feed, and a bracket stands in
one of its strings. -/
theorem evaluate_loadFile_commented :
    let content := "(def! a 1) ; one\n[a (str \")\")] ; end"
    let forms : List Value := [.form [.symbol "def!", .symbol "a", .int 1],
      .vector 0 [.symbol "a", .form [.symbol "str", .text ")"]]]
    let m := Machine.withFile ⟨none, 99⟩ content
    let loadFile : Value := .form [.symbol "load-file", .text "a.mal"]
    (m.Unlimited ∧ m.Proper ∧ m.LoadsFrom Session.root ∧
      Texts.contentOf m [.text "a.mal"] = .ok (.value (.text content)) ∧
      Keyword.isKeyword content = false ∧ Reader.readAll 9 content = (forms, none) ∧
      (evaluate 30 loadFile Session.root m).value? = some .nil) ∧
    ∃ fuel, m.Matches ((do
      let _ ← Session.evalForms fuel forms
      return .nil : Run Value) m) (evaluate 30 loadFile Session.root m) := by
  intro content forms m loadFile
  have hm : m.Unlimited := rfl
  have hproper : m.Proper := Machine.proper_withFile ..
  have hloads : m.LoadsFrom Session.root := Machine.loadsFrom_withFile _ _
  have hcontent : Texts.contentOf m [.text "a.mal"] = .ok (.value (.text content)) :=
    Machine.contentOf_withFile _ (by decide +kernel)
  have hplain : Keyword.isKeyword content = false := by decide +kernel
  have hread : Reader.readAll 9 content = (forms, none) := by decide +kernel
  have hvalue : (evaluate 30 loadFile Session.root m).value? = some .nil := by decide +kernel
  exact ⟨⟨hm, hproper, hloads, hcontent, hplain, hread, hvalue⟩,
    (evaluate_loadFile m Session.root "a.mal" content forms 9 hm hproper hloads hcontent hplain
      hread (by decide) 0).2 30 (Result.ended_of_value? hvalue)⟩

/-- Vectors, one in another. -/
def nestedVectors : Nat → Value
  | 0 => .nil
  | depth + 1 => .vector 0 [nestedVectors depth]

theorem value_nestedVectors (r : Renaming) (depth : Nat) :
    r.value (nestedVectors depth) = nestedVectors depth := by
  induction depth with
  | zero => rfl
  | succ depth ih =>
    rw [nestedVectors, Renaming.value, Renaming.values, Renaming.values, ih, r.serial_zero]

/-- Loading a file takes steps of its own: what is just not too deep to be evaluated by itself is
too deep in a file. -/
theorem loadFile_not_forms :
    let content := "(eval deep)"
    let forms : List Value := [.form [.symbol "eval", .symbol "deep"]]
    let m := (Machine.withFile .least content).define Session.root "deep" (nestedVectors 330)
    m.Proper ∧ m.LoadsFrom Session.root ∧
      Texts.contentOf m [.text "a.mal"] = .ok (.value (.text content)) ∧
      Keyword.isKeyword content = false ∧
      Reader.readAll m.host.limits.nesting content = (forms, none) ∧
      (evaluate 999 (.form [.symbol "load-file", .text "a.mal"]) Session.root m).error? =
        some .tooDeep ∧
      (Session.evalForms 999 forms m).value?.isSome = true := by
  intro content forms m
  have hproper : m.Proper := (Machine.proper_withFile ..).define _ _
    (.of_forall fun r => value_nestedVectors r 330)
  have hloads : m.LoadsFrom Session.root :=
    (Machine.loadsFrom_withFile .least content).define_of_ne (by decide) _
  have hcontent : Texts.contentOf m [.text "a.mal"] = .ok (.value (.text content)) :=
    (Machine.contentOf_define ..).trans (Machine.contentOf_withFile .least (by decide +kernel))
  have hplain : Keyword.isKeyword content = false := by decide +kernel
  have hread : Reader.readAll m.host.limits.nesting content = (forms, none) := by decide +kernel
  have hload : (evaluate 999 (.form [.symbol "load-file", .text "a.mal"]) Session.root m).error? =
      some .tooDeep := by decide +kernel
  have hforms : (Session.evalForms 999 forms m).value?.isSome = true := by decide +kernel
  exact ⟨hproper, hloads, hcontent, hplain, hread, hload, hforms⟩

end AtomLisp
