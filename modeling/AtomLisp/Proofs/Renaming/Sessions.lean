import AtomLisp.Proofs.Renaming.Evaluation
import AtomLisp.Proofs.Renaming.Renumbering
import AtomLisp.Session

/-! # Sessions with other numbers

  A session evaluates in its root frame, the one frame whose number matters to it.

  * `Session.evalForms_alike`, `Session.evalAll_alike`, `Session.rep_alike` and
    `Session.loadFile_alike`: apart from it, the numbers of frames and serial numbers do not matter;
  * `Session.proper_start`: nothing in the machine of a session refers to what the machine has not
    made, and it stays so (`Machine.Proper.proper_evaluate`, `Session.proper_evalAll` and others);
  * `Session.evalForms_numberAll`: nor does it matter whether forms get their serial numbers one by
    one or all of them beforehand.
-/

namespace AtomLisp

open Run

variable {α : Type} {r : Renaming} {m m' : Machine}

/-! ### Proper machines stay proper -/

/-- What does not see the numbers leaves a machine in which nothing refers to what it has not
made. -/
theorem Run.Alike.proper {act : Renaming → α → α} {x x' : Run α} (h : Alike .id act m x x')
    (hm : m.Proper) : (x m).Sat (fun n => n.Proper ∧ m.Older n) fun _ => True := by
  obtain ⟨holder, hresult⟩ := h m m (.refl m) hm.renamed_self
  generalize x m = result at holder hresult ⊢
  generalize x' m = result' at hresult
  cases hresult with
  | done hn => exact ⟨⟨hn.proper, holder.1⟩, trivial⟩
  | failed hn => exact ⟨hn.proper, holder⟩
  | unfinished => trivial

theorem Machine.Proper.proper_evaluate (hm : m.Proper) (fuel : Nat) {form : Value}
    {frame : FrameId} (hform : m.Knows Renaming.value form)
    (hframe : m.Knows Renaming.frameId frame) :
    (evaluate fuel form frame m).Sat (fun n => n.Proper ∧ m.Older n) fun _ => True :=
  (evaluate_alike .id fuel hform hframe).proper hm

namespace Session

/-! ### Forms and texts -/

theorem evalForms_alike (fuel : Nat) {forms : List Value} (hroot : r.frameId root = root)
    (hknown : root < m.frames.size) (hforms : m.Knows Renaming.values forms) :
    Alike r Renaming.values m (evalForms fuel forms) (evalForms fuel (r.values forms)) := by
  induction forms generalizing m with
  | nil => exact .pure .nil
  | cons form forms ih =>
    refine (Alike.number hforms.head).bind ?_
    intro n v hmn hv
    have hn : root < n.frames.size := Nat.lt_of_lt_of_le hknown hmn.frames
    have hvalue := evaluate_alike r fuel hv (.frameId_of_lt hn)
    rw [hroot] at hvalue
    refine hvalue.bind ?_
    intro o w hno hw
    have ho : root < o.frames.size := Nat.lt_of_lt_of_le hn hno.frames
    refine (ih ho (hforms.tail.mono (hmn.trans hno))).bind ?_
    intro p ws hop hws
    exact .pure (.cons (hw.mono hop) hws)

/-- Forms that were read from a text have no numbers. -/
theorem values_readAll (r : Renaming) (nesting : Nat) (source : String) :
    r.values (Reader.readAll nesting source).1 = (Reader.readAll nesting source).1 := by
  rw [r.values_eq_map]
  exact (Reader.value_readAll r nesting source).1

theorem evalAll_alike (fuel : Nat) (source : String) (hroot : r.frameId root = root)
    (hknown : root < m.frames.size) :
    Alike r Renaming.values m (evalAll fuel source) (evalAll fuel source) := by
  refine .get_bind ?_
  intro n n' hmn hr
  rw [hr.host]
  have hforms := fun r => values_readAll r n.host.limits.nesting source
  have hfault := fun r => (Reader.value_readAll r n.host.limits.nesting source).2
  generalize Reader.readAll n.host.limits.nesting source = read at hforms hfault
  obtain ⟨forms, fault?⟩ := read
  have hknown' : root < n.frames.size := Nat.lt_of_lt_of_le hknown hmn.frames
  have hvalues := evalForms_alike fuel hroot hknown' (.of_forall hforms)
  rw [hforms r] at hvalues
  refine hvalues.bind ?_
  intro o vs _ hvs
  cases fault? with
  | none => exact .pure hvs
  | some e => exact .stop fun r => Option.some.inj (hfault r)

theorem rep_alike (fuel : Nat) (source : String) (hroot : r.frameId root = root)
    (hknown : root < m.frames.size) :
    Alike r Renaming.plain m (rep fuel source) (rep fuel source) := by
  have hlast : ∀ (r : Renaming) (vs : List Value),
      (r.values vs).getLast?.getD .nil = r.value (vs.getLast?.getD .nil) := by
    intro r vs
    rw [r.values_eq_map, List.getLast?_map]
    cases vs.getLast? <;> rfl
  refine (evalAll_alike fuel source hroot hknown).bind ?_
  intro n vs _ hvs
  rw [hlast]
  refine .print fun s t hagree => ?_
  rw [← hlast, ← hlast, hvs s t hagree]

theorem loadFile_alike (fuel : Nat) (path : String) (hroot : r.frameId root = root)
    (hknown : root < m.frames.size) :
    Alike r Renaming.value m (loadFile fuel path) (loadFile fuel path) := by
  have hform : ∀ r : Renaming, r.value (.form [.symbol "load-file", .text path]) =
      .form [.symbol "load-file", .text path] := fun r => r.value_form _
  refine (Alike.log _ _ _).bind ?_
  intro n _ hmn _
  have hvalue := evaluate_alike r fuel (m := n) (.of_forall hform)
    (.frameId_of_lt (Nat.lt_of_lt_of_le hknown hmn.frames))
  rwa [hform, hroot] at hvalue

/-! ### The machine of a session -/

section

variable (hm : m.Proper) (hknown : root < m.frames.size) (fuel : Nat)
include hm hknown

theorem proper_evalAll (source : String) :
    (evalAll fuel source m).Sat (fun n => n.Proper ∧ m.Older n) fun _ => True :=
  (evalAll_alike fuel source rfl hknown).proper hm

theorem proper_rep (source : String) :
    (rep fuel source m).Sat (fun n => n.Proper ∧ m.Older n) fun _ => True :=
  (rep_alike fuel source rfl hknown).proper hm

theorem proper_loadFile (path : String) :
    (loadFile fuel path m).Sat (fun n => n.Proper ∧ m.Older n) fun _ => True :=
  (loadFile_alike fuel path rfl hknown).proper hm

end

theorem proper_initial (host : Host) (input : Input) : (Machine.initial host input).Proper where
  serial_pos := Nat.one_pos
  cells := .of_forall fun r => Array.map_empty
  frames id frame hget := by
    have hlt : id < 0 := Frames.lt_size_of_get? hget
    exact absurd hlt (Nat.not_lt_zero id)

theorem proper_machine (host : Host) (input : Input) (argv : List String) :
    (machine host input argv).Proper ∧ root < (machine host input argv).frames.size := by
  have hbuiltins : ∀ r : Renaming, r.entriesOf (Builtin.all.map fun b => (b.name, .builtin b)) =
      Builtin.all.map fun b => (b.name, .builtin b) := by
    intro r
    rw [r.entriesOf_eq_map, List.map_map]
    rfl
  have hargv : ∀ r : Renaming, r.value (.form (argv.map .text)) = .form (argv.map .text) := by
    intro r
    rw [r.value_form, List.map_map]
    rfl
  have hroot := (proper_initial host input).pushFrame none (.of_forall hbuiltins)
  refine ⟨(hroot.define _ _ (.of_forall hargv)).define _ _ (.of_forall fun _ => rfl), ?_⟩
  show root < (Frames.define (Frames.define _ _ _ _) _ _ _).size
  rw [Frames.size_define, Frames.size_define]
  exact Nat.one_pos

theorem evalPrelude_alike (fuel : Nat) (source : String) (hroot : r.frameId root = root)
    (hknown : root < m.frames.size) :
    Alike r Renaming.plain m (evalPrelude fuel source) (evalPrelude fuel source) :=
  (evalAll_alike fuel source hroot hknown).bind fun _ _ _ _ => .pure (.of_forall fun _ => rfl)

theorem readPrelude_alike (path : Path) :
    Alike r Renaming.plain m (readPrelude path) (readPrelude path) := by
  refine .get_bind ?_
  intro n n' hmn hr
  rw [hr.host]
  dsimp only
  split
  · exact .stop fun _ => rfl
  · exact (Alike.log _ _ _).bind fun _ _ _ _ => .pure (.of_forall fun _ => rfl)
  · refine (Alike.log _ _ _).bind ?_
    intro o _ _ _
    split
    · exact .pure (.of_forall fun _ => rfl)
    · exact .stop fun _ => rfl
    · exact .stop fun _ => rfl

theorem loadPrelude_alike (fuel : Nat) (directory : Option Path) (hroot : r.frameId root = root)
    (hknown : root < m.frames.size) :
    Alike r Renaming.plain m (loadPrelude fuel directory) (loadPrelude fuel directory) := by
  cases directory with
  | none =>
    refine (Alike.log _ _ _).bind ?_
    intro n _ hmn _
    exact evalPrelude_alike fuel _ hroot (Nat.lt_of_lt_of_le hknown hmn.frames)
  | some directory =>
    refine (readPrelude_alike _).bind ?_
    intro n source? hmn _
    cases source? with
    | none => exact .pure (.of_forall fun _ => rfl)
    | some source =>
      exact evalPrelude_alike fuel source hroot (Nat.lt_of_lt_of_le hknown hmn.frames)

theorem evalChoice_alike {fuel : Nat} {setup : Setup} {prelude : Run Unit}
    (h : evalChoice fuel setup = .ok prelude) (hroot : r.frameId root = root)
    (hknown : root < m.frames.size) : Alike r Renaming.plain m prelude prelude := by
  unfold evalChoice at h
  split at h
  · cases h
    exact .pure (.of_forall fun _ => rfl)
  · cases h
    exact evalPrelude_alike fuel _ hroot hknown
  · cases hdirectory : setup.settings.preludeRoot setup.files with
    | error fault =>
      rw [hdirectory] at h
      cases h
    | ok directory =>
      rw [hdirectory] at h
      cases h
      exact loadPrelude_alike fuel directory hroot hknown

theorem proper_setUp {setup : Setup} {journal : Journal} (h : setUp setup journal = .ok m) :
    m.Proper ∧ root < m.frames.size := by
  unfold setUp at h
  cases hlimits : limits setup.settings with
  | error fault =>
    rw [hlimits] at h
    cases h
  | ok limits =>
    rw [hlimits] at h
    cases h
    exact proper_machine ..

/-- **When a session has started, nothing in its machine refers to what the machine has not
made.** -/
theorem proper_start {fuel : Nat} {setup : Setup} {journal : Journal} {result : Result Unit}
    (h : start fuel setup journal = .ok result) :
    result.Sat (fun n => n.Proper ∧ root < n.frames.size) fun _ => True := by
  unfold start at h
  cases hsetUp : setUp setup journal with
  | error fault =>
    rw [hsetUp] at h
    cases h
  | ok m =>
    cases hchoice : evalChoice fuel setup with
    | error fault =>
      rw [hsetUp, hchoice] at h
      cases h
    | ok prelude =>
      rw [hsetUp, hchoice] at h
      cases h
      obtain ⟨hm, hroot⟩ := proper_setUp hsetUp
      refine ((evalChoice_alike hchoice rfl hroot).proper hm).mono ?_ fun _ => id
      exact fun n hn => ⟨hn.1, Nat.lt_of_lt_of_le hroot hn.2.frames⟩

/-! ### Numbers that are given beforehand -/

/-- A form that is numbered when its turn comes evaluates as where its numbers were set aside for
it. -/
theorem evaluate_number (fuel : Nat) {form : Value} (hform : ∀ r : Renaming, r.value form = form)
    {start : Serial} (h : m.Renamed r m') (hroot : r.frameId root = root)
    (hknown : root < m.frames.size)
    (hassign : Assignable r.serial m.nextSerial form.unnumbered start m'.nextSerial) :
    let s := r.renumber h.proper.serial_pos hassign
    let n : Machine := { m with nextSerial := m.nextSerial + form.unnumbered }
    (evaluate fuel (form.number m.nextSerial).1 root n).Sat n.Older (fun _ => True) ∧
      Result.Renamed s Renaming.value (evaluate fuel (form.number m.nextSerial).1 root n)
        (evaluate fuel (form.number start).1 root m') := by
  intro s n
  have hn : n.Renamed s m' := h.renumber hassign
  have hserial : ∀ k, m.nextSerial + k < (form.number m.nextSerial).2 →
      s.serial (m.nextSerial + k) = start + k := by
    intro k hk
    rw [Value.number_snd] at hk
    exact assign_next (Nat.lt_of_add_lt_add_left hk)
  have hnumber := form.number_value s hserial
  rw [hform] at hnumber
  have hfirst : (form.number start).1 = s.value (form.number m.nextSerial).1 :=
    congrArg Prod.fst hnumber
  have hknows : n.Knows Renaming.value (form.number m.nextSerial).1 := by
    intro t u hagree
    refine form.number_agree (fun x hx => hagree.serial x ?_) ((hform t).trans (hform u).symm)
    rwa [Value.number_snd] at hx
  have hvalue := evaluate_alike s fuel hknows (.frameId_of_lt hknown) n m' (.refl n) hn
  have hroot' : s.frameId root = root := hroot
  rwa [hroot', ← hfirst] at hvalue

theorem evalForms_cons (fuel : Nat) (form : Value) (forms : List Value) (m : Machine) :
    (evalForms fuel (form :: forms) >>= fun _ => pure .nil : Run Value) m =
      (evaluate fuel (form.number m.nextSerial).1 root
        { m with nextSerial := (form.number m.nextSerial).2 }).andThen fun _ n =>
          (evalForms fuel forms >>= fun _ => pure .nil : Run Value) n := by
  simp only [evalForms, evalEach, bind_assoc, pure_bind]
  rfl

/-- Forms that are only written down may all get their numbers before the first of them is
evaluated. -/
theorem evalForms_numberAll (fuel : Nat) {forms : List Value}
    (hforms : ∀ r : Renaming, r.values forms = forms) {start : Serial} (h : m.Renamed r m')
    (hroot : r.frameId root = root) (hknown : root < m.frames.size) (hstart : 0 < start)
    (hapart : ∀ serial < m.nextSerial,
      r.serial serial < start ∨ start + Value.unnumberedAll forms ≤ r.serial serial)
    (hlast : start + Value.unnumberedAll forms ≤ m'.nextSerial) :
    ∃ s, m.Agree r s ∧ Result.Renamed s Renaming.value
      ((evalForms fuel forms >>= fun _ => pure .nil : Run Value) m)
      ((evalForms fuel (Value.numberAll start forms).1 >>= fun _ => pure .nil : Run Value) m') := by
  induction forms generalizing m m' r start with
  | nil => exact ⟨r, .refl, .done h (.of_forall fun _ => rfl)⟩
  | cons form forms ih =>
    have hle : start + form.unnumbered ≤ start + Value.unnumberedAll (form :: forms) :=
      Nat.add_le_add_left (Nat.le_add_right ..) start
    have hassign : Assignable r.serial m.nextSerial form.unnumbered start m'.nextSerial :=
      { injective := r.serial_injective
        apart := fun serial hserial => (hapart serial hserial).imp_right (Nat.le_trans hle)
        below := fun serial hserial => h.serial_lt hserial
        le_last := Nat.le_trans hle hlast }
    have hform : ∀ r : Renaming, r.value form = form := fun r => (List.cons.inj (hforms r)).1
    have hrest : ∀ r : Renaming, r.values forms = forms := fun r => (List.cons.inj (hforms r)).2
    obtain ⟨holder, hvalue⟩ := evaluate_number fuel hform h hroot hknown hassign
    have hagree : m.Agree r (r.renumber h.proper.serial_pos hassign) :=
      ⟨fun _ _ => rfl, fun _ hserial => (assign_of_lt hserial).symm⟩
    -- What is left to do in both machines, once the first form has its number
    have hleft : (evalForms fuel (form :: forms) >>= fun _ => pure .nil : Run Value) m =
        (evaluate fuel (form.number m.nextSerial).1 root
          { m with nextSerial := m.nextSerial + form.unnumbered }).andThen fun _ n =>
            (evalForms fuel forms >>= fun _ => pure .nil : Run Value) n := by
      rw [evalForms_cons, ← Value.number_snd]
    have hright : (evalForms fuel (Value.numberAll start (form :: forms)).1 >>= fun _ =>
        pure .nil : Run Value) m' =
          (evaluate fuel (form.number start).1 root m').andThen fun _ n =>
            (evalForms fuel (Value.numberAll (start + form.unnumbered) forms).1 >>= fun _ =>
              pure .nil : Run Value) n := by
      rw [Value.numberAll, evalForms_cons, Value.numbered_number hstart form, Value.number_snd]
    rw [hleft, hright]
    generalize evaluate fuel _ root _ = result at holder hvalue ⊢
    generalize evaluate fuel _ root m' = result' at hvalue ⊢
    cases hvalue with
    | unfinished => exact ⟨r, .refl, .unfinished⟩
    | failed hn he => exact ⟨_, hagree, .failed hn he⟩
    | @done v n n' hn hv =>
      have hgrow : m.Older n :=
        ⟨holder.1.frames, Nat.le_trans (Nat.le_add_right ..) holder.1.serial⟩
      have hlast' : start + form.unnumbered + Value.unnumberedAll forms ≤ n'.nextSerial := by
        rw [Nat.add_assoc]
        exact Nat.le_trans hlast ((h.renumber hassign).nextSerial_le hn holder.1)
      have hapart' : ∀ serial < n.nextSerial,
          (r.renumber h.proper.serial_pos hassign).serial serial < start + form.unnumbered ∨
            start + form.unnumbered + Value.unnumberedAll forms ≤
              (r.renumber h.proper.serial_pos hassign).serial serial := by
        intro serial _
        rw [Nat.add_assoc start]
        exact assign_lt_or_le hapart hlast serial
      obtain ⟨t, hagree', hresult⟩ := ih hrest hn hroot
        (Nat.lt_of_lt_of_le hknown hgrow.frames) (Nat.add_pos_left hstart _) hapart' hlast'
      exact ⟨t, hagree.trans (hgrow.agree hagree'), hresult⟩

end Session

end AtomLisp
