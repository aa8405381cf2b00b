import AtomLisp.Proofs.LexicalScope
import AtomLisp.Proofs.Renaming.Answers

/-! # Machines with other numbers

  A machine is a renaming of another one when it is in the same state but for the numbers of its
  frames and for serial numbers, and possibly has further frames that nothing refers to.

  * `Machine.Knows`: all numbers in a value are of frames and things that the machine has made;
  * `Machine.Proper`: so it is with everything in the machine itself;
  * `Machine.Renamed`: the one machine is the other one with other numbers. What is looked up in
    them corresponds, and it stays so when frames, bindings or atoms are made or changed.
-/

namespace AtomLisp

variable {α : Type}

/-! ### What a machine knows -/

/-- A frame with other numbers. -/
def Renaming.frame (r : Renaming) (frame : Frame) : Frame :=
  ⟨frame.vars.map r.entry, frame.outer.map r.frameId⟩

theorem Renaming.frame_id (frame : Frame) : Renaming.id.frame frame = frame := by
  have hvars : frame.vars.map Renaming.id.entry = frame.vars := by
    rw [← Renaming.entriesOf_eq_map, Renaming.entriesOf_id]
  have houter : frame.outer.map Renaming.id.frameId = frame.outer := Option.map_id_apply
  rw [Renaming.frame, hvars, houter]

namespace Machine

/-- The renamings give the same numbers to what the machine has made. -/
structure Agree (m : Machine) (r s : Renaming) : Prop where
  frameId : ∀ id < m.frames.size, r.frameId id = s.frameId id
  serial  : ∀ serial < m.nextSerial, r.serial serial = s.serial serial

/-- All numbers in it are of frames and things that the machine has made. -/
def Knows (m : Machine) (act : Renaming → α → α) (a : α) : Prop :=
  ∀ r s, m.Agree r s → act r a = act s a

/-- The machine has made at least as many frames and things. -/
structure Older (m n : Machine) : Prop where
  frames : m.frames.size ≤ n.frames.size
  serial : m.nextSerial ≤ n.nextSerial

/-- Nothing in the machine refers to a frame or thing that the machine has not made. -/
structure Proper (m : Machine) : Prop where
  serial_pos : 0 < m.nextSerial
  cells  : m.Knows (fun r => Array.map r.value) m.cells
  frames : ∀ id frame, m.frames.get? id = some frame → m.Knows Renaming.frame frame

/-- The second machine is the first one with other numbers, and what both make from now on
corresponds. -/
structure Renamed (r : Renaming) (m m' : Machine) : Prop where
  proper : m.Proper
  cells  : m'.cells = m.cells.map r.value
  frames : ∀ id frame, m.frames.get? id = some frame →
    m'.frames.get? (r.frameId id) = some (r.frame frame)
  frameId : ∀ k, r.frameId (m.frames.size + k) = m'.frames.size + k
  serial  : ∀ k, r.serial (m.nextSerial + k) = m'.nextSerial + k
  input  : m'.input = m.input
  readings : m'.readings = m.readings
  output : m'.output = m.output
  report : m'.report = m.report
  host   : m'.host = m.host

variable {m n : Machine}

namespace Older

theorem refl (m : Machine) : m.Older m := ⟨Nat.le_refl _, Nat.le_refl _⟩

theorem trans {m n o : Machine} (h : m.Older n) (h' : n.Older o) : m.Older o :=
  ⟨Nat.le_trans h.frames h'.frames, Nat.le_trans h.serial h'.serial⟩

theorem agree (h : m.Older n) {r s : Renaming} (ha : n.Agree r s) : m.Agree r s :=
  ⟨fun id hid => ha.frameId id (Nat.lt_of_lt_of_le hid h.frames),
    fun serial hs => ha.serial serial (Nat.lt_of_lt_of_le hs h.serial)⟩

end Older

namespace Knows

variable {act : Renaming → α → α} {a : α}

/-- What a machine knows, it knows ever after. -/
theorem mono (ha : m.Knows act a) (h : m.Older n) : n.Knows act a :=
  fun r s hagree => ha r s (h.agree hagree)

theorem of_forall (h : ∀ r, act r a = a) : m.Knows act a :=
  fun r s _ => (h r).trans (h s).symm

variable {v : Value} {vs items : List Value} {entries : Entries Value} {serial : Serial}

theorem frameId_of_lt {id : FrameId} (h : id < m.frames.size) : m.Knows Renaming.frameId id :=
  fun _ _ hagree => hagree.frameId id h

theorem nil : m.Knows Renaming.values [] := fun _ _ _ => rfl

theorem symbol (name : String) : m.Knows Renaming.value (.symbol name) := fun _ _ _ => rfl

theorem cons (hv : m.Knows Renaming.value v) (hvs : m.Knows Renaming.values vs) :
    m.Knows Renaming.values (v :: vs) := by
  intro r s h
  rw [Renaming.values, Renaming.values, hv r s h, hvs r s h]

theorem head (h : m.Knows Renaming.values (v :: vs)) : m.Knows Renaming.value v :=
  fun r s hagree => (List.cons.inj (h r s hagree)).1

theorem tail (h : m.Knows Renaming.values (v :: vs)) : m.Knows Renaming.values vs :=
  fun r s hagree => (List.cons.inj (h r s hagree)).2

theorem mem (h : m.Knows Renaming.values vs) (hv : v ∈ vs) : m.Knows Renaming.value v := by
  induction vs with
  | nil => exact absurd hv List.not_mem_nil
  | cons w vs ih =>
    rcases List.mem_cons.1 hv with rfl | hv
    · exact h.head
    · exact ih h.tail hv

theorem append (h : m.Knows Renaming.values vs) (hitems : m.Knows Renaming.values items) :
    m.Knows Renaming.values (vs ++ items) := by
  intro r s hagree
  rw [r.values_append, s.values_append, h r s hagree, hitems r s hagree]

theorem dropLast (h : m.Knows Renaming.values vs) : m.Knows Renaming.values vs.dropLast := by
  intro r s hagree
  rw [← r.dropLast_values, ← s.dropLast_values, h r s hagree]

theorem items_of_list (h : m.Knows Renaming.value (.list serial items)) :
    m.Knows Renaming.values items :=
  fun r s hagree => (Value.list.inj (h r s hagree)).2

theorem items_of_vector (h : m.Knows Renaming.value (.vector serial items)) :
    m.Knows Renaming.values items :=
  fun r s hagree => (Value.vector.inj (h r s hagree)).2

theorem entries_of_map (h : m.Knows Renaming.value (.map serial entries)) :
    m.Knows Renaming.entriesOf entries :=
  fun r s hagree => (Value.map.inj (h r s hagree)).2

theorem list (hserial : m.Knows Renaming.serial serial) (h : m.Knows Renaming.values items) :
    m.Knows Renaming.value (.list serial items) := by
  intro r s hagree
  rw [Renaming.value, Renaming.value, hserial r s hagree, h r s hagree]

theorem vector (hserial : m.Knows Renaming.serial serial) (h : m.Knows Renaming.values items) :
    m.Knows Renaming.value (.vector serial items) := by
  intro r s hagree
  rw [Renaming.value, Renaming.value, hserial r s hagree, h r s hagree]

theorem map (hserial : m.Knows Renaming.serial serial)
    (h : m.Knows Renaming.entriesOf entries) : m.Knows Renaming.value (.map serial entries) := by
  intro r s hagree
  rw [Renaming.value, Renaming.value, hserial r s hagree, h r s hagree]

theorem items_of_eq (h : m.Knows Renaming.value v) (hitems : v.items? = some items) :
    m.Knows Renaming.values items := by
  cases v with
  | list serial items' =>
    cases hitems
    exact h.items_of_list
  | vector serial items' =>
    cases hitems
    exact h.items_of_vector
  | _ => cases hitems

theorem closure {params : List String} {body : Value} {frame : FrameId} {isMacro : Bool}
    (hserial : m.Knows Renaming.serial serial) (hbody : m.Knows Renaming.value body)
    (hframe : m.Knows Renaming.frameId frame) :
    m.Knows Renaming.value (.closure serial params body frame isMacro) := by
  intro r s hagree
  rw [Renaming.value, Renaming.value, hserial r s hagree, hbody r s hagree, hframe r s hagree]

theorem body_of_closure {params : List String} {body : Value} {frame : FrameId} {isMacro : Bool}
    (h : m.Knows Renaming.value (.closure serial params body frame isMacro)) :
    m.Knows Renaming.value body :=
  fun r s hagree => (Value.closure.inj (h r s hagree)).2.2.1

theorem frame_of_closure {params : List String} {body : Value} {frame : FrameId} {isMacro : Bool}
    (h : m.Knows Renaming.value (.closure serial params body frame isMacro)) :
    m.Knows Renaming.frameId frame :=
  fun r s hagree => (Value.closure.inj (h r s hagree)).2.2.2.1

theorem insert (hv : m.Knows Renaming.value v) (h : m.Knows Renaming.entriesOf entries)
    (key : String) : m.Knows Renaming.entriesOf (Entries.insert key v entries) := by
  intro r s hagree
  rw [r.entriesOf_insert, s.entriesOf_insert, hv r s hagree, h r s hagree]

theorem form (h : m.Knows Renaming.values items) : m.Knows Renaming.value (.form items) :=
  .list (.of_forall fun r => r.serial_zero) h

end Knows

/-! ### Looking up -/

namespace Renamed

variable {r : Renaming} {m m' : Machine}

theorem cellsRenamed (h : m.Renamed r m') : m.CellsRenamed r m' := ⟨h.cells, h.host⟩

/-- A frame that is there is there under its other number, and no other one becomes so. -/
theorem frameId_lt_iff (h : m.Renamed r m') {id : FrameId} :
    r.frameId id < m'.frames.size ↔ id < m.frames.size := by
  constructor
  · intro hlt
    refine Nat.lt_of_not_le fun hle => ?_
    obtain ⟨k, rfl⟩ := Nat.exists_eq_add_of_le hle
    rw [h.frameId k] at hlt
    exact Nat.not_lt.2 (Nat.le_add_right _ k) hlt
  · intro hlt
    obtain ⟨frame, hget⟩ := Frames.exists_get? hlt
    exact Frames.lt_size_of_get? (h.frames id frame hget)

theorem get?_none (h : m.Renamed r m') {id : FrameId} (hget : m.frames.get? id = none) :
    m'.frames.get? (r.frameId id) = none := by
  rw [Frames.get?_eq_none_iff] at hget ⊢
  exact Nat.le_of_not_lt fun hlt => Nat.not_le_of_lt (h.frameId_lt_iff.1 hlt) hget

theorem lookup? (h : m.Renamed r m') (name : String) (id : FrameId) :
    m'.frames.lookup? name (r.frameId id) = (m.frames.lookup? name id).map r.value := by
  -- Outer frames are older, so the walk outward is an induction on the number of the frame.
  induction id using Nat.strongRecOn with
  | ind id ih =>
    cases hget : m.frames.get? id with
    | none => rw [Frames.lookup?_of_none hget, Frames.lookup?_of_none (h.get?_none hget)]; rfl
    | some frame =>
      have hget' := h.frames id frame hget
      have hvars : (r.frame frame).vars.lookup name = (frame.vars.lookup name).map r.value :=
        r.lookup_map_entry name frame.vars
      cases houter : frame.outer with
      | none =>
        have houter' : (r.frame frame).outer = none := by rw [Renaming.frame, houter]; rfl
        rw [Frames.lookup?_of_root hget houter, Frames.lookup?_of_root hget' houter', hvars]
      | some outer =>
        have houter' : (r.frame frame).outer = some (r.frameId outer) := by
          rw [Renaming.frame, houter]; rfl
        rw [Frames.lookup?_of_outer hget houter, Frames.lookup?_of_outer hget' houter', hvars,
          ih outer (m.frames.outer_lt id frame outer hget houter)]
        cases frame.vars.lookup name <;> rfl

theorem root (h : m.Renamed r m') (id : FrameId) :
    m'.frames.root (r.frameId id) = r.frameId (m.frames.root id) := by
  induction id using Nat.strongRecOn with
  | ind id ih =>
    cases hget : m.frames.get? id with
    | none => rw [Frames.root_of_none hget, Frames.root_of_none (h.get?_none hget)]
    | some frame =>
      have hget' := h.frames id frame hget
      cases houter : frame.outer with
      | none =>
        have houter' : (r.frame frame).outer = none := by rw [Renaming.frame, houter]; rfl
        rw [Frames.root_of_root hget houter, Frames.root_of_root hget' houter']
      | some outer =>
        have houter' : (r.frame frame).outer = some (r.frameId outer) := by
          rw [Renaming.frame, houter]; rfl
        rw [Frames.root_of_outer hget houter, Frames.root_of_outer hget' houter',
          ih outer (m.frames.outer_lt id frame outer hget houter)]

end Renamed

namespace Proper

/-- What is looked up is known. -/
theorem knows_lookup? (h : m.Proper) {name : String} {id : FrameId} {v : Value}
    (hv : m.frames.lookup? name id = some v) : m.Knows Renaming.value v := by
  induction id using Nat.strongRecOn with
  | ind id ih =>
    cases hget : m.frames.get? id with
    | none => rw [Frames.lookup?_of_none hget] at hv; cases hv
    | some frame =>
      -- A value of the frame itself has the same numbers in both renamings of the frame.
      have hvars : frame.vars.lookup name = some v → m.Knows Renaming.value v := by
        intro hlookup r s hagree
        have hframe := congrArg (fun f => f.vars.lookup name) (h.frames id frame hget r s hagree)
        simpa [Renaming.frame, hlookup] using hframe
      cases houter : frame.outer with
      | none =>
        rw [Frames.lookup?_of_root hget houter] at hv
        exact hvars hv
      | some outer =>
        rw [Frames.lookup?_of_outer hget houter, Option.or_eq_some_iff] at hv
        rcases hv with hv | ⟨-, hv⟩
        · exact hvars hv
        · exact ih outer (m.frames.outer_lt id frame outer hget houter) hv

theorem knows_content (h : m.Proper) (cell : CellId) :
    m.Knows Renaming.value (m.cells.content cell) := by
  intro r s hagree
  have hcells : m.cells.map r.value = m.cells.map s.value := h.cells r s hagree
  rw [← Value.content_map, ← Value.content_map, hcells]

end Proper

theorem Knows.root {id : FrameId} (h : m.Knows Renaming.frameId id) :
    m.Knows Renaming.frameId (m.frames.root id) := by
  cases hget : m.frames.get? id with
  | none => rw [Frames.root_of_none hget]; exact h
  | some frame =>
    exact .frameId_of_lt
      (Nat.lt_of_le_of_lt (Frames.root_le m.frames id) (Frames.lt_size_of_get? hget))

/-! ### Changes -/

section Changes

variable {v : Value} {vars : Entries Value} {id outer : FrameId}

theorem Knows.frame {frame : Frame} (hvars : m.Knows Renaming.entriesOf frame.vars)
    (houter : ∀ outer, frame.outer = some outer → m.Knows Renaming.frameId outer) :
    m.Knows Renaming.frame frame := by
  intro r s hagree
  have hentries := hvars r s hagree
  rw [r.entriesOf_eq_map, s.entriesOf_eq_map] at hentries
  have hout : frame.outer.map r.frameId = frame.outer.map s.frameId := by
    cases h : frame.outer with
    | none => rfl
    | some outer => exact congrArg some (houter outer h r s hagree)
  rw [Renaming.frame, Renaming.frame, hentries, hout]

theorem Proper.define (h : m.Proper) (id : FrameId) (name : String)
    (hv : m.Knows Renaming.value v) : (m.define id name v).Proper := by
  have holder : m.Older (m.define id name v) :=
    ⟨Nat.le_of_eq (Frames.size_define ..).symm, Nat.le_refl _⟩
  refine ⟨h.serial_pos, h.cells.mono holder, ?_⟩
  intro other frame hget
  change (m.frames.define id name v).get? other = some frame at hget
  by_cases hother : other = id
  · subst hother
    rw [Frames.get?_define_self] at hget
    obtain ⟨old, hold, rfl⟩ := Option.map_eq_some_iff.1 hget
    refine Knows.mono ?_ holder
    intro r s hagree
    have hframe := h.frames other old hold r s hagree
    simp only [Renaming.frame, Frame.mk.injEq] at hframe ⊢
    refine ⟨?_, hframe.2⟩
    rw [← r.insert_map_entry, ← s.insert_map_entry, hframe.1, hv r s hagree]
  · rw [Frames.get?_define_of_ne hother] at hget
    exact (h.frames other frame hget).mono holder

theorem Renamed.define {r : Renaming} {m' : Machine} (h : m.Renamed r m') (id : FrameId)
    (name : String) (hv : m.Knows Renaming.value v) :
    (m.define id name v).Renamed r (m'.define (r.frameId id) name (r.value v)) where
  proper := h.proper.define id name hv
  cells := h.cells
  frames := by
    intro other frame hget
    change (m.frames.define id name v).get? other = some frame at hget
    show (m'.frames.define (r.frameId id) name (r.value v)).get? (r.frameId other) = _
    -- Different frames have different other numbers, so only the frames that correspond change.
    by_cases hother : other = id
    · subst hother
      rw [Frames.get?_define_self] at hget ⊢
      obtain ⟨old, hold, rfl⟩ := Option.map_eq_some_iff.1 hget
      rw [h.frames other old hold]
      simp only [Option.map_some, Renaming.frame, r.insert_map_entry]
    · have hother' : r.frameId other ≠ r.frameId id := fun heq =>
        hother (r.frameId_injective heq)
      rw [Frames.get?_define_of_ne hother] at hget
      rw [Frames.get?_define_of_ne hother']
      exact h.frames other frame hget
  frameId := by
    intro k
    show r.frameId ((m.frames.define id name v).size + k) =
      (m'.frames.define (r.frameId id) name (r.value v)).size + k
    rw [Frames.size_define, Frames.size_define]
    exact h.frameId k
  serial := h.serial
  input := h.input
  readings := h.readings
  output := h.output
  report := h.report
  host := h.host

theorem older_pushFrame (m : Machine) (outer : Option FrameId) (vars : Entries Value) :
    m.Older (m.pushFrame outer vars) :=
  ⟨Nat.le_of_lt (Nat.lt_of_lt_of_eq (Nat.lt_succ_self _) (Frames.size_push ..).symm),
    Nat.le_refl _⟩

theorem Proper.pushFrame (h : m.Proper) (outer : Option FrameId)
    (hvars : m.Knows Renaming.entriesOf vars) : (m.pushFrame outer vars).Proper := by
  have holder := m.older_pushFrame outer vars
  refine ⟨h.serial_pos, h.cells.mono holder, ?_⟩
  intro id frame hget
  change (m.frames.push outer vars).get? id = some frame at hget
  rw [Frames.get?_push] at hget
  split at hget
  · cases hget
    refine .frame (hvars.mono holder) ?_
    intro out hout
    have hlt : out < m.frames.size := by simpa using (Option.filter_eq_some_iff.1 hout).2
    exact .mono (.frameId_of_lt hlt) holder
  · exact (h.frames id frame hget).mono holder

theorem Renamed.pushFrame {r : Renaming} {m' : Machine} (h : m.Renamed r m')
    (outer : FrameId) (hvars : m.Knows Renaming.entriesOf vars) :
    (m.pushFrame (some outer) vars).Renamed r
      (m'.pushFrame (some (r.frameId outer)) (r.entriesOf vars)) where
  proper := h.proper.pushFrame (some outer) hvars
  cells := h.cells
  frames := by
    intro id frame hget
    change (m.frames.push (some outer) vars).get? id = some frame at hget
    show (m'.frames.push (some (r.frameId outer)) (r.entriesOf vars)).get? (r.frameId id) = _
    have hsize : r.frameId m.frames.size = m'.frames.size := h.frameId 0
    rw [Frames.get?_push] at hget ⊢
    by_cases hid : id = m.frames.size
    · rw [if_pos hid] at hget
      rw [if_pos (hid ▸ hsize)]
      cases hget
      -- An outer frame that is not there is left out in both machines.
      have hfilter : (some (r.frameId outer)).filter (· < m'.frames.size) =
          ((some outer).filter (· < m.frames.size)).map r.frameId := by
        by_cases hlt : outer < m.frames.size
        · simp [Option.filter, hlt, h.frameId_lt_iff.2 hlt]
        · simp [Option.filter, hlt, mt h.frameId_lt_iff.1 hlt]
      rw [hfilter, r.entriesOf_eq_map]
      rfl
    · have hid' : r.frameId id ≠ m'.frames.size := fun heq =>
        hid (r.frameId_injective (heq.trans hsize.symm))
      rw [if_neg hid] at hget
      rw [if_neg hid']
      exact h.frames id frame hget
  frameId := by
    intro k
    show r.frameId ((m.frames.push (some outer) vars).size + k) =
      (m'.frames.push (some (r.frameId outer)) (r.entriesOf vars)).size + k
    rw [Frames.size_push, Frames.size_push, Nat.add_assoc, Nat.add_assoc]
    exact h.frameId (1 + k)
  serial := h.serial
  input := h.input
  readings := h.readings
  output := h.output
  report := h.report
  host := h.host

/-- Only frames and what is made at run time have numbers. -/
theorem Proper.congr (h : m.Proper) (hframes : n.frames = m.frames)
    (hserial : n.nextSerial = m.nextSerial)
    (hcells : m.Knows (fun r => Array.map r.value) n.cells) : n.Proper := by
  have holder : m.Older n := ⟨Nat.le_of_eq (congrArg _ hframes.symm), Nat.le_of_eq hserial.symm⟩
  refine ⟨by rw [hserial]; exact h.serial_pos, hcells.mono holder, ?_⟩
  intro id frame hget
  rw [hframes] at hget
  exact (h.frames id frame hget).mono holder

/-- Other contents of the atoms, which correspond, do no harm. -/
theorem Renamed.of_cells {r : Renaming} {m' : Machine} (h : m.Renamed r m') {cells : Cells}
    (hcells : m.Knows (fun r => Array.map r.value) cells) :
    Renamed r { m with cells } { m' with cells := cells.map r.value } :=
  { h with proper := h.proper.congr rfl rfl hcells, cells := rfl }

/-- Other texts do no harm either. -/
theorem Renamed.of_input {r : Renaming} {m' : Machine} (h : m.Renamed r m') (input : Input) :
    Renamed r { m with input } { m' with input } :=
  { h with proper := h.proper.congr rfl rfl h.proper.cells, input := rfl }

/-- Nor does reading the clock, so long as both do it. -/
theorem Renamed.of_readings {r : Renaming} {m' : Machine} (h : m.Renamed r m') (readings : Nat) :
    Renamed r { m with readings } { m' with readings } :=
  { h with proper := h.proper.congr rfl rfl h.proper.cells, readings := rfl }

theorem Renamed.of_output {r : Renaming} {m' : Machine} (h : m.Renamed r m') (output : String) :
    Renamed r { m with output } { m' with output } :=
  { h with proper := h.proper.congr rfl rfl h.proper.cells, output := rfl }

theorem Renamed.of_report {r : Renaming} {m' : Machine} (h : m.Renamed r m') (report : String) :
    Renamed r { m with report } { m' with report } :=
  { h with proper := h.proper.congr rfl rfl h.proper.cells, report := rfl }

theorem Proper.skipSerials (h : m.Proper) (count : Nat) :
    Proper { m with nextSerial := m.nextSerial + count } := by
  have holder : m.Older { m with nextSerial := m.nextSerial + count } :=
    ⟨Nat.le_refl _, Nat.le_add_right ..⟩
  exact ⟨Nat.lt_of_lt_of_le h.serial_pos holder.serial, h.cells.mono holder,
    fun id frame hget => (h.frames id frame hget).mono holder⟩

/-- Numbers that both skip alike do no harm. -/
theorem Renamed.skipSerials {r : Renaming} {m' : Machine} (h : m.Renamed r m') (count : Nat) :
    Renamed r { m with nextSerial := m.nextSerial + count }
      { m' with nextSerial := m'.nextSerial + count } :=
  { h with
    proper := h.proper.skipSerials count
    serial := fun k => by
      rw [Nat.add_assoc, Nat.add_assoc]
      exact h.serial (count + k) }

theorem Renamed.log {r : Renaming} {m' : Machine} (h : m.Renamed r m') (severity : Severity)
    (source : Source) (message : String) :
    (m.log severity source message).Renamed r (m'.log severity source message) := by
  have hjournal : m'.host.journal = m.host.journal := by rw [h.host]
  unfold Machine.log
  rw [hjournal, h.report]
  split
  · exact h.of_report _
  · exact h

theorem Renamed.logCaught {r : Renaming} {m' : Machine} (h : m.Renamed r m') (v : Value) :
    (m.logCaught v).Renamed r (m'.logCaught (r.value v)) := by
  have hjournal : m'.host.journal = m.host.journal := by rw [h.host]
  unfold Machine.logCaught
  rw [hjournal, h.cellsRenamed.inspect_value]
  split
  · cases m.inspect v with
    | ok text => exact h.log _ _ _
    | error e => exact h
  · exact h

theorem older_log (m : Machine) (severity : Severity) (source : Source) (message : String) :
    m.Older (m.log severity source message) := by
  unfold Machine.log
  split <;> exact ⟨Nat.le_refl _, Nat.le_refl _⟩

theorem older_logCaught (m : Machine) (v : Value) : m.Older (m.logCaught v) := by
  unfold Machine.logCaught
  split
  · split
    · exact m.older_log _ _ _
    · exact .refl m
  · exact .refl m

/-- What is found out without regard to numbers is known, and the same with other numbers. -/
theorem Renamed.outcome {β γ : Type} {act : Renaming → β → β} {act' : Renaming → γ → γ}
    {g : Machine → β → Except Error γ}
    (hg : ∀ (r : Renaming) (m m' : Machine), m.CellsRenamed r m' → ∀ b,
      g m' (act r b) = r.outcome (act' r) (g m b))
    {r : Renaming} {m' : Machine} (h : m.Renamed r m') {b : β} (hb : m.Knows act b) :
    m.Knows (fun r => r.outcome (act' r)) (g m b) ∧
      g m' (act r b) = r.outcome (act' r) (g m b) := by
  refine ⟨?_, hg r m m' h.cellsRenamed b⟩
  intro s t hagree
  -- Renamings that agree give the same cells, and the outcome in these is the same.
  have hcells : m.cells.map s.value = m.cells.map t.value := h.proper.cells s t hagree
  have hs := hg s m { m with cells := m.cells.map s.value } ⟨rfl, rfl⟩ b
  have ht := hg t m { m with cells := m.cells.map t.value } ⟨rfl, rfl⟩ b
  rw [hcells, hb s t hagree] at hs
  exact hs.symm.trans ht

end Changes

end Machine

end AtomLisp
