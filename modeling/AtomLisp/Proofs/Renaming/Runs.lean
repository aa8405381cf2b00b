import AtomLisp.Proofs.Discipline
import AtomLisp.Proofs.Renaming.Machines
import AtomLisp.Proofs.Renaming.Numbering

/-! # Runs with other numbers

  Two runs are *alike* when they do the same from machines that are renamings of each other: they
  come to the same result, and leave machines that are renamings of each other again, under the
  same renaming. It stays the same because new frames and serial numbers are given out in turn.

  * `Result.Renamed`: the results are the same but for the numbers;
  * `Run.Alike`, and what keeps runs alike: one run after another, repetition, and each of the
    basic runs.
-/

namespace AtomLisp

variable {α β : Type}

/-! ### Results -/

/-- The second result is the first one with other numbers. -/
inductive Result.Renamed (r : Renaming) (act : Renaming → α → α) : Result α → Result α → Prop
  | done {a : α} {m m' : Machine} (hm : m.Renamed r m') (ha : m.Knows act a) :
      Renamed r act (.done a m) (.done (act r a) m')
  | failed {e : Error} {m m' : Machine} (hm : m.Renamed r m') (he : m.Knows Renaming.error e) :
      Renamed r act (.failed e m) (.failed (r.error e) m')
  | unfinished : Renamed r act .unfinished .unfinished

/-- From the machine `m` on, the second run does what the first one does, with other numbers. -/
def Run.Alike (r : Renaming) (act : Renaming → α → α) (m : Machine) (x x' : Run α) : Prop :=
  ∀ n n', m.Older n → n.Renamed r n' →
    (x n).Sat n.Older (fun _ => True) ∧ (x n).Renamed r act (x' n')

namespace Renaming

/-- What is there of two kinds, with other numbers. -/
def sum (act : Renaming → α → α) (act' : Renaming → β → β) (r : Renaming) : α ⊕ β → α ⊕ β :=
  Sum.map (act r) (act' r)

/-- What carries no numbers at all. -/
def plain (_ : Renaming) (a : α) : α := a

end Renaming

namespace Run.Alike

variable {r : Renaming} {act : Renaming → α → α} {act' : Renaming → β → β} {m n : Machine}
  {x x' : Run α} {f f' : α → Run β} {a : α} {e : Error}

theorem mono (h : Alike r act m x x') (hmn : m.Older n) : Alike r act n x x' :=
  fun o o' ho hr => h o o' (hmn.trans ho) hr

theorem pure (ha : m.Knows act a) : Alike r act m (Pure.pure a) (Pure.pure (act r a)) :=
  fun n _ hmn hr => ⟨⟨.refl n, trivial⟩, .done hr (ha.mono hmn)⟩

theorem fail (he : m.Knows Renaming.error e) :
    Alike r act m (Run.fail e) (Run.fail (r.error e)) :=
  fun n _ hmn hr => ⟨.refl n, .failed hr (he.mono hmn)⟩

/-- One run after another: what follows starts from what the machine then knows. -/
theorem bind (hx : Alike r act m x x')
    (hf : ∀ n a, m.Older n → n.Knows act a → Alike r act' n (f a) (f' (act r a))) :
    Alike r act' m (x >>= f) (x' >>= f') := by
  intro n n' hmn hr
  obtain ⟨hsat, hres⟩ := hx n n' hmn hr
  rw [bind_eq_andThen, bind_eq_andThen]
  generalize x n = s at hsat hres ⊢
  generalize x' n' = s' at hres ⊢
  cases hres with
  | @done a o o' hr' ha =>
    obtain ⟨hno, -⟩ := hsat
    obtain ⟨hsat', hres'⟩ := hf o a (hmn.trans hno) ha o o' (.refl o) hr'
    exact ⟨hsat'.mono (fun _ h => hno.trans h) fun _ => id, hres'⟩
  | failed hr' he => exact ⟨hsat, .failed hr' he⟩
  | unfinished => exact ⟨trivial, .unfinished⟩

theorem map (hx : Alike r act m x x') {g g' : α → β}
    (hg : ∀ n a, m.Older n → n.Knows act a → n.Knows act' (g a) ∧ g' (act r a) = act' r (g a)) :
    Alike r act' m (g <$> x) (g' <$> x') := by
  refine hx.bind ?_
  intro n a hmn ha
  obtain ⟨hknows, heq⟩ := hg n a hmn ha
  show Alike r act' n (Pure.pure (g a)) (Pure.pure (g' (act r a)))
  rw [heq]
  exact .pure hknows

/-- A run that starts with a look at the machine. -/
theorem get_bind {f f' : Machine → Run β}
    (hf : ∀ n n', m.Older n → n.Renamed r n' → Alike r act' n (f n) (f' n')) :
    Alike r act' m (Run.get >>= f) (Run.get >>= f') :=
  fun n n' hmn hr => hf n n' hmn hr n n' (.refl n) hr

theorem attempt (hx : Alike r act m x x') :
    Alike r (fun r => r.outcome (act r)) m x.attempt x'.attempt := by
  intro n n' hmn hr
  obtain ⟨hsat, hres⟩ := hx n n' hmn hr
  unfold Run.attempt
  generalize x n = s at hsat hres ⊢
  generalize x' n' = s' at hres ⊢
  cases hres with
  | done hr' ha => exact ⟨⟨hsat.1, trivial⟩, .done hr' fun s t h => congrArg Except.ok (ha s t h)⟩
  | failed hr' he =>
    exact ⟨⟨hsat, trivial⟩, .done hr' fun s t h => congrArg Except.error (he s t h)⟩
  | unfinished => exact ⟨trivial, .unfinished⟩

/-- Equally many steps are alike if the steps are. -/
theorem iterate {step step' : α → Run (α ⊕ β)}
    (hstep : ∀ n a, m.Older n → n.Knows act a →
      Alike r (Renaming.sum act act') n (step a) (step' (act r a))) (times : Nat) :
    ∀ n a, m.Older n → n.Knows act a →
      Alike r act' n (Run.iterate step times a) (Run.iterate step' times (act r a)) := by
  induction times with
  | zero => exact fun n a hmn ha o o' hno hr => ⟨trivial, .unfinished⟩
  | succ times ih =>
    intro n a hmn ha
    refine (hstep n a hmn ha).bind ?_
    intro o b hno hb
    cases b with
    | inl a => exact ih o a (hmn.trans hno) fun s t h => Sum.inl.inj (hb s t h)
    | inr b => exact .pure fun s t h => Sum.inr.inj (hb s t h)

/-! ### Looking at the machine -/

/-- What is found out about the cells and the host without regard to numbers. -/
theorem read {g g' : Machine → Except Error α}
    (hg : ∀ n n', m.Older n → n.Renamed r n' →
      n.Knows (fun r => r.outcome (act r)) (g n) ∧ g' n' = r.outcome (act r) (g n)) :
    Alike r act m (Run.read g) (Run.read g') := by
  intro n n' hmn hr
  obtain ⟨hknows, heq⟩ := hg n n' hmn hr
  unfold Run.read
  rw [heq]
  cases hgn : g n with
  | ok a =>
    rw [hgn] at hknows
    exact ⟨⟨.refl n, trivial⟩, .done hr fun s t h => Except.ok.inj (hknows s t h)⟩
  | error e =>
    rw [hgn] at hknows
    exact ⟨.refl n, .failed hr fun s t h => Except.error.inj (hknows s t h)⟩

/-- What is found out about values alone, without regard to numbers. -/
theorem ofExcept {g : α → Except Error β}
    (hg : ∀ (r : Renaming) (a : α), g (act r a) = r.outcome (act' r) (g a)) (ha : m.Knows act a) :
    Alike r act' m (Run.ofExcept (g a)) (Run.ofExcept (g (act r a))) := by
  have hknows : m.Knows (fun r => r.outcome (act' r)) (g a) := by
    intro s t h
    show s.outcome (act' s) (g a) = t.outcome (act' t) (g a)
    rw [← hg, ← hg, ha s t h]
  rw [hg]
  cases hga : g a with
  | ok b =>
    rw [hga] at hknows
    exact .pure fun s t h => Except.ok.inj (hknows s t h)
  | error e =>
    rw [hga] at hknows
    exact .fail fun s t h => Except.error.inj (hknows s t h)

/-- An error that carries no value. -/
theorem stop (he : ∀ r : Renaming, r.error e = e) :
    Alike r act m (Run.fail e) (Run.fail e) := by
  have h : Alike r act m (Run.fail e) (Run.fail (r.error e)) := .fail (.of_forall he)
  rwa [he] at h

/-! ### Changing the machine -/

theorem modify {g g' : Machine → Machine}
    (hg : ∀ n n', m.Older n → n.Renamed r n' → n.Older (g n) ∧ (g n).Renamed r (g' n')) :
    Alike r Renaming.plain m (Run.modify g) (Run.modify g') := by
  intro n n' hmn hr
  obtain ⟨hng, hr'⟩ := hg n n' hmn hr
  exact ⟨⟨hng, trivial⟩, .done hr' fun _ _ _ => rfl⟩

theorem define {id : FrameId} {v : Value} (name : String) (hv : m.Knows Renaming.value v) :
    Alike r Renaming.plain m (Run.modify (·.define id name v))
      (Run.modify (·.define (r.frameId id) name (r.value v))) := by
  refine modify ?_
  intro n n' hmn hr
  exact ⟨⟨Nat.le_of_eq (Frames.size_define ..).symm, Nat.le_refl _⟩,
    hr.define id name (hv.mono hmn)⟩

theorem newFrame {vars : Entries Value} (outer : FrameId)
    (hvars : m.Knows Renaming.entriesOf vars) :
    Alike r Renaming.frameId m (Run.newFrame outer vars)
      (Run.newFrame (r.frameId outer) (r.entriesOf vars)) := by
  intro n n' hmn hr
  -- The next frame of the one machine corresponds to the next frame of the other one.
  have hnew : n.frames.size < (n.pushFrame (some outer) vars).frames.size :=
    Nat.lt_of_lt_of_eq (Nat.lt_succ_self _) (Frames.size_push ..).symm
  have hid : r.frameId n.frames.size = n'.frames.size := hr.frameId 0
  refine ⟨⟨n.older_pushFrame _ _, trivial⟩, ?_⟩
  show Result.Renamed r Renaming.frameId (.done n.frames.size (n.pushFrame (some outer) vars))
    (.done n'.frames.size (n'.pushFrame (some (r.frameId outer)) (r.entriesOf vars)))
  rw [← hid]
  exact .done (hr.pushFrame outer (hvars.mono hmn)) (.frameId_of_lt hnew)

theorem newSerial : Alike r Renaming.serial m Run.newSerial Run.newSerial := by
  intro n n' hmn hr
  have hserial : r.serial n.nextSerial = n'.nextSerial := hr.serial 0
  refine ⟨⟨⟨Nat.le_refl _, Nat.le_succ _⟩, trivial⟩, ?_⟩
  show Result.Renamed r Renaming.serial (.done n.nextSerial _) (.done n'.nextSerial _)
  rw [← hserial]
  refine .done ?_ fun s t h => h.serial _ (Nat.lt_succ_self _)
  rw [hserial]
  exact hr.skipSerials 1

theorem newAtom {v : Value} (hv : m.Knows Renaming.value v) :
    Alike r Renaming.value m (Run.newAtom v) (Run.newAtom (r.value v)) := by
  intro n n' hmn hr
  have hcells : n.Knows (fun r => Array.map r.value) (n.cells.push v) := by
    intro s t h
    have hold : n.cells.map s.value = n.cells.map t.value := hr.proper.cells s t h
    show (n.cells.push v).map s.value = (n.cells.push v).map t.value
    rw [Array.map_push, Array.map_push, hold, hv.mono hmn s t h]
  have hr' := hr.of_cells hcells
  rw [Array.map_push, ← hr.cells] at hr'
  -- Cells have no other numbers: both machines have equally many.
  have hsize : n'.cells.size = n.cells.size := by rw [hr.cells, Array.size_map]
  refine ⟨⟨⟨Nat.le_refl _, Nat.le_refl _⟩, trivial⟩, ?_⟩
  show Result.Renamed r Renaming.value (.done (.atom n.cells.size) _)
    (.done (.atom n'.cells.size) _)
  rw [hsize]
  exact .done hr' fun _ _ _ => rfl

theorem writeCell {v : Value} (cell : CellId) (hv : m.Knows Renaming.value v) :
    Alike r Renaming.value m (Builtin.writeCell cell v) (Builtin.writeCell cell (r.value v)) := by
  have hset : Alike r Renaming.plain m (Run.modify (·.setCell cell v))
      (Run.modify (·.setCell cell (r.value v))) := by
    refine modify ?_
    intro n n' hmn hr
    refine ⟨⟨Nat.le_refl _, Nat.le_refl _⟩, ?_⟩
    have hmap : ∀ s : Renaming, (n.cells.modify cell fun _ => v).map s.value =
        (n.cells.map s.value).modify cell fun _ => s.value v := by
      intro s
      refine Array.ext_getElem? fun i => ?_
      simp only [Array.getElem?_map, Array.getElem?_modify]
      split
      · cases n.cells[i]? <;> rfl
      · rfl
    have hcells : n.Knows (fun r => Array.map r.value) (n.cells.modify cell fun _ => v) := by
      intro s t h
      have hold : n.cells.map s.value = n.cells.map t.value := hr.proper.cells s t h
      show (n.cells.modify cell fun _ => v).map s.value =
        (n.cells.modify cell fun _ => v).map t.value
      rw [hmap, hmap, hold, hv.mono hmn s t h]
    have hr' := hr.of_cells hcells
    rw [hmap, ← hr.cells] at hr'
    exact hr'
  exact hset.bind fun n _ hmn _ => .pure (hv.mono hmn)

theorem log (severity : Severity) (source : Source) (message : String) :
    Alike r Renaming.plain m (Run.modify (·.log severity source message))
      (Run.modify (·.log severity source message)) :=
  modify fun n _ _ hr => ⟨n.older_log .., hr.log ..⟩

theorem logCaught (v : Value) :
    Alike r Renaming.plain m (Run.modify (·.logCaught v))
      (Run.modify (·.logCaught (r.value v))) :=
  modify fun n _ _ hr => ⟨n.older_logCaught v, hr.logCaught v⟩

theorem write (text : String) :
    Alike r Renaming.plain m (Run.modify (·.write text)) (Run.modify (·.write text)) := by
  refine modify ?_
  intro n n' hmn hr
  refine ⟨⟨Nat.le_refl _, Nat.le_refl _⟩, ?_⟩
  unfold Machine.write
  rw [hr.output]
  exact hr.of_output _

/-- The same line is read, and the same fault is met. -/
theorem takeLine : Alike r Renaming.plain m Run.takeLine Run.takeLine := by
  intro n n' hmn hr
  unfold Run.takeLine
  rw [hr.input]
  obtain ⟨f | line, rest⟩ := n.input.takeLine
  · exact ⟨⟨Nat.le_refl _, Nat.le_refl _⟩, .failed (hr.of_input rest) fun _ _ _ => rfl⟩
  · exact ⟨⟨⟨Nat.le_refl _, Nat.le_refl _⟩, trivial⟩, .done (hr.of_input rest) fun _ _ _ => rfl⟩

theorem ask (prompt : String) : Alike r Renaming.plain m (Run.ask prompt) (Run.ask prompt) :=
  (write prompt).bind fun _ _ _ _ => takeLine

/-- The clock shows the same, since it is read equally often. -/
theorem readClock : Alike r Renaming.plain m Run.readClock Run.readClock := by
  intro n n' hmn hr
  have hshown : n'.host.clock n'.readings = n.host.clock n.readings := by
    rw [hr.host, hr.readings]
  unfold Run.readClock
  rw [hshown, hr.readings]
  exact ⟨⟨⟨Nat.le_refl _, Nat.le_refl _⟩, trivial⟩, .done (hr.of_readings _) fun _ _ _ => rfl⟩

/-! ### New collections -/

variable {items : List Value} {entries : Entries Value}

theorem newList (h : m.Knows Renaming.values items) :
    Alike r Renaming.value m (Run.newList items) (Run.newList (r.values items)) :=
  newSerial.bind fun _ _ hmn hserial => .pure (.list hserial (h.mono hmn))

theorem newVector (h : m.Knows Renaming.values items) :
    Alike r Renaming.value m (Run.newVector items) (Run.newVector (r.values items)) :=
  newSerial.bind fun _ _ hmn hserial => .pure (.vector hserial (h.mono hmn))

theorem newMap (h : m.Knows Renaming.entriesOf entries) :
    Alike r Renaming.value m (Run.newMap entries) (Run.newMap (r.entriesOf entries)) :=
  newSerial.bind fun _ _ hmn hserial => .pure (.map hserial (h.mono hmn))

theorem number {form : Value} (h : m.Knows Renaming.value form) :
    Alike r Renaming.value m (Run.number form) (Run.number (r.value form)) := by
  intro n n' hmn hr
  have hgrow : n.Older { n with nextSerial := (form.number n.nextSerial).2 } :=
    ⟨Nat.le_refl _, form.le_number _⟩
  refine ⟨⟨hgrow, trivial⟩, ?_⟩
  have hr' := hr.skipSerials form.unnumbered
  have hnumber := form.number_value r fun k _ => hr.serial k
  rw [← form.number_snd] at hr'
  show Result.Renamed r Renaming.value
    (.done (form.number n.nextSerial).1 { n with nextSerial := (form.number n.nextSerial).2 })
    (.done ((r.value form).number n'.nextSerial).1
      { n' with nextSerial := ((r.value form).number n'.nextSerial).2 })
  rw [hnumber]
  refine .done hr' ?_
  intro s t hagree
  exact Value.number_agree form hagree.serial (h s t ((hmn.trans hgrow).agree hagree))

end Run.Alike

end AtomLisp
