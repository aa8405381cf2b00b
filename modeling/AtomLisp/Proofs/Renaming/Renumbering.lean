import AtomLisp.Proofs.Renaming.Runs

/-! # Machines that give out other numbers

  A machine is a renaming of itself, and stays one of another machine when one of the two has a
  frame more that nothing refers to, or gives out other numbers from now on.

  * `Renaming.renumberFrames` and `Machine.Renamed.pushFrame_right`: a frame more;
  * `Renaming.renumber` and `Machine.Renamed.renumber`: the next numbers are those that were set
    aside for them, and the later ones are given out in turn.
-/

namespace AtomLisp

/-! ### Numbers that are given out -/

/-- What `f` gives to the numbers below `next` stays. The next `count` numbers get those from
`start` on, and the later ones those from `last` on. -/
def assign (f : Nat → Nat) (next count start last n : Nat) : Nat :=
  if n < next then f n
  else if n < next + count then start + (n - next)
  else last + (n - (next + count))

/-- What `f` gives to the numbers below `next` is not assigned once more. -/
structure Assignable (f : Nat → Nat) (next count start last : Nat) : Prop where
  injective : Function.Injective f
  apart     : ∀ n < next, f n < start ∨ start + count ≤ f n
  below     : ∀ n < next, f n < last
  le_last   : start + count ≤ last

section

variable {f : Nat → Nat} {next count start last : Nat}

theorem assign_of_lt {n : Nat} (h : n < next) : assign f next count start last n = f n := if_pos h

theorem assign_next {k : Nat} (h : k < count) :
    assign f next count start last (next + k) = start + k := by
  unfold assign
  split
  · omega
  · split <;> omega

theorem assign_last (k : Nat) : assign f next count start last (next + count + k) = last + k := by
  unfold assign
  split
  · omega
  · split <;> omega

/-- Numbers that `f` does not give are not given either once those from `start` on are. -/
theorem assign_lt_or_le {past : Nat} (hf : ∀ n < next, f n < start ∨ past ≤ f n)
    (hpast : past ≤ last) (n : Nat) :
    assign f next count start last n < start + count ∨ past ≤ assign f next count start last n := by
  unfold assign
  split
  · have hn := hf n ‹_›
    omega
  · split <;> omega

theorem Assignable.injective_assign (h : Assignable f next count start last) :
    Function.Injective (assign f next count start last) := by
  intro x y heq
  have hapart := h.apart
  have hbelow := h.below
  have hle := h.le_last
  unfold assign at heq
  -- The three ranges stay apart, and the numbers within each of them do.
  by_cases hx : x < next <;> by_cases hy : y < next
  · simp only [hx, hy, if_true] at heq
    exact h.injective heq
  · have hxa := hapart x hx
    have hxb := hbelow x hx
    simp only [hx, hy, if_true, if_false] at heq
    split at heq <;> omega
  · have hya := hapart y hy
    have hyb := hbelow y hy
    simp only [hx, hy, if_true, if_false] at heq
    split at heq <;> omega
  · simp only [hx, hy, if_false] at heq
    split at heq <;> split at heq <;> omega

theorem assignable_id {size : Nat} : Assignable id size 0 0 (size + 1) where
  injective := Function.injective_id
  apart _ _ := .inr (Nat.zero_le _)
  below _ h := Nat.lt_succ_of_lt h
  le_last := Nat.zero_le _

end

namespace Renaming

/-- Each frame from `size` on has the number after its own. -/
def skipFrame (size : FrameId) : Renaming where
  frameId := assign id size 0 0 (size + 1)
  serial serial := serial
  frameId_injective := assignable_id.injective_assign
  serial_injective _ _ h := h
  serial_zero := Renaming.id.serial_zero

/-- The frames from `size` on get the numbers from `last` on, in turn. -/
def renumberFrames (r : Renaming) {size last : FrameId} (h : Assignable r.frameId size 0 0 last) :
    Renaming where
  frameId := assign r.frameId size 0 0 last
  serial := r.serial
  frameId_injective := h.injective_assign
  serial_injective := r.serial_injective
  serial_zero := r.serial_zero

/-- The next `count` serial numbers become those from `start` on, and the later ones those from
`last` on. -/
def renumber (r : Renaming) {next count start last : Serial} (hnext : 0 < next)
    (h : Assignable r.serial next count start last) : Renaming where
  frameId := r.frameId
  serial := assign r.serial next count start last
  frameId_injective := r.frameId_injective
  serial_injective := h.injective_assign
  serial_zero := (assign_of_lt hnext).trans r.serial_zero

end Renaming

namespace Machine

variable {r s : Renaming} {m m' : Machine}

/-! ### The machines -/

theorem Agree.refl : m.Agree r r := ⟨fun _ _ => rfl, fun _ _ => rfl⟩

theorem Agree.symm (h : m.Agree r s) : m.Agree s r :=
  ⟨fun id hid => (h.frameId id hid).symm, fun serial hserial => (h.serial serial hserial).symm⟩

theorem Agree.trans {t : Renaming} (h : m.Agree r s) (h' : m.Agree s t) : m.Agree r t :=
  ⟨fun id hid => (h.frameId id hid).trans (h'.frameId id hid),
    fun serial hserial => (h.serial serial hserial).trans (h'.serial serial hserial)⟩

/-- A machine is a renaming of itself. -/
theorem Proper.renamed_self (h : m.Proper) : m.Renamed .id m where
  proper := h
  cells := by
    rw [show Renaming.id.value = id from funext Renaming.value_id, Array.map_id]
  frames id frame hget := by
    rw [Renaming.frame_id]
    exact hget
  frameId _ := rfl
  serial _ := rfl
  input := rfl
  readings := rfl
  output := rfl
  report := rfl
  host := rfl

/-- One more frame leaves numbers for all frames that were there. -/
theorem Renamed.assignable_frames (h : m.Renamed r m') :
    Assignable r.frameId m.frames.size 0 0 (m'.frames.size + 1) where
  injective := r.frameId_injective
  apart _ _ := .inr (Nat.zero_le _)
  below _ hid := Nat.lt_succ_of_lt (h.frameId_lt_iff.2 hid)
  le_last := Nat.zero_le _

/-- A frame more in the second machine does no harm: nothing refers to it. -/
theorem Renamed.pushFrame_right (h : m.Renamed r m') (outer : Option FrameId)
    (vars : Entries Value) :
    m.Renamed (r.renumberFrames h.assignable_frames) (m'.pushFrame outer vars) := by
  have hagree : m.Agree (r.renumberFrames h.assignable_frames) r :=
    ⟨fun _ hid => assign_of_lt hid, fun _ _ => rfl⟩
  refine
    { h with
      cells := h.cells.trans (h.proper.cells _ _ hagree).symm
      frames := ?_
      frameId := ?_ }
  · intro id frame hget
    have hlt : id < m.frames.size := Frames.lt_size_of_get? hget
    rw [hagree.frameId id hlt, h.proper.frames id frame hget _ _ hagree]
    show (m'.frames.push outer vars).get? (r.frameId id) = _
    rw [Frames.get?_push_of_lt (h.frameId_lt_iff.2 hlt)]
    exact h.frames id frame hget
  · intro k
    have hlast : (r.renumberFrames h.assignable_frames).frameId (m.frames.size + 0 + k) =
        m'.frames.size + 1 + k := assign_last k
    show _ = (m'.frames.push outer vars).size + k
    rw [Frames.size_push]
    exact hlast

/-- A frame that nothing refers to does no harm. -/
theorem Proper.renamed_pushFrame (h : m.Proper) (outer : Option FrameId) (vars : Entries Value) :
    m.Renamed (.skipFrame m.frames.size) (m.pushFrame outer vars) :=
  h.renamed_self.pushFrame_right outer vars

/-- What has a number has one that was given out before. -/
theorem Renamed.serial_lt (h : m.Renamed r m') {serial : Serial} (hserial : serial < m.nextSerial) :
    r.serial serial < m'.nextSerial := by
  refine Nat.lt_of_not_le fun hle => ?_
  obtain ⟨k, hk⟩ := Nat.exists_eq_add_of_le hle
  rw [← h.serial k] at hk
  rw [r.serial_injective hk] at hserial
  exact Nat.not_lt.2 (Nat.le_add_right _ k) hserial

/-- If the first machine has given out more numbers, so has the second one. -/
theorem Renamed.nextSerial_le {n n' : Machine} (h : m.Renamed r m') (hn : n.Renamed r n')
    (hmn : m.Older n) : m'.nextSerial ≤ n'.nextSerial := by
  obtain ⟨k, hk⟩ := Nat.exists_eq_add_of_le hmn.serial
  have hnext : r.serial n.nextSerial = n'.nextSerial := hn.serial 0
  rw [hk, h.serial k] at hnext
  exact Nat.le.intro hnext

/-- The first machine may give out other numbers than the second one, if they are free there. -/
theorem Renamed.renumber {count start last : Serial} (h : m.Renamed r m')
    (hassign : Assignable r.serial m.nextSerial count start last) :
    Renamed (r.renumber h.proper.serial_pos hassign)
      { m with nextSerial := m.nextSerial + count } { m' with nextSerial := last } := by
  have hagree : m.Agree (r.renumber h.proper.serial_pos hassign) r :=
    ⟨fun _ _ => rfl, fun _ hserial => assign_of_lt hserial⟩
  exact
    { h with
      proper := h.proper.skipSerials count
      cells := h.cells.trans (h.proper.cells _ _ hagree).symm
      frames := fun id frame hget => by
        rw [h.proper.frames id frame hget _ _ hagree]
        exact h.frames id frame hget
      serial := assign_last }

/-- The second machine may have made a frame and some things more. -/
theorem Renamed.exists_pushFrame (h : m.Renamed r m') (outer : Option FrameId)
    (vars : Entries Value) (count : Nat) :
    ∃ s, m.Agree r s ∧
      m.Renamed s { m'.pushFrame outer vars with nextSerial := m'.nextSerial + count } := by
  have hframe := h.pushFrame_right outer vars
  have hassign : Assignable r.serial m.nextSerial 0 0 (m'.nextSerial + count) :=
    { injective := r.serial_injective
      apart := fun _ _ => .inr (Nat.zero_le _)
      below := fun _ hserial => Nat.lt_add_right count (h.serial_lt hserial)
      le_last := Nat.zero_le _ }
  exact ⟨_, ⟨fun _ hid => (assign_of_lt hid).symm, fun _ hserial => (assign_of_lt hserial).symm⟩,
    hframe.renumber hassign⟩

/-! ### The same but for numbers -/

/-- The results are the same but for the numbers of what the machine had not made, and for frames
that nothing refers to. -/
def Matches (m : Machine) (x y : Result Value) : Prop :=
  ∃ r : Renaming, m.Agree r .id ∧ x.Renamed r Renaming.value y

theorem Matches.ended_iff {x y : Result Value} (h : m.Matches x y) : x.Ended ↔ y.Ended := by
  obtain ⟨r, -, hxy⟩ := h
  cases hxy <;> rfl

end Machine

end AtomLisp
