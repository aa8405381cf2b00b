import AtomLisp.Proofs.Discipline.Callers
import AtomLisp.Session
import Mathlib.Logic.Relation

/-! # Which frames evaluation changes

  Evaluation in a frame binds names in that frame, in roots, and in frames that it makes itself.
  All other frames stay as they are; and whatever is bound stays bound.

  * `Frames.Extends`: frames that have kept their outer frames and their names;
  * `Frames.Within`: frames of which only the writable ones have changed;
  * `evaluate_changes`: evaluation leaves frames that it may not change as they are, and no name
    is ever unbound.
-/

namespace AtomLisp

namespace Frames

variable {frames later : Frames} {id outer : FrameId} {frame : Frame} {name : String}

/-! ### Walking outward -/

theorem get?_eq_none_iff : frames.get? id = none ↔ frames.size ≤ id := by
  simp [get?, size]

theorem lt_size_of_get? (h : frames.get? id = some frame) : id < frames.size := by
  refine Nat.lt_of_not_le fun hge => ?_
  rw [get?_eq_none_iff.2 hge] at h
  cases h

theorem exists_get? (h : id < frames.size) : ∃ frame, frames.get? id = some frame :=
  Option.ne_none_iff_exists'.1 fun hnone => Nat.not_le.2 h (get?_eq_none_iff.1 hnone)

theorem chain_of_none (h : frames.get? id = none) : frames.chain id = [] := by
  rw [chain]
  split
  · rfl
  · simp_all

theorem chain_of_root (h : frames.get? id = some frame) (houter : frame.outer = none) :
    frames.chain id = [id] := by
  rw [chain]
  split
  · simp_all
  · split
    · rfl
    · simp_all

theorem chain_of_outer (h : frames.get? id = some frame) (houter : frame.outer = some outer) :
    frames.chain id = id :: frames.chain outer := by
  rw [chain]
  split
  · simp_all
  · split
    · simp_all
    · simp_all

theorem root_of_none (h : frames.get? id = none) : frames.root id = id := by
  rw [root, chain_of_none h]
  rfl

theorem root_of_root (h : frames.get? id = some frame) (houter : frame.outer = none) :
    frames.root id = id := by
  rw [root, chain_of_root h houter]
  rfl

/-- A frame and its outer frame have the same root. -/
theorem root_of_outer (h : frames.get? id = some frame) (houter : frame.outer = some outer) :
    frames.root id = frames.root outer := by
  -- The outer frame is older, so it is there and its chain is not empty.
  have hlt : outer < frames.size :=
    Nat.lt_trans (frames.outer_lt id frame outer h houter) (lt_size_of_get? h)
  obtain ⟨frame', h'⟩ := exists_get? hlt
  have hchain : frames.chain outer ≠ [] := by
    cases houter' : frame'.outer with
    | none => simp [chain_of_root h' houter']
    | some _ => simp [chain_of_outer h' houter']
  obtain ⟨last, hlast⟩ := Option.ne_none_iff_exists'.1 (mt List.getLast?_eq_none_iff.1 hchain)
  simp [root, chain_of_outer h houter, List.getLast?_cons, hlast]

theorem lookup?_of_none (h : frames.get? id = none) : frames.lookup? name id = none := by
  simp [lookup?, chain_of_none h]

theorem lookup?_of_root (h : frames.get? id = some frame) (houter : frame.outer = none) :
    frames.lookup? name id = frame.vars.lookup name := by
  simp [lookup?, chain_of_root h houter, vars, h]

/-- A name that a frame does not bind is looked up in the frame around it. -/
theorem lookup?_of_outer (h : frames.get? id = some frame) (houter : frame.outer = some outer) :
    frames.lookup? name id = (frame.vars.lookup name).or (frames.lookup? name outer) := by
  simp only [lookup?, chain_of_outer h houter, List.findSome?_cons, vars, h]
  cases frame.vars.lookup name <;> rfl

/-! ### Frames that are kept -/

/-- Every frame is still there, below the same outer frame, and has kept its names. -/
def Extends (frames later : Frames) : Prop :=
  ∀ id frame, frames.get? id = some frame → ∃ frame', later.get? id = some frame' ∧
    frame'.outer = frame.outer ∧
    ∀ name, Entries.contains frame.vars name = true → Entries.contains frame'.vars name = true

namespace Extends

theorem refl (frames : Frames) : frames.Extends frames :=
  fun _ frame h => ⟨frame, h, rfl, fun _ hname => hname⟩

theorem trans {last : Frames} (h : frames.Extends later) (h' : later.Extends last) :
    frames.Extends last := by
  intro id frame hget
  obtain ⟨frame', hget', houter, hnames⟩ := h id frame hget
  obtain ⟨frame'', hget'', houter', hnames'⟩ := h' id frame' hget'
  exact ⟨frame'', hget'', houter'.trans houter, fun name hname => hnames' name (hnames name hname)⟩

theorem size_le (h : frames.Extends later) : frames.size ≤ later.size := by
  refine Nat.le_of_not_lt fun hlt => ?_
  obtain ⟨frame, hget⟩ := exists_get? hlt
  obtain ⟨frame', hget', -⟩ := h _ frame hget
  exact Nat.lt_irrefl _ (lt_size_of_get? hget')

/-- Binding a name keeps all names. -/
theorem define (frames : Frames) (id : FrameId) (name : String) (value : Value) :
    frames.Extends (frames.define id name value) := by
  intro other frame hget
  by_cases hid : other = id
  · -- The frame has one name more, or another value for a name that it had.
    subst hid
    refine ⟨{ frame with vars := Entries.insert name value frame.vars }, ?_, rfl, ?_⟩
    · rw [get?_define_self, hget]
      rfl
    · intro other hother
      by_cases hname : other = name
      · subst hname
        simp [Entries.contains, Entries.lookup_insert_self]
      · simpa [Entries.contains, Entries.lookup_insert_of_ne hname] using hother
  · exact ⟨frame, by rw [get?_define_of_ne hid, hget], rfl, fun _ hname => hname⟩

/-- A new frame leaves the others alone. -/
theorem push (frames : Frames) (outer : Option FrameId) (vars : Entries Value) :
    frames.Extends (frames.push outer vars) := by
  intro id frame hget
  exact ⟨frame, by rw [get?_push_of_lt (lt_size_of_get? hget), hget], rfl, fun _ hname => hname⟩

/-- A name that is bound somewhere outward stays so. -/
theorem lookup?_isSome (h : frames.Extends later) (name : String) (id : FrameId)
    (hname : (frames.lookup? name id).isSome = true) :
    (later.lookup? name id).isSome = true := by
  -- Outer frames are older, so the walk outward is an induction on the number of the frame.
  induction id using Nat.strongRecOn with
  | ind id ih =>
    cases hget : frames.get? id with
    | none =>
      rw [lookup?_of_none hget] at hname
      cases hname
    | some frame =>
      obtain ⟨frame', hget', houter', hnames⟩ := h id frame hget
      cases houter : frame.outer with
      | none =>
        rw [lookup?_of_root hget houter] at hname
        rw [lookup?_of_root hget' (houter'.trans houter)]
        exact hnames name hname
      | some outer =>
        rw [lookup?_of_outer hget houter, Option.isSome_or, Bool.or_eq_true] at hname
        rw [lookup?_of_outer hget' (houter'.trans houter), Option.isSome_or, Bool.or_eq_true]
        rcases hname with hname | hname
        · exact .inl (hnames name hname)
        · exact .inr (ih outer (frames.outer_lt id frame outer hget houter) hname)

end Extends

/-! ### Writable frames -/

/-- The frames that evaluation in `start` may change: that frame, the roots, and new frames. -/
def Writable (frames : Frames) (start id : FrameId) : Prop :=
  id = start ∨ frames.size ≤ id ∨ ∃ inner, frames.root inner = id

/-- Only writable frames have changed, and roots are writable. -/
structure Within (base : Frames) (start : FrameId) (frames : Frames) : Prop where
  extends_base : base.Extends frames
  untouched    : ∀ id, ¬ base.Writable start id → frames.get? id = base.get? id
  roots        : ∀ id, base.Writable start (frames.root id)

namespace Within

variable {base : Frames} {start : FrameId}

theorem refl (frames : Frames) (start : FrameId) : frames.Within start frames where
  extends_base := .refl frames
  untouched _ _ := rfl
  roots id := .inr (.inr ⟨id, rfl⟩)

/-- No frame gets another root, and new frames are writable. -/
theorem roots_of_extends (h : base.Within start frames) (hlater : frames.Extends later)
    (id : FrameId) : base.Writable start (later.root id) := by
  have hsize := h.extends_base.size_le
  induction id using Nat.strongRecOn with
  | ind id ih =>
    cases hget : later.get? id with
    | none =>
      rw [root_of_none hget]
      have := get?_eq_none_iff.1 hget
      have := hlater.size_le
      exact .inr (.inl (by omega))
    | some frame =>
      cases houter : frame.outer with
      | some outer =>
        rw [root_of_outer hget houter]
        exact ih outer (later.outer_lt id frame outer hget houter)
      | none =>
        rw [root_of_root hget houter]
        cases hold : frames.get? id with
        | none =>
          have := get?_eq_none_iff.1 hold
          exact .inr (.inl (by omega))
        | some old =>
          -- The frame was a root before.
          obtain ⟨frame', hget', houter', -⟩ := hlater id old hold
          rw [hget] at hget'
          cases hget'
          have := h.roots id
          rwa [root_of_root hold (houter'.symm.trans houter)] at this

theorem define (h : base.Within start frames) (hid : base.Writable start id) (name : String)
    (value : Value) : base.Within start (frames.define id name value) where
  extends_base := h.extends_base.trans (.define frames id name value)
  -- The name is bound in a writable frame, so it is another one.
  untouched other hother := by
    have hne : other ≠ id := fun heq => hother (heq ▸ hid)
    rw [get?_define_of_ne hne, h.untouched other hother]
  roots := h.roots_of_extends (.define frames id name value)

theorem push (h : base.Within start frames) (outer : Option FrameId) (vars : Entries Value) :
    base.Within start (frames.push outer vars) where
  extends_base := h.extends_base.trans (.push frames outer vars)
  untouched id hid := by
    -- New frames are writable, so the frame is one of the first.
    have hlt : id < base.size := Nat.lt_of_not_le fun hle => hid (.inr (.inl hle))
    rw [get?_push_of_lt (Nat.lt_of_lt_of_le hlt h.extends_base.size_le), h.untouched id hid]
  roots := h.roots_of_extends (.push frames outer vars)

end Within

end Frames

/-! ### Evaluation -/

open Frames

/-- The discipline of evaluation in a frame: jobs work in writable frames. -/
def Discipline.within (base : Frames) (start : FrameId) : Discipline Unit where
  Inv m := base.Within start m.frames
  Free id := base.Writable start id
  Rel _ := True
  rel_same _ := trivial
  rel_next _ _ _ _ := trivial
  inv_still h hframes _ := by rwa [hframes]
  inv_define name v h hid := h.define hid name v
  inv_push outer vars h := h.push (some outer) vars
  free_size h := .inr (.inl h.extends_base.size_le)
  free_root h _ := h.roots _

/-- Every way that evaluation in a frame may end leaves the frames within bounds. -/
theorem evaluate_within (fuel : Nat) (form : Value) (start : FrameId) (m : Machine) :
    (evaluate fuel form start m).Sat (fun m' => m.frames.Within start m'.frames)
      fun _ => True :=
  (((Discipline.within m.frames start).callers_perform fuel 0).complete
    (show m.frames.Writable start start from .inl rfl) form m (.refl m.frames start)).2 ()

/-- All frames hang below the root frame of the session. -/
def Machine.Rooted (m : Machine) : Prop :=
  ∀ id < m.frames.size, m.frames.root id = Session.root

/-- A run leaves a machine, with a value or with an error. -/
def Result.Leaves {α : Type} (r : Result α) (m : Machine) : Prop :=
  (∃ a, r = .done a m) ∨ ∃ e, r = .failed e m

theorem Result.Sat.of_leaves {α : Type} {I : Machine → Prop} {Q : α → Prop} {r : Result α}
    {m : Machine} (h : r.Sat I Q) (hm : r.Leaves m) : I m := by
  obtain ⟨a, rfl⟩ | ⟨e, rfl⟩ := hm
  · exact h.1
  · exact h

/-- Some evaluation in the first machine leaves the second one. -/
def Machine.Evaluates (m m' : Machine) : Prop :=
  ∃ (fuel : Nat) (form : Value) (frame : FrameId), (evaluate fuel form frame m).Leaves m'

/-- However many evaluations follow one another, names stay bound. -/
theorem extends_of_evaluates {m m' : Machine} (h : Relation.ReflTransGen Machine.Evaluates m m') :
    m.frames.Extends m'.frames := by
  induction h with
  | refl => exact .refl _
  | tail _ hlast ih =>
    obtain ⟨fuel, form, frame, hleaves⟩ := hlast
    exact ih.trans ((evaluate_within fuel form frame _).of_leaves hleaves).extends_base

/-- **Evaluation changes only the frames it may.** Where all frames hang below one root, evaluation
in a frame, whether it comes to a value or to an error, leaves every other frame but the root as it
was. No frame loses a name or gets another outer frame, so a name that is bound as seen from a
frame stays bound, whatever is evaluated later. -/
theorem evaluate_changes (fuel : Nat) (form : Value) (start : FrameId) (m m' : Machine)
    (hrooted : m.Rooted) (h : (evaluate fuel form start m).Leaves m') :
    (∀ id < m.frames.size, id ≠ start → id ≠ Session.root →
      m'.frames.get? id = m.frames.get? id) ∧
    m.frames.Extends m'.frames ∧
    ∀ (later : Machine) (name : String) (id : FrameId),
      Relation.ReflTransGen Machine.Evaluates m' later →
      (m.frames.lookup? name id).isSome = true → (later.frames.lookup? name id).isSome = true := by
  have hwithin := (evaluate_within fuel form start m).of_leaves h
  refine ⟨?_, hwithin.extends_base, ?_⟩
  · intro id hid hstart hroot
    refine hwithin.untouched id ?_
    -- The frame is neither the one of the evaluation, nor a new one, nor a root.
    rintro (heq | hle | ⟨inner, hinner⟩)
    · exact hstart heq
    · exact Nat.not_le.2 hid hle
    · by_cases hlt : inner < m.frames.size
      · exact hroot (hinner.symm.trans (hrooted inner hlt))
      · -- What is no frame is its own root.
        rw [root_of_none (get?_eq_none_iff.2 (Nat.le_of_not_lt hlt))] at hinner
        exact hlt (hinner ▸ hid)
  · intro later name id hlater hname
    exact (hwithin.extends_base.trans (extends_of_evaluates hlater)).lookup?_isSome name id hname

/-- Two frames side by side below the root frame. -/
def siblings : Machine :=
  let m := Session.machine
    { files := ⟨[], []⟩, clock := fun _ => 0, journal := .unset, limits := .least } .ended []
  (m.pushFrame (some Session.root) []).pushFrame (some Session.root) []

/-- `(def! x 1)` in the one frame leaves the other one as it was. -/
theorem define_leaves_sibling :
    siblings.Rooted ∧
      ∃ m', (evaluate 3 (.form [.symbol "def!", .symbol "x", .int 1]) 1 siblings).Leaves m' ∧
        m'.frames.get? 2 = siblings.frames.get? 2 := by
  have hrooted : siblings.Rooted := by
    unfold Machine.Rooted
    decide +kernel
  have hvalue : (evaluate 3 (.form [.symbol "def!", .symbol "x", .int 1]) 1 siblings).value? =
      some (.int 1) := by decide +kernel
  obtain ⟨m', hm'⟩ := Result.exists_of_value? hvalue
  have hleaves : (evaluate 3 _ 1 siblings).Leaves m' := .inl ⟨_, hm'⟩
  exact ⟨hrooted, m', hleaves,
    (evaluate_changes 3 _ 1 siblings m' hrooted hleaves).1 2 (by decide) (by decide) (by decide)⟩

end AtomLisp
