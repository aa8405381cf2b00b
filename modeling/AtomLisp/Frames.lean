import AtomLisp.Error

/-! # Frames

  Where names are bound. A frame holds its own bindings and hangs below an outer frame, or is a
  root. Frames are never removed, and the outer frame of a frame never changes, so a closure sees
  later definitions in the frame that it was made in.

  * `Frames.chain` lists a frame and the frames outward from it;
  * `Frames.find?`, `Frames.lookup?` and `Frames.root` walk that chain;
  * `Frames.define` binds a name in one frame, and `Frames.push` makes a frame;
  * `Frames.defineNamed`, `Frames.update` and `Frames.child` take names that may be no symbols.
-/

namespace AtomLisp

/-- Bindings, in order of first definition, and the frame around them. -/
structure Frame where
  vars  : List (String × Value)
  outer : Option FrameId

/-- All frames by their number. The outer frame of a frame is always an older one. -/
structure Frames where
  toArray  : Array Frame
  outer_lt : ∀ (id : FrameId) (frame : Frame) (outer : FrameId),
    toArray[id]? = some frame → frame.outer = some outer → outer < id

namespace Frames

/-- No frames at all. -/
def empty : Frames := ⟨#[], by simp⟩

/-- How many frames there are; also the number of the next one. -/
def size (frames : Frames) : Nat := frames.toArray.size

/-- The frame of a number. -/
def get? (frames : Frames) (id : FrameId) : Option Frame := frames.toArray[id]?

/-- The bindings of a frame. -/
def vars (frames : Frames) (id : FrameId) : Entries Value :=
  match frames.get? id with
  | some frame => frame.vars
  | none => []

/-! ### Walking outward -/

/-- A frame and the frames outward from it, ending in a root. -/
def chain (frames : Frames) (id : FrameId) : List FrameId :=
  match _h : frames.get? id with
  | none => []
  | some frame =>
    match _h' : frame.outer with
    | none => [id]
    | some outer => id :: frames.chain outer
termination_by id
decreasing_by exact frames.outer_lt _ _ _ _h _h'

/-- The first frame of the chain that binds `name`. -/
def find? (frames : Frames) (name : String) (id : FrameId) : Option FrameId :=
  (frames.chain id).find? fun id => Entries.contains (frames.vars id) name

/-- The value of `name`, seen from a frame. -/
def lookup? (frames : Frames) (name : String) (id : FrameId) : Option Value :=
  (frames.chain id).findSome? fun id => (frames.vars id).lookup name

/-- The last frame of the chain. -/
def root (frames : Frames) (id : FrameId) : FrameId := (frames.chain id).getLast?.getD id

/-! ### Changes -/

/-- Binds `name` in one frame. -/
def define (frames : Frames) (id : FrameId) (name : String) (value : Value) : Frames where
  toArray := frames.toArray.modify id fun frame =>
    { frame with vars := Entries.insert name value frame.vars }
  outer_lt := by
    intro i frame outer hi ho
    rw [Array.getElem?_modify] at hi
    split at hi
    · rcases hf : frames.toArray[i]? with _ | f
      · simp [hf] at hi
      · simp only [hf, Option.map_some, Option.some.injEq] at hi
        subst hi
        exact frames.outer_lt i f outer hf ho
    · exact frames.outer_lt i frame outer hi ho

/-- Makes a frame below `outer`, with its first bindings. Its number is the old `size`. -/
def push (frames : Frames) (outer : Option FrameId) (vars : Entries Value) : Frames where
  toArray := frames.toArray.push ⟨vars, outer.filter (· < frames.toArray.size)⟩
  outer_lt := by
    intro i frame o hi ho
    rw [Array.getElem?_push] at hi
    split at hi
    · next h =>
      cases hi
      have := (Option.filter_eq_some_iff.1 ho).2
      simpa [h] using this
    · exact frames.outer_lt i frame o hi ho

/-! ### Names that may be no symbols

A name that is no symbol is refused, and shown in the message as `describe` says. -/

/-- Binds a name that has to be a symbol. -/
def defineNamed (describe : Value → Except Error String) (frames : Frames) (id : FrameId)
    (name value : Value) : Except Error Frames :=
  match name with
  | .symbol name => .ok (frames.define id name value)
  | other => do throw (.invalidSymbol (← describe other))

/-- Names with their values, each name once: in its first place and with its last value. -/
def distinct (pairs : List (Value × Value)) : List (Value × Value) :=
  pairs.foldl (fun acc pair =>
    if acc.any (·.1 = pair.1) then acc.map fun old => if old.1 = pair.1 then pair else old
    else acc ++ [pair]) []

/-- Binds one name after another, up to the first that is no symbol. -/
def defineAll (describe : Value → Except Error String) (id : FrameId) :
    List (Value × Value) → Frames → Frames × Option Error
  | [], frames => (frames, none)
  | (name, value) :: rest, frames =>
    match frames.defineNamed describe id name value with
    | .ok frames => defineAll describe id rest frames
    | .error e => (frames, some e)

/-- Binds every name of a table, up to the first that is no symbol. -/
def update (describe : Value → Except Error String) (frames : Frames) (id : FrameId)
    (pairs : List (Value × Value)) : Frames × Option Error :=
  defineAll describe id (distinct pairs) frames

/-- Makes a frame below `outer` with the names of a table. If one of them is no symbol, there is
no such frame. -/
def child (describe : Value → Except Error String) (frames : Frames) (outer : FrameId)
    (pairs : List (Value × Value)) : Except Error Frames :=
  match (frames.push (some outer) []).update describe frames.size pairs with
  | (frames, none) => .ok frames
  | (_, some e) => .error e

/-! ### What the operations keep -/

@[simp] theorem size_define (frames : Frames) (id : FrameId) (name : String) (value : Value) :
    (frames.define id name value).size = frames.size := by
  simp [size, define]

@[simp] theorem size_push (frames : Frames) (outer : Option FrameId) (vars : Entries Value) :
    (frames.push outer vars).size = frames.size + 1 := by
  simp [size, push]

theorem get?_define_of_ne {frames : Frames} {id other : FrameId} (h : other ≠ id)
    (name : String) (value : Value) :
    (frames.define id name value).get? other = frames.get? other := by
  simp [get?, define, Array.getElem?_modify, Ne.symm h]

theorem get?_define_self (frames : Frames) (id : FrameId) (name : String) (value : Value) :
    (frames.define id name value).get? id =
      (frames.get? id).map fun frame =>
        { frame with vars := Entries.insert name value frame.vars } := by
  simp [get?, define, Array.getElem?_modify]

/-- A new frame has the next number. -/
theorem get?_push (frames : Frames) (outer : Option FrameId) (vars : Entries Value)
    (id : FrameId) :
    (frames.push outer vars).get? id =
      if id = frames.size then some ⟨vars, outer.filter (· < frames.size)⟩
      else frames.get? id := by
  simp only [get?, push, size, Array.getElem?_push]
  rfl

theorem get?_push_of_lt {frames : Frames} {id : FrameId} (h : id < frames.size)
    (outer : Option FrameId) (vars : Entries Value) :
    (frames.push outer vars).get? id = frames.get? id := by
  rw [get?_push, if_neg (Nat.ne_of_lt h)]

end Frames

end AtomLisp
