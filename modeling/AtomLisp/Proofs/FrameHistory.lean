import AtomLisp.Proofs.FrameChanges
import AtomLisp.Proofs.Writing
import Mathlib.Tactic.Tauto

/-! # Frames and their history

  Operations on frames follow one another, from a single empty root on. What a frame answers is
  settled by the history of these operations: a name means what was defined for it last in the
  first frame, going outward, in which it was ever defined.

  * `FrameOp`: the operations; `FrameOp.apply`: what they do and answer;
  * `History`: the frame around each frame, and all definitions; `History.after`: what an operation
    adds to them. No frame is looked at for this;
  * `History.Recounts`: the history agrees with the frames. Every operation keeps this
    (`Recounts.apply`), so it holds after every sequence of operations (`recounts_of_reached`);
  * `frames_recall`: the answers of frames are those of their history, the walks outward end, and
    no operation changes another frame than its own.
-/

namespace AtomLisp

/-! ### Operations -/

/-- Names with their values. No name stands twice. -/
structure NameTable where
  entries : List (Value × Value)
  nodup   : (entries.map Prod.fst).Nodup

/-- Something that is done to frames, or asked of them. -/
inductive FrameOp where
  | define (frame : FrameId) (name value : Value)
  | update (frame : FrameId) (table : NameTable)
  | child (outer : FrameId) (table : NameTable)
  | find (frame : FrameId) (name : String)
  | lookup (frame : FrameId) (name : String)
  | root (frame : FrameId)

/-- What an operation answers. -/
inductive FrameAnswer where
  | done
  | made (frame : FrameId)
  | found (frame? : Option FrameId)
  | value (value? : Option Value)
  | refused (e : Error)

namespace FrameOp

/-- The frame that an operation is given. -/
def frame : FrameOp → FrameId
  | define frame _ _ | update frame _ | child frame _ | find frame _ | lookup frame _
  | root frame => frame

/-- The frame whose bindings an operation may change: the frame that it is given, or the one that
it makes. -/
def target? (frames : Frames) : FrameOp → Option FrameId
  | define frame _ _ | update frame _ => some frame
  | child _ _ => some frames.size
  | find _ _ | lookup _ _ | root _ => none

/-- Does an operation. A name that is no symbol is shown in the message as `describe` says. -/
def apply (describe : Value → Except Error String) (frames : Frames) :
    FrameOp → Frames × FrameAnswer
  | define frame name value =>
    match frames.defineNamed describe frame name value with
    | .ok frames => (frames, .done)
    | .error e => (frames, .refused e)
  | update frame table =>
    match frames.update describe frame table.entries with
    | (frames, none) => (frames, .done)
    | (frames, some e) => (frames, .refused e)
  | child outer table =>
    match frames.child describe outer table.entries with
    | .ok later => (later, .made frames.size)
    | .error e => (frames, .refused e)
  | find frame name => (frames, .found (frames.find? name frame))
  | lookup frame name => (frames, .value (frames.lookup? name frame))
  | root frame => (frames, .found (some (frames.root frame)))

end FrameOp

namespace Frames

/-- One empty frame, which is a root. -/
def single : Frames := Frames.empty.push none []

theorem get?_single (id : FrameId) :
    single.get? id = if id = 0 then some ⟨[], none⟩ else none :=
  get?_push .empty none [] id

/-- The frames after a sequence of operations, each of which was given a frame that was there. -/
inductive Reached (describe : Value → Except Error String) : List FrameOp → Frames → Prop
  | start : Reached describe [] single
  | step {ops : List FrameOp} {frames : Frames} {op : FrameOp} (h : Reached describe ops frames)
      (hframe : op.frame < frames.size) :
      Reached describe (ops ++ [op]) (op.apply describe frames).1

/-! ### Walking outward -/

/-- The frame around a frame. -/
def outer? (frames : Frames) (id : FrameId) : Option FrameId := (frames.get? id).bind Frame.outer

/-- Walks outward from a frame to the first one that passes a test, within so many rounds. There is
no answer if the rounds are used up before. -/
def walk (frames : Frames) (test : FrameId → Bool) :
    (rounds : Nat) → FrameId → Option (Option FrameId)
  | 0, _ => none
  | rounds + 1, id =>
    if test id then some (some id)
    else
      match frames.outer? id with
      | none => some none
      | some outer => walk frames test rounds outer

section
variable {frames : Frames} {id : FrameId} {name : String}

/-- A walk ends within as many rounds as there are frames up to its first one. -/
theorem walk_eq (test : FrameId → Bool) {rounds : Nat} (hid : id < frames.size)
    (hrounds : id < rounds) :
    frames.walk test rounds id = some ((frames.chain id).find? test) := by
  induction rounds generalizing id with
  | zero => exact absurd hrounds (Nat.not_lt_zero id)
  | succ rounds ih =>
    obtain ⟨frame, hget⟩ := exists_get? hid
    have houter? : frames.outer? id = frame.outer := by rw [outer?, hget, Option.bind_some]
    rw [walk, houter?]
    cases houter : frame.outer with
    | none =>
      rw [chain_of_root hget houter]
      cases htest : test id <;> simp [htest]
    | some outer =>
      -- The outer frame is older, so one round less is enough for it.
      have hlt := frames.outer_lt id frame outer hget houter
      have hrest := ih (Nat.lt_trans hlt hid) (Nat.lt_of_lt_of_le hlt (Nat.le_of_lt_succ hrounds))
      rw [chain_of_outer hget houter]
      cases htest : test id <;> simp [htest, hrest]

/-- The root is the first frame with no frame around it. -/
theorem find?_chain_root (hid : id < frames.size) :
    (frames.chain id).find? (fun other => (frames.outer? other).isNone) =
      some (frames.root id) := by
  induction id using Nat.strongRecOn with
  | ind id ih =>
    obtain ⟨frame, hget⟩ := exists_get? hid
    have houter? : frames.outer? id = frame.outer := by rw [outer?, hget, Option.bind_some]
    cases houter : frame.outer with
    | none =>
      rw [chain_of_root hget houter, root_of_root hget houter]
      simp [houter?, houter]
    | some outer =>
      have hlt := frames.outer_lt id frame outer hget houter
      rw [chain_of_outer hget houter, root_of_outer hget houter, ← ih outer hlt
        (Nat.lt_trans hlt hid)]
      simp [houter?, houter]

/-- What a name means is bound in the frame that is found for it. -/
theorem lookup?_eq_bind :
    frames.lookup? name id =
      (frames.find? name id).bind fun owner => (frames.vars owner).lookup name := by
  unfold lookup? find?
  -- Both go along the chain, and stop at the same frame.
  induction frames.chain id with
  | nil => rfl
  | cons other chain ih =>
    rw [List.findSome?_cons, List.find?_cons, Entries.contains]
    cases hlookup : (frames.vars other).lookup name with
    | none => exact ih
    | some value => simp [hlookup]

theorem lookup?_eq_none_iff : frames.lookup? name id = none ↔ frames.find? name id = none := by
  simp only [lookup?, find?, List.findSome?_eq_none_iff, List.find?_eq_none, Entries.contains,
    Option.not_isSome_iff_eq_none]

end

/-! ### Tables with names that are no symbols -/

/-- The names of a table with their values, up to the first that is no symbol. -/
def symbols : List (Value × Value) → List (String × Value)
  | (.symbol name, value) :: rest => (name, value) :: symbols rest
  | _ => []

/-- The first name of a table that is no symbol. -/
def stray? : List (Value × Value) → Option Value
  | [] => none
  | (.symbol _, _) :: rest => stray? rest
  | (name, _) :: _ => some name

/-- Why a name that is no symbol is not bound: the message shows the name, unless showing it
fails. -/
def refusal (describe : Value → Except Error String) (name : Value) : Error :=
  match describe name with
  | .ok shown => .invalidSymbol shown
  | .error e => e

/-- Binds one name after another. -/
def defineEach (frames : Frames) (id : FrameId) (pairs : List (String × Value)) : Frames :=
  pairs.foldl (fun frames pair => frames.define id pair.1 pair.2) frames

variable {describe : Value → Except Error String} {frames : Frames} {id : FrameId}

theorem throw_eq_refusal (name : Value) :
    (do throw (.invalidSymbol (← describe name)) : Except Error Frames) =
      .error (refusal describe name) := by
  unfold refusal
  cases describe name <;> rfl

theorem defineNamed_eq (name value : Value) :
    frames.defineNamed describe id name value =
      match stray? [(name, value)] with
      | none => .ok (frames.defineEach id (symbols [(name, value)]))
      | some name => .error (refusal describe name) := by
  cases name with
  | symbol name => rfl
  | _ => exact throw_eq_refusal _

/-- A table is bound up to its first name that is no symbol. -/
theorem defineAll_eq (table : List (Value × Value)) :
    defineAll describe id table frames =
      (frames.defineEach id (symbols table), (stray? table).map (refusal describe)) := by
  induction table generalizing frames with
  | nil => rfl
  | cons pair rest ih =>
    obtain ⟨name, value⟩ := pair
    rw [defineAll, defineNamed_eq]
    cases name with
    | symbol name => exact ih
    | _ => rfl

/-- A table in which no name stands twice is its own entries. -/
theorem distinct_eq_self {table : List (Value × Value)} (h : (table.map Prod.fst).Nodup) :
    distinct table = table := by
  suffices hfold : ∀ seen : List (Value × Value), ((seen ++ table).map Prod.fst).Nodup →
      table.foldl (fun acc pair =>
        if acc.any (·.1 = pair.1) then acc.map fun old => if old.1 = pair.1 then pair else old
        else acc ++ [pair]) seen = seen ++ table from hfold [] h
  clear h
  -- What the fold has seen are other names, so each further one is new.
  induction table with
  | nil => simp
  | cons pair rest ih =>
    intro seen hnodup
    have hnew : seen.any (·.1 = pair.1) = false := by
      simp only [List.map_append, List.map_cons, List.nodup_append] at hnodup
      rw [List.any_eq_false]
      intro old hold
      simpa using hnodup.2.2 _ (List.mem_map_of_mem hold) _ (List.mem_cons_self ..)
    rw [List.foldl_cons, hnew, if_neg Bool.false_ne_true, ih]
    · simp
    · simpa using hnodup

theorem update_eq (table : NameTable) :
    frames.update describe id table.entries =
      (frames.defineEach id (symbols table.entries),
        (stray? table.entries).map (refusal describe)) := by
  rw [update, distinct_eq_self table.nodup, defineAll_eq]

theorem child_eq (outer : FrameId) (table : NameTable) :
    frames.child describe outer table.entries =
      match stray? table.entries with
      | none =>
        .ok ((frames.push (some outer) []).defineEach frames.size (symbols table.entries))
      | some name => .error (refusal describe name) := by
  rw [child, update_eq]
  cases stray? table.entries <;> rfl

end Frames

/-! ### Histories -/

/-- What has been done to frames. -/
structure History where
  /-- The frame around each frame, in the order in which they were made. -/
  outers  : List (Option FrameId)
  /-- The definitions from the first to the latest: the frame, the name and the value. -/
  defined : List (FrameId × String × Value)

namespace History

/-- One root, and no definitions. -/
def start : History := ⟨[none], []⟩

/-- Some more definitions in a frame. -/
def define (history : History) (id : FrameId) (pairs : List (String × Value)) : History :=
  { history with defined := history.defined ++ pairs.map fun pair => (id, pair) }

/-- One more frame. -/
def push (history : History) (outer : FrameId) : History :=
  { history with outers := history.outers ++ [some outer] }

/-- The history after an operation: names are defined up to the first that is no symbol, and where
there is such a name, no frame is made. -/
def after (history : History) : FrameOp → History
  | .define id name value => history.define id (Frames.symbols [(name, value)])
  | .update id table => history.define id (Frames.symbols table.entries)
  | .child outer table =>
    match Frames.stray? table.entries with
    | none => (history.push outer).define history.outers.length (Frames.symbols table.entries)
    | some _ => history
  | .find _ _ | .lookup _ _ | .root _ => history

/-- The history of a sequence of operations. -/
def of (ops : List FrameOp) : History := ops.foldl after start

/-- The name was defined in the frame at some time. -/
def Defines (history : History) (id : FrameId) (name : String) : Prop :=
  ∃ value, (id, name, value) ∈ history.defined

/-- The value that was defined for a name in a frame most recently. -/
def latest? (history : History) (id : FrameId) (name : String) : Option Value :=
  (history.defined.reverse.find? fun d => d.1 = id ∧ d.2.1 = name).map (·.2.2)

/-- A frame and the frames outward from it, up to a root. -/
inductive Chain (history : History) : FrameId → List FrameId → Prop
  | root {id : FrameId} (h : history.outers[id]? = some none) : Chain history id [id]
  | step {id outer : FrameId} {chain : List FrameId} (h : history.outers[id]? = some (some outer))
      (hchain : Chain history outer chain) : Chain history id (id :: chain)

variable {history : History} {id outer : FrameId} {name : String} {value : Value}

/-- Only one path leads outward from a frame. -/
theorem Chain.unique {chain chain' : List FrameId} (h : history.Chain id chain)
    (h' : history.Chain id chain') : chain = chain' := by
  induction h generalizing chain' with
  | root hroot =>
    cases h' with
    | root => rfl
    | step houter =>
      rw [hroot] at houter
      cases houter
  | step houter _ ih =>
    cases h' with
    | root hroot =>
      rw [hroot] at houter
      cases houter
    | step houter' hchain' =>
      rw [houter] at houter'
      cases houter'
      rw [ih hchain']

theorem latest?_isSome : (history.latest? id name).isSome = true ↔ history.Defines id name := by
  simp [latest?, Defines, List.find?_isSome]

theorem latest?_eq_none : history.latest? id name = none ↔ ¬ history.Defines id name := by
  rw [← latest?_isSome, Option.not_isSome_iff_eq_none]

/-- A definition is the latest one for its name in its frame, and for no other. -/
theorem latest?_define (other : FrameId) (other' : String) :
    (history.define id [(name, value)]).latest? other other' =
      if id = other ∧ name = other' then some value else history.latest? other other' := by
  by_cases h : id = other ∧ name = other' <;> simp [latest?, define, h]

theorem define_cons (pair : String × Value) (pairs : List (String × Value)) :
    history.define id (pair :: pairs) = (history.define id [pair]).define id pairs := by
  simp [define]

/-! ### Histories and frames -/

/-- The history agrees with the frames, of which the first is the only root. -/
structure Recounts (history : History) (frames : Frames) : Prop where
  outers : ∀ id : FrameId, (frames.get? id).map Frame.outer = history.outers[id]?
  vars   : ∀ (id : FrameId) (name : String),
    (frames.vars id).lookup name = history.latest? id name
  root   : ∀ id : FrameId, history.outers[id]? = some none ↔ id = 0

namespace Recounts

variable {frames : Frames}

theorem size_eq (h : history.Recounts frames) : history.outers.length = frames.size := by
  refine Nat.le_antisymm ?_ ?_
  · have hnone : frames.get? frames.size = none := Frames.get?_eq_none_iff.2 (Nat.le_refl _)
    have houter := h.outers frames.size
    rw [hnone] at houter
    exact List.getElem?_eq_none_iff.1 houter.symm
  · have houter := h.outers history.outers.length
    rw [List.getElem?_eq_none (Nat.le_refl _), Option.map_eq_none_iff] at houter
    exact Frames.get?_eq_none_iff.1 houter

theorem define (h : history.Recounts frames) (hid : id < frames.size) (name : String)
    (value : Value) :
    (history.define id [(name, value)]).Recounts (frames.define id name value) where
  outers other := by
    refine Eq.trans ?_ (h.outers other)
    by_cases hother : other = id
    · subst hother
      rw [Frames.get?_define_self, Option.map_map]
      rfl
    · rw [Frames.get?_define_of_ne hother]
  vars other other' := by
    rw [latest?_define, ← h.vars]
    -- Nothing else than this name in this frame has another value than before.
    by_cases hother : other = id
    · subst hother
      obtain ⟨frame, hframe⟩ := Frames.exists_get? hid
      simp only [Frames.vars, Frames.get?_define_self, hframe, Option.map_some, true_and]
      by_cases hname : name = other'
      · subst hname
        rw [if_pos rfl, Entries.lookup_insert_self]
      · rw [if_neg hname, Entries.lookup_insert_of_ne (Ne.symm hname)]
    · rw [if_neg fun heq => hother heq.1.symm]
      simp only [Frames.vars, Frames.get?_define_of_ne hother]
  root := h.root

theorem defineEach (h : history.Recounts frames) (hid : id < frames.size)
    (pairs : List (String × Value)) :
    (history.define id pairs).Recounts (frames.defineEach id pairs) := by
  induction pairs generalizing history frames with
  | nil => simpa [History.define, Frames.defineEach] using h
  | cons pair pairs ih =>
    rw [define_cons]
    exact ih (h.define hid pair.1 pair.2) (by rwa [Frames.size_define])

/-- A new frame has no definitions yet. -/
theorem push (h : history.Recounts frames) (houter : outer < frames.size) :
    (history.push outer).Recounts (frames.push (some outer) []) where
  outers id := by
    rw [Frames.get?_push, History.push]
    -- The new frame comes last in both, and is below a frame that is there.
    by_cases hid : id = frames.size
    · have hlength : id = history.outers.length := hid.trans h.size_eq.symm
      rw [if_pos hid, hlength, List.getElem?_concat_length]
      simp [houter]
    · rw [if_neg hid, h.outers]
      have hne : id ≠ history.outers.length := h.size_eq ▸ hid
      rcases Nat.lt_or_gt_of_ne hne with hlt | hgt
      · rw [List.getElem?_append_left hlt]
      · rw [List.getElem?_eq_none (Nat.le_of_lt hgt), List.getElem?_eq_none]
        rw [List.length_append]
        exact hgt
  vars id name := by
    refine Eq.trans ?_ (h.vars id name)
    by_cases hid : id = frames.size
    · have hnone : frames.get? id = none := Frames.get?_eq_none_iff.2 (Nat.le_of_eq hid.symm)
      simp only [Frames.vars, Frames.get?_push, if_pos hid, hnone]
    · simp only [Frames.vars, Frames.get?_push, if_neg hid]
  root id := by
    rw [← h.root, History.push]
    by_cases hid : id < history.outers.length
    · rw [List.getElem?_append_left hid]
    · -- The frame is no root if it is the new one, and otherwise there is no such frame.
      rw [List.getElem?_append_right (Nat.le_of_not_lt hid),
        List.getElem?_eq_none (Nat.le_of_not_lt hid)]
      cases id - history.outers.length <;> simp

/-- Every operation on a frame that is there keeps history and frames in agreement. -/
theorem apply {describe : Value → Except Error String} (h : history.Recounts frames) {op : FrameOp}
    (hframe : op.frame < frames.size) :
    (history.after op).Recounts (op.apply describe frames).1 := by
  cases op with
  | define id name value =>
    have hdefined := h.defineEach hframe (Frames.symbols [(name, value)])
    simp only [FrameOp.apply, Frames.defineNamed_eq]
    cases name with
    | symbol name => exact hdefined
    | _ => simpa [History.after, Frames.symbols, Frames.stray?, History.define] using h
  | update id table =>
    have hdefined := h.defineEach hframe (Frames.symbols table.entries)
    simp only [FrameOp.apply, Frames.update_eq]
    -- Whether the whole table was bound does not matter: the names in front were.
    cases Frames.stray? table.entries <;> exact hdefined
  | child outer table =>
    have hnew : frames.size < (frames.push (some outer) []).size := by
      rw [Frames.size_push]
      exact Nat.lt_succ_self _
    have hdefined := (h.push hframe).defineEach hnew (Frames.symbols table.entries)
    simp only [FrameOp.apply, Frames.child_eq, History.after, h.size_eq]
    cases Frames.stray? table.entries with
    | none => exact hdefined
    | some name => exact h
  | find | lookup | root => exact h

end Recounts

theorem recounts_start : start.Recounts Frames.single where
  outers id := by
    rw [Frames.get?_single]
    cases id <;> rfl
  vars id name := by
    rw [Frames.vars, Frames.get?_single]
    cases id <;> rfl
  root id := by
    cases id <;> simp [start]

/-- The history of operations agrees with the frames that they lead to. -/
theorem recounts_of_reached {describe : Value → Except Error String} {ops : List FrameOp}
    {frames : Frames} (h : frames.Reached describe ops) : (of ops).Recounts frames := by
  induction h with
  | start => exact recounts_start
  | step _ hframe ih =>
    rw [of, List.foldl_append]
    exact ih.apply hframe

/-- An operation can be done if the history knows its frame. -/
theorem exists_reached_concat {describe : Value → Except Error String} {ops : List FrameOp}
    {frames : Frames} (h : frames.Reached describe ops) (op : FrameOp)
    (hframe : op.frame < (of ops).outers.length) :
    ∃ later : Frames, later.Reached describe (ops ++ [op]) :=
  ⟨_, .step h ((recounts_of_reached h).size_eq ▸ hframe)⟩

/-! ### Walking outward -/

/-- What one of the frames answers, by the history. The path leads outward from that frame. -/
structure Recalls (history : History) (frames : Frames) (id : FrameId) (path : List FrameId) :
    Prop where
  chain     : history.Chain id path
  root      : frames.root id = 0
  find      : ∀ (name : String) (owner : FrameId), frames.find? name id = some owner ↔
    ∃ inner around, path = inner ++ owner :: around ∧ history.Defines owner name ∧
      ∀ other ∈ inner, ¬ history.Defines other name
  lookup    : ∀ (name : String) (value : Value), frames.lookup? name id = some value ↔
    ∃ owner, frames.find? name id = some owner ∧ history.latest? owner name = some value
  absent    : ∀ name : String,
    (frames.find? name id = none ↔ ∀ other ∈ path, ¬ history.Defines other name) ∧
      (frames.lookup? name id = none ↔ ∀ other ∈ path, ¬ history.Defines other name)
  find_ends : ∀ (name : String) (rounds : Nat), id < rounds →
    frames.walk (fun other => Entries.contains (frames.vars other) name) rounds id =
      some (frames.find? name id)
  root_ends : ∀ rounds : Nat, id < rounds →
    frames.walk (fun other => (frames.outer? other).isNone) rounds id =
      some (some (frames.root id))

namespace Recounts

variable {frames : Frames}

/-- A frame binds the names that were ever defined in it. -/
theorem contains_iff (h : history.Recounts frames) (id : FrameId) (name : String) :
    Entries.contains (frames.vars id) name = true ↔ history.Defines id name := by
  rw [Entries.contains, h.vars, latest?_isSome]

theorem outer_eq (h : history.Recounts frames) {frame : Frame}
    (hget : frames.get? id = some frame) : history.outers[id]? = some frame.outer := by
  rw [← h.outers, hget]
  rfl

theorem chain (h : history.Recounts frames) (hid : id < frames.size) :
    history.Chain id (frames.chain id) := by
  -- Outer frames are older, so the walk outward is an induction on the number of the frame.
  induction id using Nat.strongRecOn with
  | ind id ih =>
    obtain ⟨frame, hget⟩ := Frames.exists_get? hid
    cases houter : frame.outer with
    | none =>
      rw [Frames.chain_of_root hget houter]
      exact .root (by rw [h.outer_eq hget, houter])
    | some outer =>
      have hlt := frames.outer_lt id frame outer hget houter
      rw [Frames.chain_of_outer hget houter]
      exact .step (by rw [h.outer_eq hget, houter]) (ih outer hlt (Nat.lt_trans hlt hid))

theorem root_eq (h : history.Recounts frames) (hid : id < frames.size) : frames.root id = 0 := by
  induction id using Nat.strongRecOn with
  | ind id ih =>
    obtain ⟨frame, hget⟩ := Frames.exists_get? hid
    cases houter : frame.outer with
    | none =>
      rw [Frames.root_of_root hget houter, ← h.root, h.outer_eq hget, houter]
    | some outer =>
      have hlt := frames.outer_lt id frame outer hget houter
      rw [Frames.root_of_outer hget houter, ih outer hlt (Nat.lt_trans hlt hid)]

theorem recalls (h : history.Recounts frames) (hid : id < frames.size) :
    history.Recalls frames id (frames.chain id) := by
  -- All answers come down to which frames of the chain have ever defined the name.
  have hcontains : ∀ other name,
      Entries.contains (frames.vars other) name = false ↔ ¬ history.Defines other name := by
    intro other name
    rw [← h.contains_iff, Bool.not_eq_true]
  have hfind : ∀ name, frames.find? name id = none ↔
      ∀ other ∈ frames.chain id, ¬ history.Defines other name := by
    intro name
    simp only [Frames.find?, List.find?_eq_none, Bool.not_eq_true, hcontains]
  refine
    { chain := h.chain hid
      root := h.root_eq hid
      find := ?_
      lookup := ?_
      absent := fun name => ⟨hfind name, ?_⟩
      find_ends := fun name rounds => Frames.walk_eq _ hid
      root_ends := fun rounds hrounds => ?_ }
  · intro name owner
    simp only [Frames.find?, List.find?_eq_some_iff_append, h.contains_iff, Bool.not_eq_true',
      hcontains]
    tauto
  · intro name value
    simp only [Frames.lookup?_eq_bind, Option.bind_eq_some_iff, h.vars]
  · rw [← hfind, Frames.lookup?_eq_none_iff]
  · rw [Frames.walk_eq _ hid hrounds, Frames.find?_chain_root hid]

end Recounts

end History

/-! ### Frames that an operation leaves alone -/

namespace Frames

variable {describe : Value → Except Error String} {frames : Frames} {id : FrameId}

theorem get?_defineEach_of_ne {other : FrameId} (h : other ≠ id) (pairs : List (String × Value)) :
    (frames.defineEach id pairs).get? other = frames.get? other := by
  induction pairs generalizing frames with
  | nil => rfl
  | cons pair pairs ih => exact ih.trans (get?_define_of_ne h pair.1 pair.2)

/-- An operation changes no other frame than its own. -/
theorem get?_apply (op : FrameOp) (h : op.target? frames ≠ some id) :
    (op.apply describe frames).1.get? id = frames.get? id := by
  cases op with
  | define frame name value =>
    have hne : id ≠ frame := fun heq => h (congrArg some heq.symm)
    simp only [FrameOp.apply, defineNamed_eq]
    cases stray? [(name, value)] with
    | none => exact get?_defineEach_of_ne hne _
    | some name => rfl
  | update frame table =>
    have hne : id ≠ frame := fun heq => h (congrArg some heq.symm)
    simp only [FrameOp.apply, update_eq]
    cases stray? table.entries <;> exact get?_defineEach_of_ne hne _
  | child outer table =>
    have hne : id ≠ frames.size := fun heq => h (congrArg some heq.symm)
    simp only [FrameOp.apply, child_eq]
    cases stray? table.entries with
    | none => rw [get?_defineEach_of_ne hne, get?_push, if_neg hne]
    | some name => rfl
  | find | lookup | root => rfl

/-- The first name that is no symbol divides a table. -/
theorem symbols_stray?_append {name : Value} (hname : ∀ symbol, name ≠ .symbol symbol)
    (before : List (String × Value)) (value : Value) (after : List (Value × Value)) :
    symbols (before.map (fun pair => (.symbol pair.1, pair.2)) ++ (name, value) :: after) =
      before ∧
    stray? (before.map (fun pair => (.symbol pair.1, pair.2)) ++ (name, value) :: after) =
      some name := by
  induction before with
  | nil =>
    cases name with
    | symbol name => exact absurd rfl (hname name)
    | _ => exact ⟨rfl, rfl⟩
  | cons pair before ih => exact ⟨congrArg (pair :: ·) ih.1, ih.2⟩

end Frames

/-! ### The answers of frames -/

/-- **Frames answer from their history.** After any sequence of operations on frames that were
there, from one empty root on: a name is found in the first frame outward in which it was ever
defined, and means what was defined for it there most recently; it is missing if and only if it was
defined in no frame of the chain; the walks outward end; no operation changes another frame than
its own; and a table is bound up to its first name that is no symbol, while a frame that was to be
made with such a table is not made. A name that is no symbol is refused as such, unless it cannot
be shown in the message. -/
theorem frames_recall (describe : Value → Except Error String) {ops : List FrameOp}
    {frames : Frames} (h : frames.Reached describe ops) :
    (∀ id < frames.size, ∃ path, (History.of ops).Recalls frames id path) ∧
    (∀ (op : FrameOp) (id : FrameId), op.target? frames ≠ some id →
      (op.apply describe frames).1.get? id = frames.get? id) ∧
    ∀ (table : NameTable) (before : List (String × Value)) (name value : Value)
      (after : List (Value × Value)),
      table.entries = before.map (fun pair => (.symbol pair.1, pair.2)) ++ (name, value) :: after →
      (∀ symbol, name ≠ .symbol symbol) → ∃ e,
        (∀ shown, describe name = .ok shown → e = .invalidSymbol shown) ∧
        (∀ e', describe name = .error e' → e = e') ∧
        ∀ frame,
          (FrameOp.update frame table).apply describe frames =
            (frames.defineEach frame before, .refused e) ∧
          (FrameOp.child frame table).apply describe frames = (frames, .refused e) := by
  refine ⟨fun id hid => ⟨_, (History.recounts_of_reached h).recalls hid⟩,
    fun op id => Frames.get?_apply op, ?_⟩
  intro table before name value after htable hname
  obtain ⟨hsymbols, hstray⟩ := Frames.symbols_stray?_append hname before value after
  rw [← htable] at hsymbols hstray
  refine ⟨Frames.refusal describe name, ?_, ?_, ?_⟩
  · intro shown hshown
    simp only [Frames.refusal, hshown]
  · intro e he
    simp only [Frames.refusal, he]
  · intro frame
    simp only [FrameOp.apply, Frames.update_eq, Frames.child_eq, hsymbols, hstray]
    exact ⟨rfl, trivial⟩

/-- A name that is shadowed in a frame below the root, another one that the root gets afterwards,
and a table with a name that is no symbol. -/
def shadowing : List FrameOp :=
  [.define 0 (.symbol "x") (.int 1), .child 0 ⟨[(.symbol "x", .int 10)], by decide⟩,
    .define 0 (.symbol "late") (.text "ok"),
    .update 1 ⟨[(.symbol "y", .int 2), (.int 7, .nil), (.symbol "z", .int 3)], by decide⟩]

/-- The frame below the root sees its own `x` and the root's later name, and of the table the names
in front of the one that is no symbol. -/
theorem recall_shadowing :
    ∃ frames : Frames, frames.Reached (Value.inspect #[] Limits.leastSteps) shadowing ∧
      frames.lookup? "x" 1 = some (.int 10) ∧ frames.lookup? "late" 1 = some (.text "ok") ∧
      frames.lookup? "y" 1 = some (.int 2) ∧ frames.lookup? "z" 1 = none := by
  obtain ⟨frames, h⟩ : ∃ frames : Frames,
      frames.Reached (Value.inspect #[] Limits.leastSteps) shadowing := by
    obtain ⟨_, h⟩ := History.exists_reached_concat .start (.define 0 (.symbol "x") (.int 1))
      (by decide)
    obtain ⟨_, h⟩ := History.exists_reached_concat h
      (.child 0 ⟨[(.symbol "x", .int 10)], by decide⟩) (by decide)
    obtain ⟨_, h⟩ := History.exists_reached_concat h (.define 0 (.symbol "late") (.text "ok"))
      (by decide)
    exact History.exists_reached_concat h _ (by decide)
  -- From here on only the history is computed.
  have hsize : 1 < frames.size := (History.recounts_of_reached h).size_eq ▸ by decide
  obtain ⟨path, hrecalls⟩ := (frames_recall _ h).1 1 hsize
  obtain rfl : path = [1, 0] := hrecalls.chain.unique (.step rfl (.root rfl))
  have hinner : ∀ (name : String) (value : Value),
      (History.of shadowing).latest? 1 name = some value → frames.lookup? name 1 = some value := by
    intro name value hlatest
    have hdefined := History.latest?_isSome.1 (Option.isSome_of_eq_some hlatest)
    exact (hrecalls.lookup name value).2
      ⟨1, (hrecalls.find name 1).2 ⟨[], [0], rfl, hdefined, nofun⟩, hlatest⟩
  have hlate : frames.find? "late" 1 = some 0 := by
    have hnot : ¬ (History.of shadowing).Defines 1 "late" := History.latest?_eq_none.1 rfl
    exact (hrecalls.find "late" 0).2
      ⟨[1], [], rfl, History.latest?_isSome.1 rfl, by simpa using hnot⟩
  have hz : ∀ other ∈ [1, 0], ¬ (History.of shadowing).Defines other "z" := by
    simp only [← History.latest?_eq_none]
    decide
  exact ⟨frames, h, hinner "x" _ rfl, (hrecalls.lookup "late" _).2 ⟨0, hlate, rfl⟩,
    hinner "y" _ rfl, (hrecalls.absent "z").2.2 hz⟩

/-- A table with the first integer that has no text among its names. -/
def unshownName : NameTable where
  entries := [(.symbol "a", .int 1), (.int Numeral.bound, .int 2)]
  nodup := List.pairwise_pair.2 nofun

/-- An integer with too many digits is no symbol, but the message has no text for it. -/
theorem Frames.refusal_of_le {i : Int} (h : Numeral.bound ≤ i.natAbs) (cells : Cells)
    (steps : Nat) :
    Frames.refusal (Value.inspect cells (steps + 1)) (.int i) = .numeralTooLong := by
  have hinspect : Value.inspect cells (steps + 1) (.int i) = .error .numeralTooLong := by
    rw [Value.inspect, Value.inspectWithin, Value.write_of_le h]
  simp only [Frames.refusal, hinspect]

/-- A name that has no text is not refused as a name that is no symbol. -/
theorem update_longNumeral :
    ((FrameOp.update 0 unshownName).apply (Value.inspect #[] Limits.leastSteps) Frames.single).2 =
      .refused .numeralTooLong ∧ ∀ shown, Error.numeralTooLong ≠ .invalidSymbol shown := by
  have hlong : Numeral.bound ≤ (Numeral.bound : Int).natAbs :=
    Nat.le_of_eq (Int.natAbs_natCast Numeral.bound).symm
  have hrefusal : Frames.refusal (Value.inspect #[] Limits.leastSteps) (.int Numeral.bound) =
      .numeralTooLong := Frames.refusal_of_le hlong #[] 999
  have hstray : Frames.stray? unshownName.entries = some (.int Numeral.bound) := rfl
  rw [FrameOp.apply, Frames.update_eq, hstray, Option.map_some, hrefusal]
  exact ⟨rfl, nofun⟩

end AtomLisp
