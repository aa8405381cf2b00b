import AtomLisp.Builtin.Queries
import Mathlib.Data.List.Basic

/-! # Renaming frames and serial numbers

  Which number a frame has and which serial number a collection or closure is told apart by makes
  no difference to a program. A *renaming* gives other numbers to frames and to what was made at
  run time. This module carries renamings through values, and shows that nothing that is found out
  about values depends on the numbers:

  * `Renaming.value`: a value with other numbers; `value_injective`: no two values become one;
  * `print_value`, `inspect_value` and `equal_value`: texts of values and equality stay the same;
  * `Renaming.outcome`: what a computation comes to, with other numbers.
-/

namespace AtomLisp

/-- Other numbers for frames, and other serial numbers. What was only written down stays so. -/
structure Renaming where
  frameId : FrameId → FrameId
  serial  : Serial → Serial
  frameId_injective : Function.Injective frameId
  serial_injective  : Function.Injective serial
  serial_zero : serial 0 = 0

namespace Renaming

variable {α β : Type} (r : Renaming)

/-- All numbers stay. -/
protected def id : Renaming where
  frameId id := id
  serial serial := serial
  frameId_injective _ _ h := h
  serial_injective _ _ h := h
  serial_zero := rfl

/-! ### Values -/

mutual

/-- A value with other numbers. -/
def value : Value → Value
  | .list serial items => .list (r.serial serial) (values items)
  | .vector serial items => .vector (r.serial serial) (values items)
  | .map serial entries => .map (r.serial serial) (entriesOf entries)
  | .closure serial params body frame isMacro =>
    .closure (r.serial serial) params (value body) (r.frameId frame) isMacro
  | v => v
termination_by structural v => v

/-- Several values with other numbers. -/
def values : List Value → List Value
  | [] => []
  | v :: vs => value v :: values vs
termination_by structural vs => vs

/-- Entries whose values have other numbers. -/
def entriesOf : List (String × Value) → List (String × Value)
  | [] => []
  | (k, v) :: rest => (k, value v) :: entriesOf rest
termination_by structural es => es

end

/-- An entry whose value has other numbers. -/
def entry (e : String × Value) : String × Value := (e.1, r.value e.2)

theorem values_eq_map (vs : List Value) : r.values vs = vs.map r.value := by
  induction vs with
  | nil => rfl
  | cons v vs ih => rw [values, ih, List.map_cons]

theorem length_values (vs : List Value) : (r.values vs).length = vs.length := by
  rw [values_eq_map, List.length_map]

theorem values_append (vs ws : List Value) :
    r.values (vs ++ ws) = r.values vs ++ r.values ws := by
  rw [values_eq_map, values_eq_map, values_eq_map, List.map_append]

theorem dropLast_values (vs : List Value) : (r.values vs).dropLast = r.values vs.dropLast := by
  rw [values_eq_map, values_eq_map, List.map_dropLast]

theorem getLast_values {vs : List Value} (hvs : vs ≠ []) (hvs' : r.values vs ≠ []) :
    (r.values vs).getLast hvs' = r.value (vs.getLast hvs) := by
  simp only [values_eq_map, List.getLast_map]

theorem entriesOf_eq_map (entries : Entries Value) : r.entriesOf entries = entries.map r.entry := by
  induction entries with
  | nil => rfl
  | cons e rest ih => rw [entriesOf, ih, List.map_cons]; rfl

mutual

theorem value_inj : ∀ v w : Value, r.value v = r.value w → v = w
  | .list s items, w, h => by
    cases w with
    | list t others =>
      simp only [value, Value.list.injEq] at h
      rw [r.serial_injective h.1, values_inj items others h.2]
    | _ => cases h
  | .vector s items, w, h => by
    cases w with
    | vector t others =>
      simp only [value, Value.vector.injEq] at h
      rw [r.serial_injective h.1, values_inj items others h.2]
    | _ => cases h
  | .map s entries, w, h => by
    cases w with
    | map t others =>
      simp only [value, Value.map.injEq] at h
      rw [r.serial_injective h.1, entriesOf_inj entries others h.2]
    | _ => cases h
  | .closure s params body frame isMacro, w, h => by
    cases w with
    | closure t params' body' frame' isMacro' =>
      simp only [value, Value.closure.injEq] at h
      obtain ⟨hserial, rfl, hbody, hframe, rfl⟩ := h
      rw [r.serial_injective hserial, value_inj body body' hbody, r.frameId_injective hframe]
    | _ => cases h
  | .nil, w, h | .bool _, w, h | .int _, w, h | .text _, w, h | .symbol _, w, h | .atom _, w, h
  | .builtin _, w, h => by
    cases w <;> first | exact h | cases h

theorem values_inj : ∀ vs ws : List Value, r.values vs = r.values ws → vs = ws
  | [], [], _ => rfl
  | v :: vs, w :: ws, h => by
    simp only [values, List.cons.injEq] at h
    rw [value_inj v w h.1, values_inj vs ws h.2]

theorem entriesOf_inj : ∀ entries others : List (String × Value),
    r.entriesOf entries = r.entriesOf others → entries = others
  | [], [], _ => rfl
  | (k, v) :: rest, (l, w) :: others, h => by
    simp only [entriesOf, List.cons.injEq, Prod.mk.injEq] at h
    rw [h.1.1, value_inj v w h.1.2, entriesOf_inj rest others h.2]

end

theorem value_injective : Function.Injective r.value := fun v w => r.value_inj v w

mutual

theorem value_id : ∀ v : Value, Renaming.id.value v = v
  | .list _ items | .vector _ items => by rw [value, values_id items]; rfl
  | .map _ entries => by rw [value, entriesOf_id entries]; rfl
  | .closure _ _ body _ _ => by rw [value, value_id body]; rfl
  | .nil | .bool _ | .int _ | .text _ | .symbol _ | .atom _ | .builtin _ => rfl

theorem values_id : ∀ vs : List Value, Renaming.id.values vs = vs
  | [] => rfl
  | v :: vs => by rw [values, value_id v, values_id vs]

theorem entriesOf_id : ∀ entries : List (String × Value), Renaming.id.entriesOf entries = entries
  | [] => rfl
  | (k, v) :: rest => by rw [entriesOf, value_id v, entriesOf_id rest]

end

/-! ### Actions constructor by constructor -/

@[simp] theorem value_list (serial : Serial) (items : List Value) :
    r.value (.list serial items) = .list (r.serial serial) (items.map r.value) := by
  rw [value, values_eq_map]

@[simp] theorem value_vector (serial : Serial) (items : List Value) :
    r.value (.vector serial items) = .vector (r.serial serial) (items.map r.value) := by
  rw [value, values_eq_map]

@[simp] theorem value_map (serial : Serial) (entries : Entries Value) :
    r.value (.map serial entries) = .map (r.serial serial) (entries.map r.entry) := by
  rw [value, entriesOf_eq_map]

@[simp] theorem value_closure (serial : Serial) (params : List String) (body : Value)
    (frame : FrameId) (isMacro : Bool) :
    r.value (.closure serial params body frame isMacro) =
      .closure (r.serial serial) params (r.value body) (r.frameId frame) isMacro := rfl

@[simp] theorem value_nil : r.value .nil = .nil := rfl
@[simp] theorem value_bool (b : Bool) : r.value (.bool b) = .bool b := rfl
@[simp] theorem value_int (i : Int) : r.value (.int i) = .int i := rfl
@[simp] theorem value_text (s : String) : r.value (.text s) = .text s := rfl
@[simp] theorem value_symbol (name : String) : r.value (.symbol name) = .symbol name := rfl
@[simp] theorem value_atom (cell : CellId) : r.value (.atom cell) = .atom cell := rfl
@[simp] theorem value_builtin (b : Builtin) : r.value (.builtin b) = .builtin b := rfl

@[simp] theorem serial_eq_zero {serial : Serial} : r.serial serial = 0 ↔ serial = 0 := by
  constructor
  · intro h
    exact r.serial_injective (h.trans r.serial_zero.symm)
  · rintro rfl
    exact r.serial_zero

theorem value_form (items : List Value) : r.value (.form items) = .form (items.map r.value) := by
  rw [value_list, serial_zero]

@[simp] theorem value_eq_value {v w : Value} : r.value v = r.value w ↔ v = w :=
  r.value_injective.eq_iff

/-! ### Tests -/

@[simp] theorem isTruthy_value (v : Value) : (r.value v).isTruthy = v.isTruthy := by
  cases v <;> rfl

@[simp] theorem isNumber_value (v : Value) : (r.value v).isNumber = v.isNumber := by
  cases v <;> rfl

@[simp] theorem isString_value (v : Value) : (r.value v).isString = v.isString := by
  cases v <;> rfl

@[simp] theorem isKeyword_value (v : Value) : (r.value v).isKeyword = v.isKeyword := by
  cases v <;> rfl

@[simp] theorem items?_value (v : Value) :
    (r.value v).items? = v.items?.map (List.map r.value) := by
  cases v with
  | list | vector => simp [Value.items?]
  | _ => rfl

@[simp] theorem isSequential_value (v : Value) : (r.value v).isSequential = v.isSequential := by
  simp [Value.isSequential]

@[simp] theorem isFunction_value (v : Value) : (r.value v).isFunction = v.isFunction := by
  cases v <;> rfl

@[simp] theorem isMacro_value (v : Value) : (r.value v).isMacro = v.isMacro := by
  cases v <;> rfl

/-! ### Entries -/

@[simp] theorem keys_map_entry (entries : Entries Value) :
    Entries.keys (entries.map r.entry) = Entries.keys entries := by
  simp [Entries.keys, entry, Function.comp_def]

@[simp] theorem vals_map_entry (entries : Entries Value) :
    Entries.vals (entries.map r.entry) = (Entries.vals entries).map r.value := by
  simp [Entries.vals, entry, Function.comp_def]

@[simp] theorem lookup_map_entry (key : String) (entries : Entries Value) :
    (entries.map r.entry).lookup key = (entries.lookup key).map r.value := by
  induction entries with
  | nil => rfl
  | cons e rest ih =>
    obtain ⟨k, v⟩ := e
    simp only [List.map_cons, entry, List.lookup_cons]
    cases key == k with
    | true => rfl
    | false => exact ih

@[simp] theorem contains_map_entry (entries : Entries Value) (key : String) :
    Entries.contains (entries.map r.entry) key = Entries.contains entries key := by
  simp [Entries.contains]

theorem insert_map_entry (key : String) (v : Value) (entries : Entries Value) :
    Entries.insert key (r.value v) (entries.map r.entry) =
      (Entries.insert key v entries).map r.entry := by
  induction entries with
  | nil => rfl
  | cons e rest ih =>
    simp only [List.map_cons, Entries.insert, entry]
    split
    · rfl
    · rw [ih]
      rfl

theorem entriesOf_insert (key : String) (v : Value) (entries : Entries Value) :
    r.entriesOf (Entries.insert key v entries) =
      Entries.insert key (r.value v) (r.entriesOf entries) := by
  rw [r.entriesOf_eq_map, r.entriesOf_eq_map, r.insert_map_entry]

theorem insertAll_map_entry (entries pairs : Entries Value) :
    Entries.insertAll (entries.map r.entry) (pairs.map r.entry) =
      (Entries.insertAll entries pairs).map r.entry := by
  induction pairs generalizing entries with
  | nil => rfl
  | cons pair rest ih =>
    have hinsert := r.insert_map_entry pair.1 pair.2 entries
    simp only [Entries.insertAll, List.map_cons, List.foldl_cons] at ih ⊢
    rw [show (r.entry pair).1 = pair.1 from rfl, show (r.entry pair).2 = r.value pair.2 from rfl,
      hinsert, ih]

theorem eraseAll_map_entry (entries : Entries Value) (keys : List String) :
    Entries.eraseAll (entries.map r.entry) keys = (Entries.eraseAll entries keys).map r.entry := by
  rw [Entries.eraseAll, List.filter_map]
  rfl

/-! ### Outcomes -/

/-- An error that carries a value with other numbers. -/
def error : Error → Error
  | .thrown v => .thrown (r.value v)
  | e => e

/-- What a computation comes to, with other numbers. -/
def outcome (act : α → α) : Except Error α → Except Error α
  | .ok a => .ok (act a)
  | .error e => .error (r.error e)

theorem outcome_bind {act : α → α} {act' : β → β} {x x' : Except Error α}
    {f f' : α → Except Error β} (hx : x' = r.outcome act x)
    (hf : ∀ a, f' (act a) = r.outcome act' (f a)) :
    (x' >>= f') = r.outcome act' (x >>= f) := by
  subst hx
  cases x with
  | ok a => exact hf a
  | error e => rfl

theorem outcome_mapM {act : α → α} {p p' : α → Except Error String}
    (hp : ∀ a, p' (act a) = r.outcome id (p a)) (as : List α) :
    (as.map act).mapM p' = r.outcome id (as.mapM p) := by
  induction as with
  | nil => rfl
  | cons a as ih =>
    simp only [List.map_cons, List.mapM_cons]
    refine r.outcome_bind (hp a) ?_
    intro text
    exact r.outcome_bind ih fun _ => rfl

end Renaming

/-! ### Texts of values -/

namespace Value

variable (r : Renaming) (cells : Cells)

@[simp] theorem content_map (cell : CellId) :
    Cells.content (cells.map r.value) cell = r.value (cells.content cell) := by
  simp only [Cells.content, Array.getElem?_map]
  cases cells[cell]? <;> rfl

theorem outcome_write (i : Int) : r.outcome id (Numeral.write i) = Numeral.write i := by
  unfold Numeral.write
  split <;> rfl

/-- The printed form of a value does not show the numbers. -/
theorem print_value (readable : Bool) (steps : Nat) (v : Value) :
    (r.value v).print (cells.map r.value) readable steps =
      r.outcome id (v.print cells readable steps) := by
  induction steps using Nat.strongRecOn generalizing v with
  | ind steps ih =>
    -- A value that takes more steps than there are is too deep, whatever its parts are.
    cases v with
    | list serial items =>
      rw [Renaming.value_list]
      match steps, ih with
      | 0, _ | 1, _ | 2, _ | 3, _ => rfl
      | n + 4, ih => exact r.outcome_bind (r.outcome_mapM (ih n (by omega)) items) fun _ => rfl
    | vector serial items =>
      rw [Renaming.value_vector]
      match steps, ih with
      | 0, _ | 1, _ | 2, _ | 3, _ => rfl
      | n + 4, ih => exact r.outcome_bind (r.outcome_mapM (ih n (by omega)) items) fun _ => rfl
    | map serial entries =>
      rw [Renaming.value_map]
      match steps, ih with
      | 0, _ | 1, _ | 2, _ => rfl
      | n + 3, ih =>
        refine r.outcome_bind (r.outcome_mapM ?_ entries) fun _ => rfl
        intro e
        exact r.outcome_bind (ih n (by omega) e.2) fun _ => rfl
    | atom cell =>
      match steps, ih with
      | 0, _ => rfl
      | n + 1, ih =>
        have hcontent := ih n (by omega) (cells.content cell)
        rw [← content_map] at hcontent
        exact r.outcome_bind hcontent fun _ => rfl
    | int i =>
      cases steps with
      | zero => rfl
      | succ n => exact (outcome_write r i).symm
    | bool b => cases b <;> cases steps <;> rfl
    | _ => cases steps <;> rfl

theorem printAll_value (readable : Bool) (steps : Nat) (separator : String) (vs : List Value) :
    printAll (cells.map r.value) readable steps separator (vs.map r.value) =
      r.outcome id (printAll cells readable steps separator vs) :=
  r.outcome_bind (r.outcome_mapM (print_value r cells readable steps) vs) fun _ => rfl

/-- The inspected form of a value does not show the numbers. -/
theorem inspectWithin_value (steps : Nat) (around : List Value) (v : Value) :
    (r.value v).inspectWithin (cells.map r.value) steps (around.map r.value) =
      r.outcome id (v.inspectWithin cells steps around) := by
  induction steps using Nat.strongRecOn generalizing around v with
  | ind steps ih =>
    cases v with
    | list serial items =>
      rw [Renaming.value_list]
      match steps, ih with
      | 0, _ | 1, _ | 2, _ => rfl
      | n + 3, ih =>
        exact r.outcome_bind (r.outcome_mapM (ih n (by omega) around) items) fun _ => rfl
    | vector serial items =>
      rw [Renaming.value_vector]
      match steps, ih with
      | 0, _ | 1, _ | 2, _ => rfl
      | n + 3, ih =>
        exact r.outcome_bind (r.outcome_mapM (ih n (by omega) around) items) fun _ => rfl
    | map serial entries =>
      rw [Renaming.value_map]
      match steps, ih with
      | 0, _ => rfl
      | n + 1, ih =>
        -- A map is met inside itself if and only if it was with the other numbers.
        have hmet : (r.serial serial ≠ 0 ∧
            .map (r.serial serial) (entries.map r.entry) ∈ around.map r.value) ↔
            (serial ≠ 0 ∧ .map serial entries ∈ around) := by
          rw [← Renaming.value_map, List.mem_map_of_injective r.value_injective, Ne,
            r.serial_eq_zero]
        simp only [inspectWithin, hmet]
        split
        · rfl
        · refine r.outcome_bind (r.outcome_mapM ?_ entries) fun _ => rfl
          intro e
          have hvalue := ih n (by omega) (.map serial entries :: around) e.2
          rw [List.map_cons, Renaming.value_map] at hvalue
          exact r.outcome_bind hvalue fun _ => rfl
    | atom cell =>
      match steps, ih with
      | 0, _ | 1, _ => rfl
      | n + 2, ih =>
        have hcontent := ih n (by omega) around (cells.content cell)
        rw [← content_map] at hcontent
        exact r.outcome_bind hcontent fun _ => rfl
    | int i =>
      cases steps with
      | zero => rfl
      | succ n => exact (outcome_write r i).symm
    | bool b => cases b <;> cases steps <;> rfl
    | _ => cases steps <;> rfl

theorem inspect_value (steps : Nat) (v : Value) :
    (r.value v).inspect (cells.map r.value) steps = r.outcome id (v.inspect cells steps) :=
  inspectWithin_value r cells steps [] v

/-! ### Equality -/

theorem allPairs_value {test test' : Value → Value → Except Error Bool}
    (h : ∀ v w, test' (r.value v) (r.value w) = r.outcome id (test v w)) (vs ws : List Value) :
    allPairs test' (vs.map r.value) (ws.map r.value) = r.outcome id (allPairs test vs ws) := by
  induction vs generalizing ws with
  | nil => rfl
  | cons v vs ih =>
    cases ws with
    | nil => rfl
    | cons w ws =>
      refine r.outcome_bind (h v w) ?_
      intro b
      cases b with
      | true => exact ih ws
      | false => rfl

theorem allEntries_value {test test' : Value → Value → Except Error Bool}
    (h : ∀ v w, test' (r.value v) (r.value w) = r.outcome id (test v w))
    (others entries : Entries Value) :
    allEntries test' (.ofEntries (others.map r.entry)) (entries.map r.entry) =
      r.outcome id (allEntries test (.ofEntries others) entries) := by
  induction entries with
  | nil => rfl
  | cons e rest ih =>
    obtain ⟨k, v⟩ := e
    simp only [List.map_cons, Renaming.entry, allEntries, Entries.Index.lookup_ofEntries,
      Renaming.lookup_map_entry]
    cases others.lookup k with
    | none => rfl
    | some w =>
      refine r.outcome_bind (h v w) ?_
      intro b
      cases b with
      | true => exact ih
      | false => rfl

theorem sameKeys_value (entries others : Entries Value) :
    sameKeys (entries.map r.entry) (others.map r.entry) = sameKeys entries others := by
  simp [sameKeys, Renaming.entry, Function.comp_def]

/-- Equality does not depend on the numbers. -/
theorem equal_value (steps : Nat) (v w : Value) :
    (r.value v).equal steps (r.value w) = r.outcome id (v.equal steps w) := by
  induction steps using Nat.strongRecOn generalizing v w with
  | ind steps ih =>
    match steps, ih with
    | 0, _ => rfl
    | steps + 1, ih =>
      have hwithin : ∀ v w, equal.within steps (r.value v) (r.value w) =
          r.outcome id (equal.within steps v w) := by
        intro v w
        match steps, ih with
        | 0, _ | 1, _ => rfl
        | n + 2, ih => exact ih n (by omega) v w
      have hitems : ∀ vs ws : List Value,
          (if (vs.map r.value).length = (ws.map r.value).length then
            allPairs (equal.within steps) (vs.map r.value) (ws.map r.value) else .ok false) =
          r.outcome id (if vs.length = ws.length then
            allPairs (equal.within steps) vs ws else .ok false) := by
        intro vs ws
        rw [List.length_map, List.length_map]
        split
        · exact allPairs_value r hwithin vs ws
        · rfl
      -- A value is the same as another one if and only if it was with the other numbers.
      unfold equal
      simp only [Renaming.value_eq_value]
      split
      · rfl
      · cases v with
        | list | vector =>
          cases w with
          | list | vector =>
            simp only [Renaming.value_list, Renaming.value_vector]
            exact hitems _ _
          | _ => rfl
        | map serial entries =>
          cases w with
          | map serial' others =>
            simp only [Renaming.value_map, sameKeys_value]
            split
            · exact allEntries_value r hwithin others entries
            · rfl
          | _ => rfl
        | _ => cases w <;> rfl

end Value

end AtomLisp
