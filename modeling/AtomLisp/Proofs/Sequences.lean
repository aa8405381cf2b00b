import AtomLisp.Proofs.Interchange
import AtomLisp.Proofs.Quasiquote
import Mathlib.Algebra.Ring.Nat

/-! # Building and observing sequences

  What `nth` finds in a sequence follows from how the sequence was built. At its own indices it
  finds what is left in front when `rest` has taken as many elements away. In joined sequences it
  finds what it would find in the one sequence that the index falls into. Values that are added to a
  sequence come to its front in a list, and to its end in a vector, in one call or in many.

  * `Bounded`: where `nth` answers, and how it stops elsewhere;
  * `complete_restTimes`: what `rest` leaves when it is called many times;
  * `FallsInto`: which of the joined sequences an index falls into; `existsUnique_fallsInto`: one of
    them, if there is one, and `FallsInto.getElem?_joined`: the element that is found there;
  * `exists_conjEach`: one call of `conj` for each value;
  * `builders_fit_observers`: builders and observers together.

  An index that is outside of a sequence is shown in the message of the error. That fails when it
  has too many digits: `nth_longIndex`.
-/

namespace AtomLisp.Sequences

open Builtin

variable {c : Caller} {frame : FrameId} {m : Machine} {s : Value} {items : List Value}

/-! ### Observing one sequence -/

theorem exists_items (h : s.isSequential = true) : ∃ items, s.items? = some items :=
  Option.isSome_iff_exists.1 h

theorem countOf_eq (h : s.items? = some items) : countOf s = items.length := by
  rw [countOf, h, Option.getD_some]

theorem call_count (c : Caller) (frame : FrameId) (m : Machine) (s : Value) :
    Builtin.call c frame [s] (.query .count) m = .done (.int (countOf s)) m := by
  have hanswer : Query.count.answer m [s] = .ok (.value (.int (countOf s))) := rfl
  exact call_of_ok c frame hanswer

theorem answer_first (m : Machine) (h : s.items? = some items) :
    Query.first.answer m [s] = .ok (.value (items.head?.getD .nil)) := by
  cases s with
  | list | vector =>
    cases h
    rfl
  | _ => cases h

theorem answer_rest (m : Machine) (h : s.items? = some items) :
    Query.rest.answer m [s] = .ok (.list items.tail) := by
  cases s with
  | list | vector =>
    cases h
    rfl
  | _ => cases h

/-! ### Indices -/

theorem indexFault_eq (i : Int) (length : Nat) :
    indexFault i length =
      if i.natAbs < Numeral.bound then .outOfRange i length else .numeralTooLong := by
  unfold indexFault Numeral.write?
  by_cases h : i.natAbs < Numeral.bound
  · simp only [if_pos h, Option.isSome_some, if_true]
  · simp only [if_neg h, Option.isSome_none, Bool.false_eq_true, if_false]

theorem indexFault_eq_outOfRange_iff (i : Int) (length : Nat) :
    indexFault i length = .outOfRange i length ↔ i.natAbs < Numeral.bound := by
  rw [indexFault_eq]
  split
  · next h => exact iff_of_true rfl h
  · next h => exact iff_of_false nofun h

theorem indexFault_eq_numeralTooLong_iff (i : Int) (length : Nat) :
    indexFault i length = .numeralTooLong ↔ Numeral.bound ≤ i.natAbs := by
  rw [indexFault_eq]
  split
  · next h => exact iff_of_false nofun (Nat.not_le.2 h)
  · next h => exact iff_of_true rfl (Nat.not_lt.1 h)

theorem answer_nth_outside (m : Machine) (h : s.items? = some items) {i : Int}
    (hi : ¬ (0 ≤ i ∧ i < items.length)) :
    Query.nth.answer m [s, .int i] = .error (indexFault i items.length) := by
  have hpair : Query.nth.answer m [s, .int i] = itemAt items i := by
    show elementAt [s, .int i] = _
    rw [elementAt_pair, h]
  rw [hpair]
  cases i with
  | ofNat i =>
    -- Not negative, so it is beyond the end.
    have hnone : items[i]? = none := by
      rw [List.getElem?_eq_none_iff]
      simp only [Int.ofNat_eq_natCast] at hi
      omega
    simp only [itemAt, hnone]
  | negSucc i => rfl

theorem call_nth (c : Caller) (frame : FrameId) (m : Machine) (h : s.items? = some items) {i : Nat}
    {v : Value} (hv : items[i]? = some v) :
    Builtin.call c frame [s, .int i] (.query .nth) m = .done v m :=
  call_of_ok c frame (answer_nth h hv)

/-- Where `nth` answers in a sequence, and how it stops elsewhere: it answers at the indices from
zero up to the count, and nowhere else. Elsewhere the index is out of range, or has too many digits
to be shown in the message that says so. -/
structure Bounded (c : Caller) (frame : FrameId) (m : Machine) (s : Value) (count : Nat) :
    Prop where
  answers_iff    : ∀ i : Int,
    (∃ v, Builtin.call c frame [s, .int i] (.query .nth) m = .done v m) ↔ 0 ≤ i ∧ i < count
  outOfRange_iff : ∀ i : Int,
    Builtin.call c frame [s, .int i] (.query .nth) m = .failed (.outOfRange i count) m ↔
      ¬ (0 ≤ i ∧ i < count) ∧ i.natAbs < Numeral.bound
  tooLong_iff    : ∀ i : Int,
    Builtin.call c frame [s, .int i] (.query .nth) m = .failed .numeralTooLong m ↔
      ¬ (0 ≤ i ∧ i < count) ∧ Numeral.bound ≤ i.natAbs

/-- A run that ends with a value, or else with a certain error, ends with no other error. -/
theorem failed_iff {r : Result Value} {p : Prop} {e e' : Error} (hdone : p → ∃ v, r = .done v m)
    (hfailed : ¬ p → r = .failed e m) : r = .failed e' m ↔ ¬ p ∧ e = e' := by
  by_cases h : p
  · obtain ⟨v, hv⟩ := hdone h
    rw [hv]
    exact iff_of_false nofun fun hnot => hnot.1 h
  · rw [hfailed h]
    constructor
    · intro heq
      cases heq
      exact ⟨h, rfl⟩
    · rintro ⟨-, rfl⟩
      rfl

theorem bounded_of_items (c : Caller) (frame : FrameId) (m : Machine)
    (h : s.items? = some items) : Bounded c frame m s items.length := by
  have hinside : ∀ i : Int, 0 ≤ i ∧ i < items.length →
      ∃ v, Builtin.call c frame [s, .int i] (.query .nth) m = .done v m := by
    rintro i ⟨hnonneg, hlt⟩
    obtain ⟨k, rfl⟩ := Int.eq_ofNat_of_zero_le hnonneg
    have hk : k < items.length := by omega
    exact ⟨items[k], call_nth c frame m h (List.getElem?_eq_getElem hk)⟩
  have houtside : ∀ i : Int, ¬ (0 ≤ i ∧ i < items.length) →
      Builtin.call c frame [s, .int i] (.query .nth) m = .failed (indexFault i items.length) m :=
    fun i hi => call_of_error c frame (answer_nth_outside m h hi)
  refine ⟨fun i => ⟨?_, hinside i⟩, fun i => ?_, fun i => ?_⟩
  · rintro ⟨v, hv⟩
    by_contra hi
    rw [houtside i hi] at hv
    cases hv
  · rw [failed_iff (hinside i) (houtside i), indexFault_eq_outOfRange_iff]
  · rw [failed_iff (hinside i) (houtside i), indexFault_eq_numeralTooLong_iff]

/-! ### Taking elements away -/

/-- Calls `rest` so many times, each time on what the last call has answered. -/
def restTimes (c : Caller) (frame : FrameId) : (times : Nat) → Value → Run Value
  | 0, v => pure v
  | times + 1, v => do
    let w ← Builtin.call c frame [v] (.query .rest)
    restTimes c frame times w

/-- Every call takes one element away, and makes one list. -/
theorem complete_restTimes (c : Caller) (frame : FrameId) (times : Nat) (m : Machine)
    (h : s.items? = some items) :
    ∃ w, restTimes c frame times s m = .done w (m.skipSerials times) ∧
      w.items? = some (items.drop times) := by
  induction times generalizing s items m with
  | zero => exact ⟨s, rfl, h⟩
  | succ times ih =>
    have hrest : Builtin.call c frame [s] (.query .rest) m =
        .done (.list m.nextSerial items.tail) (m.skipSerials 1) :=
      call_of_ok c frame (answer_rest m h)
    -- What is left is a list, whatever the sequence was.
    obtain ⟨w, hw, hitems⟩ := ih (m.skipSerials 1)
      (show (Value.list m.nextSerial items.tail).items? = some items.tail from rfl)
    refine ⟨w, ?_, ?_⟩
    · rw [restTimes, Run.bind_apply, hrest, Nat.add_comm, ← Template.skipSerials_skipSerials]
      exact hw
    · rw [hitems, List.drop_tail]

/-- The element at an index is in front when as many have been taken away. -/
theorem first_restTimes (c : Caller) (frame : FrameId) (m : Machine) (h : s.items? = some items)
    {i : Nat} {v : Value} (hv : items[i]? = some v) :
    (restTimes c frame i s >>= fun w => Builtin.call c frame [w] (.query .first)) m =
      .done v (m.skipSerials i) := by
  obtain ⟨w, hw, hitems⟩ := complete_restTimes c frame i m h
  -- In front of what is left is the element at the index.
  have hfirst := answer_first (m.skipSerials i) hitems
  rw [List.head?_drop, hv, Option.getD_some] at hfirst
  rw [Run.bind_apply, hw]
  exact call_of_ok c frame hfirst

/-! ### Joined sequences -/

/-- The elements of sequences, one after another. -/
def joined (parts : List Value) : List Value := parts.flatMap fun s => s.items?.getD []

/-- How many elements come before the sequence at a place. -/
def offset (parts : List Value) (place : Nat) : Nat := ((parts.take place).map countOf).sum

/-- An index of joined sequences falls into the sequence `s` at a place, and there it is the
index `k`. -/
structure FallsInto (parts : List Value) (i : Int) (place : Nat) (s : Value) (k : Int) :
    Prop where
  part   : parts[place]? = some s
  index  : i - offset parts place = k
  nonneg : 0 ≤ k
  lt     : k < countOf s

section
variable {parts : List Value}

theorem length_joined (parts : List Value) : (joined parts).length = (parts.map countOf).sum :=
  List.length_flatMap

theorem offset_length (parts : List Value) :
    offset parts parts.length = (parts.map countOf).sum := by
  rw [offset, List.take_length]

theorem offset_succ {place : Nat} (h : parts[place]? = some s) :
    offset parts (place + 1) = offset parts place + countOf s := by
  rw [offset, List.take_add_one, h, List.map_append, List.sum_append]
  rfl

theorem offset_mono {j k : Nat} (h : j ≤ k) : offset parts j ≤ offset parts k := by
  obtain ⟨more, rfl⟩ := Nat.exists_eq_add_of_le h
  rw [offset, offset, List.take_add, List.map_append, List.sum_append]
  exact Nat.le_add_right ..

/-- An index below the elements of the first sequences falls into one of these. -/
theorem exists_fallsInto {i : Nat} {places : Nat} (hplaces : places ≤ parts.length)
    (hi : i < offset parts places) : ∃ j s k, FallsInto parts i j s k := by
  -- It is before the last of them, or else in the last one.
  induction places with
  | zero => exact absurd hi (Nat.not_lt_zero i)
  | succ places ih =>
    by_cases hbefore : i < offset parts places
    · exact ih (by omega) hbefore
    · have hpart : parts[places]? = some parts[places] := List.getElem?_eq_getElem (by omega)
      rw [offset_succ hpart] at hi
      exact ⟨places, parts[places], i - offset parts places, hpart, rfl, by omega, by omega⟩

/-- An index that falls into one sequence does not fall into an earlier one. -/
theorem FallsInto.place_le {i : Int} {j j' : Nat} {s s' : Value} {k k' : Int}
    (h : FallsInto parts i j s k) (h' : FallsInto parts i j' s' k') : j ≤ j' := by
  by_contra hlt
  -- Else the elements of the sequence at `j'` would all come before the one at `j` begins.
  have hsucc := offset_succ h'.part
  have hmono : offset parts (j' + 1) ≤ offset parts j := offset_mono (by omega)
  have hindex := h.index
  have hindex' := h'.index
  have hnonneg := h.nonneg
  have hbelow := h'.lt
  omega

theorem existsUnique_fallsInto {i : Int} (hi : 0 ≤ i ∧ i < (parts.map countOf).sum) :
    ∃! j, ∃ s k, FallsInto parts i j s k := by
  obtain ⟨hnonneg, hlt⟩ := hi
  obtain ⟨n, rfl⟩ := Int.eq_ofNat_of_zero_le hnonneg
  have hn : n < offset parts parts.length := by
    rw [offset_length]
    omega
  obtain ⟨j, s, k, hfalls⟩ := exists_fallsInto (Nat.le_refl _) hn
  refine ⟨j, ⟨s, k, hfalls⟩, ?_⟩
  rintro j' ⟨s', k', hfalls'⟩
  exact Nat.le_antisymm (hfalls'.place_le hfalls) (hfalls.place_le hfalls')

/-- The elements before a sequence, those of the sequence, and those after it. -/
theorem joined_eq {place : Nat} (h : parts[place]? = some s) :
    joined parts =
      joined (parts.take place) ++ s.items?.getD [] ++ joined (parts.drop (place + 1)) := by
  obtain ⟨hlt, rfl⟩ := List.getElem?_eq_some_iff.1 h
  have hparts : parts = parts.take place ++ parts[place] :: parts.drop (place + 1) := by
    rw [← List.drop_eq_getElem_cons hlt, List.take_append_drop]
  conv_lhs => rw [hparts]
  rw [joined, List.flatMap_append, List.flatMap_cons, List.append_assoc]
  rfl

/-- At an index of joined sequences there is the element of the one that the index falls into. -/
theorem FallsInto.getElem?_joined {i j k : Nat} (h : FallsInto parts i j s k)
    (hs : s.items? = some items) : (joined parts)[i]? = items[k]? := by
  -- The index is beyond the elements before the sequence, and before those after it.
  have hbefore : (joined (parts.take j)).length = offset parts j := length_joined _
  have hindex := h.index
  have hlt := h.lt
  rw [countOf_eq hs] at hlt
  rw [joined_eq h.part, hs, Option.getD_some, List.append_assoc,
    List.getElem?_append_right (by omega), List.getElem?_append_left (by omega)]
  congr 1
  omega

theorem joinItems_eq (m : Machine) (h : ∀ s ∈ parts, s.isSequential = true) :
    joinItems m parts = .ok (joined parts) := by
  induction parts with
  | nil => rfl
  | cons s parts ih =>
    obtain ⟨items, hitems⟩ := exists_items (h s (List.mem_cons_self ..))
    have hothers := ih fun t ht => h t (List.mem_cons_of_mem _ ht)
    rw [joined, List.flatMap_cons, hitems, Option.getD_some]
    simp only [joinItems, hitems, hothers]
    rfl

theorem call_concat (c : Caller) (frame : FrameId) (m : Machine)
    (h : ∀ s ∈ parts, s.isSequential = true) :
    Builtin.call c frame parts (.query .concat) m =
      .done (.list m.nextSerial (joined parts)) (m.skipSerials 1) := by
  have hanswer : Query.concat.answer m parts = .ok (.list (joined parts)) := by
    show join m parts = _
    rw [join, joinItems_eq m h]
    rfl
  exact call_of_ok c frame hanswer

end

/-! ### Adding values -/

/-- Adds values to a sequence one at a time: each by a call of `conj` on what the last one has
made. -/
def conjEach (c : Caller) (frame : FrameId) : Value → List Value → Run Value
  | v, [] => pure v
  | v, x :: new => do
    let w ← Builtin.call c frame [v, x] (.query .conj)
    conjEach c frame w new

theorem call_conj_list (c : Caller) (frame : FrameId) (serial : Serial) (items new : List Value)
    (m : Machine) :
    Builtin.call c frame (.list serial items :: new) (.query .conj) m =
      .done (.list m.nextSerial (new.reverse ++ items)) (m.skipSerials 1) := rfl

theorem call_conj_vector (c : Caller) (frame : FrameId) (serial : Serial)
    (items new : List Value) (m : Machine) :
    Builtin.call c frame (.vector serial items :: new) (.query .conj) m =
      .done (.vector m.nextSerial (items ++ new)) (m.skipSerials 1) := rfl

/-- For both kinds of sequences: if one call adds values to the elements, and adding them one after
another to the elements is adding all of them, then so is one call after another. -/
theorem exists_conjEach {sequence : Serial → List Value → Value}
    (add : List Value → List Value → List Value)
    (hcall : ∀ serial items new m,
      Builtin.call c frame (sequence serial items :: new) (.query .conj) m =
        .done (sequence m.nextSerial (add items new)) (m.skipSerials 1))
    (hnil : ∀ items, add items [] = items)
    (hcons : ∀ items x new, add items (x :: new) = add (add items [x]) new)
    (serial : Serial) (items new : List Value) (m : Machine) :
    ∃ serial', conjEach c frame (sequence serial items) new m =
      .done (sequence serial' (add items new)) (m.skipSerials new.length) := by
  induction new generalizing serial items m with
  | nil =>
    rw [hnil]
    exact ⟨serial, rfl⟩
  | cons x new ih =>
    obtain ⟨serial', hrest⟩ := ih m.nextSerial (add items [x]) (m.skipSerials 1)
    refine ⟨serial', ?_⟩
    rw [conjEach, Run.bind_apply, hcall, hcons items x new, List.length_cons, Nat.add_comm,
      ← Template.skipSerials_skipSerials]
    exact hrest

/-! ### Together -/

/-- **Builders and observers of sequences fit together.** For lists and vectors of any length:

  * `nth` answers at the indices from zero up to the count, what `first` answers when `rest` has
    been called as many times; elsewhere the index is out of range, if it can be shown;
  * in joined sequences `nth` answers at the indices from zero up to the sum of the counts. Each of
    these falls into one of the sequences, and `nth` answers what it answers there;
  * `conj` adds values to the front of a list, the last one first, and to the end of a vector, and
    leaves the elements that are there in order; so does one call of `conj` for each value. -/
theorem builders_fit_observers (c : Caller) (frame : FrameId) (m : Machine) :
    let call (q : Query) (args : List Value) : Run Value := Builtin.call c frame args (.query q)
    (∀ s : Value, s.isSequential = true →
      call .count [s] m = .done (.int (countOf s)) m ∧
      Bounded c frame m s (countOf s) ∧
      ∀ i : Nat, i < countOf s → ∃ v, call .nth [s, .int i] m = .done v m ∧
        (restTimes c frame i s >>= fun w => call .first [w]) m = .done v (m.skipSerials i)) ∧
    (∀ parts : List Value, (∀ s ∈ parts, s.isSequential = true) →
      ∃ whole n, call .concat parts m = .done whole n ∧
        Bounded c frame n whole (parts.map countOf).sum ∧
        (∀ i : Int, 0 ≤ i ∧ i < (parts.map countOf).sum →
          ∃! j, ∃ s k, FallsInto parts i j s k) ∧
        ∀ i j s k, FallsInto parts i j s k → ∃ v,
          call .nth [whole, .int i] n = .done v n ∧ call .nth [s, .int k] n = .done v n) ∧
    (∀ serial items new,
      call .conj (.list serial items :: new) m =
        .done (.list m.nextSerial (new.reverse ++ items)) (m.skipSerials 1) ∧
      ∃ serial', conjEach c frame (.list serial items) new m =
        .done (.list serial' (new.reverse ++ items)) (m.skipSerials new.length)) ∧
    ∀ serial items new,
      call .conj (.vector serial items :: new) m =
        .done (.vector m.nextSerial (items ++ new)) (m.skipSerials 1) ∧
      ∃ serial', conjEach c frame (.vector serial items) new m =
        .done (.vector serial' (items ++ new)) (m.skipSerials new.length) := by
  intro call
  refine ⟨?_, ?_, ?_, ?_⟩
  · intro s hs
    obtain ⟨items, hitems⟩ := exists_items hs
    rw [countOf_eq hitems]
    refine ⟨countOf_eq hitems ▸ call_count c frame m s, bounded_of_items c frame m hitems, ?_⟩
    intro i hi
    have hv : items[i]? = some items[i] := List.getElem?_eq_getElem hi
    exact ⟨items[i], call_nth c frame m hitems hv, first_restTimes c frame m hitems hv⟩
  · intro parts hparts
    have hbounded := bounded_of_items c frame (m.skipSerials 1)
      (show (Value.list m.nextSerial (joined parts)).items? = some (joined parts) from rfl)
    rw [length_joined] at hbounded
    refine ⟨_, _, call_concat c frame m hparts, hbounded, fun i => existsUnique_fallsInto, ?_⟩
    intro i j s k hfalls
    obtain ⟨items, hitems⟩ := exists_items (hparts s (List.mem_of_getElem? hfalls.part))
    -- Both indices are natural numbers.
    obtain ⟨k, rfl⟩ := Int.eq_ofNat_of_zero_le hfalls.nonneg
    obtain ⟨i, rfl⟩ : ∃ n : Nat, i = n := Int.eq_ofNat_of_zero_le (by
      have hindex := hfalls.index
      omega)
    have hlt := hfalls.lt
    rw [countOf_eq hitems] at hlt
    have hv : items[k]? = some items[k] := List.getElem?_eq_getElem (by omega)
    have hwhole : (joined parts)[i]? = some items[k] := (hfalls.getElem?_joined hitems).trans hv
    exact ⟨items[k], call_nth c frame _ rfl hwhole, call_nth c frame _ hitems hv⟩
  · intro serial items new
    refine ⟨call_conj_list c frame serial items new m, ?_⟩
    exact exists_conjEach (fun items new => new.reverse ++ items) (call_conj_list c frame)
      (fun items => rfl) (fun items x new => by simp) serial items new m
  · intro serial items new
    refine ⟨call_conj_vector c frame serial items new m, ?_⟩
    exact exists_conjEach (fun items new => items ++ new) (call_conj_vector c frame)
      List.append_nil (fun items x new => by simp) serial items new m

/-- Three sequences, the one in the middle without elements. -/
def partsSample : List Value :=
  [.list 1 [.int 10, .int 11], .vector 2 [], .vector 3 [.int 12, .nil]]

/-- The index 2 of the three sequences falls into the last one, where it is the index 0; -1 and 4
fall into none of them. -/
theorem builders_fit_partsSample :
    let c := outermost 0
    let m := Machine.bare
    let last : Value := .vector 3 [.int 12, .nil]
    last.isSequential = true ∧ (∀ s ∈ partsSample, s.isSequential = true) ∧
      (restTimes c 0 1 last >>= fun w => Builtin.call c 0 [w] (.query .first)) m =
        .done .nil (m.skipSerials 1) ∧
      ∃ whole n, Builtin.call c 0 partsSample (.query .concat) m = .done whole n ∧
        FallsInto partsSample 2 2 last 0 ∧
        Builtin.call c 0 [whole, .int 2] (.query .nth) n = .done (.int 12) n ∧
        Builtin.call c 0 [whole, .int (-1)] (.query .nth) n = .failed (.outOfRange (-1) 4) n ∧
        Builtin.call c 0 [whole, .int 4] (.query .nth) n = .failed (.outOfRange 4 4) n := by
  intro c m last
  have hlast : last.isSequential = true := rfl
  have hparts : ∀ s ∈ partsSample, s.isSequential = true := by decide
  have hfalls : FallsInto partsSample 2 2 last 0 := ⟨rfl, rfl, by decide, by decide⟩
  have hfit := builders_fit_observers c 0 m
  obtain ⟨v, hnth, hfirst⟩ := (hfit.1 last hlast).2.2 1 (by decide)
  obtain rfl : .nil = v := by
    cases hnth
    rfl
  obtain ⟨whole, n, hwhole, hbounded, -, hfound⟩ := hfit.2.1 partsSample hparts
  obtain ⟨w, hw, hpart⟩ := hfound 2 2 last 0 hfalls
  obtain rfl : .int 12 = w := by
    cases hpart
    rfl
  refine ⟨hlast, hparts, hfirst, whole, n, hwhole, hfalls, hw, ?_, ?_⟩
  · exact (hbounded.outOfRange_iff (-1)).2 ⟨by decide, by decide +kernel⟩
  · exact (hbounded.outOfRange_iff 4).2 ⟨by decide, by decide +kernel⟩

/-- An index that is outside of a sequence and has too many digits: the error is not that it is out
of range, and no handler sees it. -/
theorem nth_longIndex :
    let s : Value := .vector 1 []
    let i : Int := Numeral.bound
    let r := Builtin.call (outermost 0) 0 [s, .int i] (.query .nth) Machine.bare
    s.isSequential = true ∧ ¬ (0 ≤ i ∧ i < countOf s) ∧
      (∀ length, r ≠ .failed (.outOfRange i length) Machine.bare) ∧
      r = .failed .numeralTooLong Machine.bare ∧ Error.numeralTooLong.caught? = none := by
  intro s i r
  have houtside : ¬ (0 ≤ i ∧ i < countOf s) := by
    have hempty : countOf s = 0 := rfl
    omega
  have hlong : Numeral.bound ≤ i.natAbs := Nat.le_of_eq (Int.natAbs_natCast _).symm
  have hr : r = .failed .numeralTooLong Machine.bare :=
    ((bounded_of_items (outermost 0) 0 Machine.bare (s := s) rfl).tooLong_iff i).2
      ⟨houtside, hlong⟩
  refine ⟨rfl, houtside, fun length hlength => ?_, hr, rfl⟩
  rw [hr] at hlength
  cases hlength

end AtomLisp.Sequences
