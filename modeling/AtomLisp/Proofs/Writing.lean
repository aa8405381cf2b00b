import AtomLisp.Proofs.Reading.Shown
import Mathlib.Data.Nat.Find

/-! # Values without a text

  A value has no printed form when its parts are nested too deeply, or when one of them is an
  integer with too many digits. The same holds of inspected forms. These do not look inside a
  hash-map that is met inside itself, but what they pass over there they have seen before.

  * `Value.LongAt`: such an integer is met after so many steps from a value to a part of it;
  * `Value.print_error`, `Value.inspectWithin_error`: why there is no text;
  * `Value.not_ok_of_longAt`: no inspected form passes over an integer that has no text;
  * `Value.print_error_of_inspect`: a value with an inspected form has a printed one, nesting aside;
  * `Value.inspectWithin_of_le`: an inspected form does not depend on the steps that are allowed.
-/

namespace AtomLisp

/-! ### Parts -/

namespace Value

variable {cells : Cells}

/-- What a value is made of; an atom is made of its content. -/
def parts (cells : Cells) : Value → List Value
  | .list _ items | .vector _ items => items
  | .map _ entries => Entries.vals entries
  | .atom cell => [cells.content cell]
  | _ => []

variable (cells) in
/-- An integer with too many digits is met after so many steps from a value to one of its parts. -/
inductive LongAt : Nat → Value → Prop
  | here {i : Int} (h : Numeral.bound ≤ i.natAbs) : LongAt 0 (.int i)
  | part {v w : Value} {n : Nat} (hw : w ∈ v.parts cells) (h : LongAt n w) : LongAt (n + 1) v

variable (cells) in
/-- An integer with too many digits is somewhere in the value. -/
def HoldsLong (v : Value) : Prop := ∃ n, LongAt cells n v

theorem HoldsLong.part {v w : Value} (hw : w ∈ v.parts cells) (h : w.HoldsLong cells) :
    v.HoldsLong cells := by
  obtain ⟨n, hn⟩ := h
  exact ⟨n + 1, .part hw hn⟩

variable (cells) in
/-- Why a value has no text: its parts are nested too deeply, or an integer among them is too
long. -/
def Wordless (v : Value) (e : Error) : Prop :=
  e = .tooDeep ∨ e = .numeralTooLong ∧ v.HoldsLong cells

theorem Wordless.part {v w : Value} {e : Error} (hw : w ∈ v.parts cells)
    (h : w.Wordless cells e) : v.Wordless cells e := by
  rcases h with rfl | ⟨rfl, hlong⟩
  · exact .inl rfl
  · exact .inr ⟨rfl, hlong.part hw⟩

theorem mem_vals_of_mem {entries : Entries Value} {entry : String × Value}
    (h : entry ∈ entries) : entry.2 ∈ Entries.vals entries := List.mem_map_of_mem h

/-! ### Why there is no text -/

theorem write_of_le {i : Int} (h : Numeral.bound ≤ i.natAbs) :
    Numeral.write i = .error .numeralTooLong := by
  have hlong : ¬ i.natAbs < Numeral.bound := Nat.not_lt.2 h
  have hwrite : Numeral.write? i = none := if_neg hlong
  unfold Numeral.write
  rw [hwrite]

theorem write_error {i : Int} {e : Error} (h : Numeral.write i = .error e) :
    (Value.int i).Wordless cells e := by
  rcases Nat.lt_or_ge i.natAbs Numeral.bound with hi | hi
  · rw [Numeral.write_eq hi] at h
    cases h
  · rw [write_of_le hi] at h
    cases h
    exact .inr ⟨rfl, 0, .here hi⟩

/-- A printed form is missing for a reason. -/
theorem print_error {readable : Bool} {steps : Nat} {v : Value} {e : Error}
    (h : v.print cells readable steps = .error e) : v.Wordless cells e := by
  induction steps using Nat.strongRecOn generalizing v with
  | ind steps ih =>
    cases v with
    | list serial items | vector serial items =>
      match steps, ih, h with
      | 0, _, h | 1, _, h | 2, _, h | 3, _, h =>
        cases h
        exact .inl rfl
      | steps + 4, ih, h =>
        obtain ⟨item, hitem, hprint⟩ := error_of_parts h
        exact (ih steps (by omega) hprint).part hitem
    | map serial entries =>
      match steps, ih, h with
      | 0, _, h | 1, _, h | 2, _, h =>
        cases h
        exact .inl rfl
      | steps + 3, ih, h =>
        obtain ⟨entry, hentry, hpart⟩ := error_of_parts h
        rcases error_of_bind hpart with hprint | ⟨shown, -, hok⟩
        · exact (ih steps (by omega) hprint).part (mem_vals_of_mem hentry)
        · cases hok
    | atom cell =>
      match steps, ih, h with
      | 0, _, h =>
        cases h
        exact .inl rfl
      | steps + 1, ih, h =>
        rcases error_of_bind h with hprint | ⟨shown, -, hok⟩
        · exact (ih steps (by omega) hprint).part (List.mem_singleton_self _)
        · cases hok
    | int i =>
      cases steps with
      | zero =>
        cases h
        exact .inl rfl
      | succ steps => exact write_error h
    | bool b =>
      cases b <;> cases steps <;> cases h <;> exact .inl rfl
    | _ =>
      cases steps <;> cases h
      exact .inl rfl

theorem printAll_error {readable : Bool} {steps : Nat} {separator : String} {vs : List Value}
    {e : Error} (h : printAll cells readable steps separator vs = .error e) :
    ∃ v ∈ vs, v.Wordless cells e := by
  obtain ⟨v, hv, hprint⟩ := error_of_parts h
  exact ⟨v, hv, print_error hprint⟩

/-- An inspected form is missing for a reason. -/
theorem inspectWithin_error {steps : Nat} {around : List Value} {v : Value} {e : Error}
    (h : v.inspectWithin cells steps around = .error e) : v.Wordless cells e := by
  induction steps using Nat.strongRecOn generalizing around v with
  | ind steps ih =>
    cases v with
    | list serial items | vector serial items =>
      rcases steps with _ | _ | _ | steps
      iterate 3
        cases h
        exact .inl rfl
      obtain ⟨item, hitem, hinspect⟩ := error_of_parts h
      exact (ih steps (by omega) hinspect).part hitem
    | map serial entries =>
      cases steps with
      | zero =>
        cases h
        exact .inl rfl
      | succ steps =>
        rw [inspectWithin] at h
        split at h
        · cases h
        · obtain ⟨entry, hentry, hpart⟩ := error_of_parts h
          rcases error_of_bind hpart with hinspect | ⟨shown, -, hok⟩
          · exact (ih steps (by omega) hinspect).part (mem_vals_of_mem hentry)
          · cases hok
    | atom cell =>
      rcases steps with _ | _ | steps
      iterate 2
        cases h
        exact .inl rfl
      rcases error_of_bind h with hinspect | ⟨shown, -, hok⟩
      · exact (ih steps (by omega) hinspect).part (List.mem_singleton_self _)
      · cases hok
    | int i =>
      cases steps with
      | zero =>
        cases h
        exact .inl rfl
      | succ steps => exact write_error h
    | bool b =>
      cases b <;> cases steps <;> cases h <;> exact .inl rfl
    | _ =>
      cases steps <;> cases h
      exact .inl rfl

/-! ### Inspected forms show everything -/

/-- What is joined from parts has no text if one of the parts has none. -/
theorem not_ok_of_parts {α β γ : Type} {f : α → Except Error β} {join : List β → γ} {xs : List α}
    {x : α} (hx : x ∈ xs) (hf : ∀ b, f x ≠ .ok b) (c : γ) :
    (do return join (← xs.mapM f)) ≠ Except.ok c := by
  intro h
  obtain ⟨parts, hparts, -⟩ := exists_of_bind_eq_ok h
  clear h
  induction xs generalizing parts with
  | nil => cases hx
  | cons y ys ih =>
    rw [List.mapM_cons] at hparts
    obtain ⟨b, hb, hrest⟩ := exists_of_bind_eq_ok hparts
    obtain ⟨bs, hbs, -⟩ := exists_of_bind_eq_ok hrest
    rcases List.mem_cons.1 hx with rfl | hx
    · exact hf b hb
    · exact ih hx bs hbs

/-- **No inspected form passes over an integer that has no text.** Where the integer is met after
the fewest steps, it is met outside of every hash-map that is met inside itself: each of those
around is farther away from it than the value is. -/
theorem not_ok_of_longAt {n : Nat} {v : Value} (h : LongAt cells n v)
    (hleast : ∀ k < n, ¬ LongAt cells k v) {around : List Value}
    (haround : ∀ u ∈ around, ∀ k ≤ n, ¬ LongAt cells k u) (steps : Nat) (text : String) :
    v.inspectWithin cells steps around ≠ .ok text := by
  induction n generalizing v around steps text with
  | zero =>
    cases h with
    | @here i hi =>
      intro hok
      cases steps with
      | zero => cases hok
      | succ steps =>
        rw [inspectWithin, write_of_le hi] at hok
        cases hok
  | succ n ih =>
    cases h with
    | @part _ w _ hw hlong =>
      -- One step closer the integer is still met as soon as it can be.
      have hleast' : ∀ k < n, ¬ LongAt cells k w := fun k hk hk' =>
        hleast (k + 1) (by omega) (.part hw hk')
      have haround' : ∀ u ∈ around, ∀ k ≤ n, ¬ LongAt cells k u := fun u hu k hk =>
        haround u hu k (by omega)
      cases v with
      | list serial items | vector serial items =>
        intro hok
        rcases steps with _ | _ | _ | steps
        iterate 3 cases hok
        exact not_ok_of_parts hw (ih hlong hleast' haround' steps) text hok
      | map serial entries =>
        cases steps with
        | zero =>
          intro hok
          cases hok
        | succ steps =>
          have hnot : ¬ (serial ≠ 0 ∧ .map serial entries ∈ around) := fun hmet =>
            haround _ hmet.2 (n + 1) (Nat.le_refl _) (.part hw hlong)
          have hinner : ∀ u ∈ .map serial entries :: around, ∀ k ≤ n, ¬ LongAt cells k u := by
            intro u hu k hk
            rcases List.mem_cons.1 hu with rfl | hu
            · exact hleast k (by omega)
            · exact haround' u hu k hk
          obtain ⟨entry, hentry, rfl⟩ := List.mem_map.1 hw
          rw [inspectWithin, if_neg hnot]
          refine not_ok_of_parts hentry ?_ text
          intro shown hshown
          obtain ⟨inner, hok, -⟩ := exists_of_bind_eq_ok hshown
          exact ih hlong hleast' hinner steps inner hok
      | atom cell =>
        obtain rfl := List.mem_singleton.1 hw
        intro hshown
        rcases steps with _ | _ | steps
        iterate 2 cases hshown
        obtain ⟨inner, hok, -⟩ := exists_of_bind_eq_ok hshown
        exact ih hlong hleast' haround' steps inner hok
      | _ => cases hw

theorem HoldsLong.not_inspect {v : Value} (h : v.HoldsLong cells) (steps : Nat) (text : String) :
    v.inspect cells steps ≠ .ok text := by
  classical
  exact not_ok_of_longAt (Nat.find_spec h) (fun k hk => Nat.find_min h hk)
    (fun u hu => absurd hu List.not_mem_nil) steps text

/-- A value with an inspected form has a printed one, unless its parts are nested too deeply. -/
theorem print_error_of_inspect {v : Value} {steps steps' : Nat} {text : String}
    (h : v.inspect cells steps = .ok text) {readable : Bool} {e : Error}
    (he : v.print cells readable steps' = .error e) : e = .tooDeep := by
  rcases print_error he with rfl | ⟨-, hlong⟩
  · rfl
  · exact absurd h (hlong.not_inspect steps text)

/-! ### More steps -/

/-- Parts that are found in one way are found in another way that finds as much. -/
theorem mapM_of_ok {ε α β : Type} {f g : α → Except ε β} {xs : List α} {ys : List β}
    (h : xs.mapM f = .ok ys) (hfg : ∀ x ∈ xs, ∀ y, f x = .ok y → g x = .ok y) :
    xs.mapM g = .ok ys := by
  induction xs generalizing ys with
  | nil => exact h
  | cons x xs ih =>
    rw [List.mapM_cons] at h ⊢
    obtain ⟨y, hy, hrest⟩ := exists_of_bind_eq_ok h
    obtain ⟨ys', hys, hok⟩ := exists_of_bind_eq_ok hrest
    rw [hfg x (List.mem_cons_self ..) y hy,
      ih hys fun x' hx' => hfg x' (List.mem_cons_of_mem _ hx')]
    exact hok

variable {steps steps' : Nat} {around : List Value} {v : Value} {shown : String}

/-- What is shown in some steps is shown in one more. -/
theorem inspectWithin_succ (h : v.inspectWithin cells steps around = .ok shown) :
    v.inspectWithin cells (steps + 1) around = .ok shown := by
  induction steps using Nat.strongRecOn generalizing around v shown with
  | ind steps ih =>
    cases v with
    | map serial entries =>
      rcases steps with _ | n
      · cases h
      · rw [inspectWithin] at h ⊢
        by_cases hmet : serial ≠ 0 ∧ .map serial entries ∈ around
        · rwa [if_pos hmet] at h ⊢
        · rw [if_neg hmet] at h ⊢
          obtain ⟨parts, hparts, hok⟩ := exists_of_bind_eq_ok h
          rw [mapM_of_ok hparts]
          · exact hok
          · intro entry _ part hpart
            obtain ⟨inner, hinner, hok⟩ := exists_of_bind_eq_ok hpart
            rw [ih n (by omega) hinner]
            exact hok
    | atom cell =>
      rcases steps with _ | _ | n
      · cases h
      · cases h
      · rw [inspectWithin] at h ⊢
        obtain ⟨inner, hinner, hok⟩ := exists_of_bind_eq_ok h
        rw [ih n (by omega) hinner]
        exact hok
    | list serial items | vector serial items =>
      rcases steps with _ | _ | _ | n
      · cases h
      · cases h
      · cases h
      · rw [inspectWithin] at h ⊢
        obtain ⟨parts, hparts, hok⟩ := exists_of_bind_eq_ok h
        rw [mapM_of_ok hparts fun item _ part hpart => ih n (by omega) hpart]
        exact hok
    | bool b =>
      rcases steps with _ | n
      · cases h
      · cases b <;> exact h
    | _ =>
      rcases steps with _ | n
      · cases h
      · simpa only [inspectWithin] using h

theorem inspectWithin_of_le (h : v.inspectWithin cells steps around = .ok shown)
    (hle : steps ≤ steps') : v.inspectWithin cells steps' around = .ok shown := by
  induction hle with
  | refl => exact h
  | step _ ih => exact inspectWithin_succ ih

end Value

end AtomLisp
