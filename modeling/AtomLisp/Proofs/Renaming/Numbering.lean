import AtomLisp.Proofs.Renaming
import AtomLisp.Value.Numbered

/-! # Numbering and renaming

  Collections that were only written down get their serial numbers in turn. So numbering goes on
  from the number after the last one, and leaves alone what has its numbers. When it starts from
  another number, the result is a renaming of the one that was.

  * `Value.unnumbered`: how many collections get a number; `number_snd`: numbering counts them;
  * `number_value`: what is numbered from another number on;
  * `number_agree`: renamings agree on what is numbered if they agree on the numbers given.
-/

namespace AtomLisp.Value

/-! ### How many numbers are given -/

mutual

/-- How many collections in a value get a number when it is numbered. -/
def unnumbered : Value → Nat
  | .list 0 items => unnumberedAll items + 1
  | .vector 0 items => unnumberedAll items + 1
  | .map 0 entries => unnumberedEntries entries + 1
  | _ => 0
termination_by structural v => v

/-- How many collections in several values get a number. -/
def unnumberedAll : List Value → Nat
  | [] => 0
  | v :: vs => unnumbered v + unnumberedAll vs
termination_by structural vs => vs

/-- How many collections in the values of entries get a number. -/
def unnumberedEntries : List (String × Value) → Nat
  | [] => 0
  | (_, v) :: rest => unnumbered v + unnumberedEntries rest
termination_by structural es => es

end

mutual

/-- Numbering goes on from the number after the last one. -/
theorem number_snd : ∀ (next : Serial) (v : Value), (v.number next).2 = next + v.unnumbered
  | next, .list 0 items | next, .vector 0 items =>
    (numberAll_snd (next + 1) items).trans (Nat.add_right_comm next 1 _)
  | next, .map 0 entries =>
    (numberEntries_snd (next + 1) entries).trans (Nat.add_right_comm next 1 _)
  | _, .list (_ + 1) _ | _, .vector (_ + 1) _ | _, .map (_ + 1) _ | _, .nil | _, .bool _
  | _, .int _ | _, .text _ | _, .symbol _ | _, .atom _ | _, .builtin _ | _, .closure .. => rfl

theorem numberAll_snd : ∀ (next : Serial) (vs : List Value),
    (numberAll next vs).2 = next + unnumberedAll vs
  | _, [] => rfl
  | next, v :: vs => by
    rw [numberAll, numberAll_snd, number_snd next v, unnumberedAll, Nat.add_assoc]

theorem numberEntries_snd : ∀ (next : Serial) (entries : List (String × Value)),
    (numberEntries next entries).2 = next + unnumberedEntries entries
  | _, [] => rfl
  | next, (_, v) :: rest => by
    rw [numberEntries, numberEntries_snd, number_snd next v, unnumberedEntries, Nat.add_assoc]

end

theorem le_number (next : Serial) (v : Value) : next ≤ (v.number next).2 :=
  Nat.le.intro (number_snd next v).symm

theorem le_numberAll (next : Serial) (vs : List Value) : next ≤ (numberAll next vs).2 :=
  Nat.le.intro (numberAll_snd next vs).symm

theorem le_numberEntries (next : Serial) (entries : List (String × Value)) :
    next ≤ (numberEntries next entries).2 :=
  Nat.le.intro (numberEntries_snd next entries).symm

/-! ### Values that have their numbers -/

/-- Numbering leaves the value alone: it is no collection that was only written down. -/
def Numbered (v : Value) : Prop := ∀ next, v.number next = (v, next)

theorem numbered_number {next : Serial} (hnext : 0 < next) (v : Value) :
    (v.number next).1.Numbered := by
  obtain ⟨k, rfl⟩ : ∃ k, next = k + 1 := Nat.exists_eq_add_of_le' hnext
  cases v with
  | list serial items | vector serial items | map serial items =>
    cases serial <;> exact fun _ => rfl
  | _ => exact fun _ => rfl

theorem numbered_numberAll {next : Serial} (hnext : 0 < next) (vs : List Value) :
    ∀ v ∈ (numberAll next vs).1, v.Numbered := by
  induction vs generalizing next with
  | nil => exact fun _ hv => absurd hv List.not_mem_nil
  | cons v vs ih =>
    intro w hw
    rcases List.mem_cons.1 hw with rfl | hw
    · exact numbered_number hnext v
    · exact ih (Nat.lt_of_lt_of_le hnext (le_number next v)) w hw

/-! ### Other numbers -/

section

variable (r : Renaming) {next start last : Serial}

/-- The numbers after the first `count` ones follow one another as well. -/
theorem serials_add {next' : Serial} {count : Nat} (hnext : next' = next + count)
    (h : ∀ k, next + k < last → r.serial (next + k) = start + k) :
    ∀ k, next' + k < last → r.serial (next' + k) = start + count + k := by
  subst hnext
  intro k hk
  rw [Nat.add_assoc] at hk ⊢
  rw [h _ hk, Nat.add_assoc]

mutual

/-- What is numbered from `start` on instead gets other numbers, if these follow one another too. -/
theorem number_value {next start : Serial} : ∀ v : Value,
    (∀ k, next + k < (v.number next).2 → r.serial (next + k) = start + k) →
      (r.value v).number start = (r.value (v.number next).1, start + v.unnumbered)
  | .list 0 items, h | .vector 0 items, h => by
    have hitems := numberAll_value items (serials_add r rfl h)
    have hnext : r.serial next = start := h 0 (le_numberAll (next + 1) items)
    simp only [Renaming.value, r.serial_zero, number, hitems, hnext, unnumbered,
      Nat.add_right_comm start 1, Nat.add_assoc start]
  | .map 0 entries, h => by
    have hentries := numberEntries_value entries (serials_add r rfl h)
    have hnext : r.serial next = start := h 0 (le_numberEntries (next + 1) entries)
    simp only [Renaming.value, r.serial_zero, number, hentries, hnext, unnumbered,
      Nat.add_right_comm start 1, Nat.add_assoc start]
  | .list (s + 1) _, _ | .vector (s + 1) _, _ | .map (s + 1) _, _ => by
    obtain ⟨t, ht⟩ := Nat.exists_eq_succ_of_ne_zero (mt r.serial_eq_zero.1 (Nat.succ_ne_zero s))
    simp only [Renaming.value, ht, number, unnumbered, Nat.add_zero]
  | .nil, _ | .bool _, _ | .int _, _ | .text _, _ | .symbol _, _ | .atom _, _ | .builtin _, _
  | .closure .., _ => rfl

theorem numberAll_value {next start : Serial} : ∀ vs : List Value,
    (∀ k, next + k < (numberAll next vs).2 → r.serial (next + k) = start + k) →
      numberAll start (r.values vs) = (r.values (numberAll next vs).1, start + unnumberedAll vs)
  | [], _ => rfl
  | v :: vs, h => by
    have hv := number_value v fun k hk =>
      h k (Nat.lt_of_lt_of_le hk (le_numberAll (v.number next).2 vs))
    have hvs := numberAll_value vs (serials_add r (number_snd next v) h)
    simp only [Renaming.values, numberAll, hv, hvs, unnumberedAll, Nat.add_assoc]

theorem numberEntries_value {next start : Serial} : ∀ entries : List (String × Value),
    (∀ k, next + k < (numberEntries next entries).2 → r.serial (next + k) = start + k) →
      numberEntries start (r.entriesOf entries) =
        (r.entriesOf (numberEntries next entries).1, start + unnumberedEntries entries)
  | [], _ => rfl
  | (k, v) :: rest, h => by
    have hv := number_value v fun k hk =>
      h k (Nat.lt_of_lt_of_le hk (le_numberEntries (v.number next).2 rest))
    have hrest := numberEntries_value rest (serials_add r (number_snd next v) h)
    simp only [Renaming.entriesOf, numberEntries, hv, hrest, unnumberedEntries, Nat.add_assoc]

end

end

section

variable {r s : Renaming}

mutual

/-- Renamings agree on what is numbered if they did before, and on the numbers that were given. -/
theorem number_agree {next : Serial} : ∀ v : Value,
    (∀ x < (v.number next).2, r.serial x = s.serial x) → r.value v = s.value v →
      r.value (v.number next).1 = s.value (v.number next).1
  | .list 0 items, h, hv => by
    have hnext := h next (le_numberAll (next + 1) items)
    have hitems := numberAll_agree items h (Value.list.inj hv).2
    simp only [number, Renaming.value, hnext, hitems]
  | .vector 0 items, h, hv => by
    have hnext := h next (le_numberAll (next + 1) items)
    have hitems := numberAll_agree items h (Value.vector.inj hv).2
    simp only [number, Renaming.value, hnext, hitems]
  | .map 0 entries, h, hv => by
    have hnext := h next (le_numberEntries (next + 1) entries)
    have hentries := numberEntries_agree entries h (Value.map.inj hv).2
    simp only [number, Renaming.value, hnext, hentries]
  | .list (_ + 1) _, _, hv | .vector (_ + 1) _, _, hv | .map (_ + 1) _, _, hv | .nil, _, hv
  | .bool _, _, hv | .int _, _, hv | .text _, _, hv | .symbol _, _, hv | .atom _, _, hv
  | .builtin _, _, hv | .closure .., _, hv => hv

theorem numberAll_agree {next : Serial} : ∀ vs : List Value,
    (∀ x < (numberAll next vs).2, r.serial x = s.serial x) → r.values vs = s.values vs →
      r.values (numberAll next vs).1 = s.values (numberAll next vs).1
  | [], _, _ => rfl
  | v :: vs, h, hvs => by
    obtain ⟨hv, hvs⟩ := List.cons.inj hvs
    have hfirst := number_agree v
      (fun x hx => h x (Nat.lt_of_lt_of_le hx (le_numberAll (v.number next).2 vs))) hv
    have hothers := numberAll_agree vs h hvs
    simp only [numberAll, Renaming.values, hfirst, hothers]

theorem numberEntries_agree {next : Serial} : ∀ entries : List (String × Value),
    (∀ x < (numberEntries next entries).2, r.serial x = s.serial x) →
      r.entriesOf entries = s.entriesOf entries →
        r.entriesOf (numberEntries next entries).1 = s.entriesOf (numberEntries next entries).1
  | [], _, _ => rfl
  | (k, v) :: rest, h, hrest => by
    obtain ⟨hv, hrest⟩ := List.cons.inj hrest
    have hfirst := number_agree v
      (fun x hx => h x (Nat.lt_of_lt_of_le hx (le_numberEntries (v.number next).2 rest)))
      (Prod.mk.inj hv).2
    have hothers := numberEntries_agree rest h hrest
    simp only [numberEntries, Renaming.entriesOf, hfirst, hothers]

end

end

end AtomLisp.Value
