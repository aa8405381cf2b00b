import AtomLisp.Proofs.Reading.Grammar
import AtomLisp.Proofs.RoundTrip.Words
import Mathlib.Tactic.Tauto

/-! # What was read can be shown

  The message about a key that is no text shows the form that stands in its place. A form that was
  read can be shown, unless it is nested too deeply: an integer that has been read is not too long
  to be written.

  * `Numeral.natAbs_lt_of_read?`: an integer that is read has a text;
  * `Reader.exists_word`: a word is read, unless it is an integer with too many digits;
  * `Showable`: messages can show the value, and `showable_form?`: all forms are so.
-/

namespace AtomLisp

/-! ### Numerals that are not too long -/

namespace Numeral

theorem digitValue?_lt {c : Char} {d : Nat} (h : Text.digitValue? c = some d) : d < 10 := by
  unfold Text.digitValue? at h
  split at h
  · rename_i hrange
    have hle : c.toNat ≤ 57 := hrange.2
    cases h
    omega
  · split at h
    · cases h
    · obtain ⟨start, hstart, rfl⟩ := Option.map_eq_some_iff.1 h
      have hrange := List.find?_some hstart
      simp only [Bool.and_eq_true, decide_eq_true_eq] at hrange
      omega

/-- Every digit makes a number at most ten times as large. -/
theorem foldl_digits_lt {ds : List Nat} (h : ∀ d ∈ ds, d < 10) {n k : Nat}
    (hn : n < Nat.pow 10 k) : ds.foldl (fun n d => 10 * n + d) n < Nat.pow 10 (k + ds.length) := by
  induction ds generalizing n k with
  | nil => exact hn
  | cons d ds ih =>
    have hd := h d (List.mem_cons_self ..)
    have hnext : 10 * n + d < Nat.pow 10 (k + 1) := by
      show 10 * n + d < Nat.pow 10 k * 10
      omega
    have hrest := ih (fun d hd => h d (List.mem_cons_of_mem _ hd)) hnext
    rwa [Nat.add_right_comm, Nat.add_assoc] at hrest

theorem value_lt {cs : List Char} {k : Nat} (h : cs.length ≤ k) :
    value cs < Nat.pow 10 k := by
  have hdigits : ∀ d ∈ cs.filterMap Text.digitValue?, d < 10 := by
    intro d hd
    obtain ⟨c, -, hc⟩ := List.mem_filterMap.1 hd
    exact digitValue?_lt hc
  have hzero : 0 < Nat.pow 10 0 := Nat.one_pos
  have hvalue := foldl_digits_lt hdigits hzero
  rw [Nat.zero_add] at hvalue
  exact Nat.lt_of_lt_of_le hvalue
    (Nat.pow_le_pow_right (by decide) (Nat.le_trans (List.length_filterMap_le ..) h))

/-- An integer that is read has a text. -/
theorem natAbs_lt_of_read? {cs : List Char} {i : Int} (h : read? cs = some i) :
    i.natAbs < bound := by
  unfold bound
  unfold read? at h
  split at h
  · split at h
    · cases h
      rw [Int.natAbs_neg]
      exact value_lt ‹_›
    · cases h
  · split at h
    · cases h
      exact value_lt ‹_›
    · cases h

/-- A numeral is read if it has not too many digits. -/
theorem exists_read? {cs : List Char} (hcs : isNumeral cs = true)
    (hlength : (cs.filter Text.isDigit).length ≤ maxDigits) :
    ∃ i, read? cs = some i := by
  unfold isNumeral at hcs
  split at hcs
  · rename_i ds
    have hall : ds.all Text.isDigit = true := (Bool.and_eq_true_iff.1 hcs).2
    have hminus : Text.isDigit '-' = false := by decide
    rw [List.filter_cons_of_neg (by simp [hminus]),
      List.filter_eq_self.2 (List.all_eq_true.1 hall)] at hlength
    exact ⟨_, if_pos hlength⟩
  · have hall : cs.all Text.isDigit = true := (Bool.and_eq_true_iff.1 hcs).2
    rw [List.filter_eq_self.2 (List.all_eq_true.1 hall)] at hlength
    refine ⟨value cs, ?_⟩
    rw [read?, if_pos hlength]
    assumption

end Numeral

/-- The token is no integer with too many digits. -/
def Token.IsShort : Token → Prop
  | .word cs =>
    Numeral.isNumeral cs = true → (cs.filter Text.isDigit).length ≤ Numeral.maxDigits
  | _ => True

instance : DecidablePred Token.IsShort
  | .word cs =>
    inferInstanceAs (Decidable (Numeral.isNumeral cs = true →
      (cs.filter Text.isDigit).length ≤ Numeral.maxDigits))
  | .mark _ | .opener _ | .closer _ | .text _ => inferInstanceAs (Decidable True)

/-- A word is read, unless it is a numeral with too many digits. -/
theorem Reader.exists_word {cs : List Char} (h : (Token.word cs).IsShort) :
    ∃ form, word cs = .ok form := by
  unfold word
  split
  · rename_i hcs
    obtain ⟨i, hi⟩ := Numeral.exists_read? hcs (h hcs)
    exact ⟨.int i, by rw [hi]⟩
  · split
    · exact ⟨_, rfl⟩
    · exact ⟨_, rfl⟩
    · exact ⟨_, rfl⟩
    · split <;> exact ⟨_, rfl⟩

/-! ### Values in messages -/

/-- What is joined from parts has an error if one of the parts has it. -/
theorem error_of_parts {ε α β γ : Type} {f : α → Except ε β} {join : List β → γ} {xs : List α}
    {e : ε} (h : (do return join (← xs.mapM f)) = Except.error e) : ∃ x ∈ xs, f x = .error e := by
  rcases error_of_bind h with hparts | ⟨parts, -, hok⟩
  · clear h
    induction xs with
    | nil => cases hparts
    | cons x xs ih =>
      rw [List.mapM_cons] at hparts
      rcases error_of_bind hparts with hx | ⟨y, -, hrest⟩
      · exact ⟨x, List.mem_cons_self .., hx⟩
      · rcases error_of_bind hrest with hxs | ⟨ys, -, hok⟩
        · obtain ⟨x', hmem, hx'⟩ := ih hxs
          exact ⟨x', List.mem_cons_of_mem _ hmem, hx'⟩
        · cases hok
  · cases hok

/-- A message can show the value, unless its parts are nested too deeply. -/
def Showable (v : Value) : Prop :=
  ∀ (steps : Nat) (around : List Value) (e : Error),
    v.inspectWithin #[] steps around = .error e → e = .tooDeep

theorem Showable.sequence {v : Value} {items : List Value} (hv : v.items? = some items)
    (h : ∀ item ∈ items, Showable item) : Showable v := by
  intro steps around e he
  cases v with
  | list serial _ | vector serial _ =>
    cases hv
    match steps, he with
    | 0, he | 1, he | 2, he =>
      cases he
      rfl
    | steps + 3, he =>
      obtain ⟨item, hitem, herror⟩ := error_of_parts he
      exact h item hitem _ _ _ herror
  | _ => cases hv

theorem Showable.map {entries : Entries Value} (h : ∀ v ∈ Entries.vals entries, Showable v)
    (serial : Serial) : Showable (.map serial entries) := by
  intro steps around e he
  match steps, he with
  | 0, he =>
    cases he
    rfl
  | steps + 1, he =>
    rw [Value.inspectWithin] at he
    split at he
    · cases he
    · obtain ⟨entry, hentry, herror⟩ := error_of_parts he
      rcases error_of_bind herror with hvalue | ⟨shown, -, hok⟩
      · exact h entry.2 (List.mem_map_of_mem hentry) _ _ _ hvalue
      · cases hok

/-- A value without parts is shown in one step. -/
theorem Showable.leaf {v : Value}
    (h : ∀ steps around, ∃ shown, v.inspectWithin #[] (steps + 1) around = .ok shown) :
    Showable v := by
  intro steps around e he
  match steps, he with
  | 0, he =>
    cases he
    rfl
  | steps + 1, he =>
    obtain ⟨shown, hshown⟩ := h steps around
    rw [hshown] at he
    cases he

theorem Showable.int {i : Int} (h : i.natAbs < Numeral.bound) : Showable (.int i) :=
  .leaf fun _ _ => ⟨toString i, Numeral.write_eq h⟩

/-! ### Forms in messages -/

namespace Entries

variable {α : Type}

theorem mem_vals_insert {key : String} {value v : α} {entries : Entries α}
    (h : v ∈ vals (insert key value entries)) :
    v = value ∨ v ∈ vals entries := by
  induction entries with
  | nil => simpa [insert, vals] using h
  | cons entry rest ih =>
    obtain ⟨k, w⟩ := entry
    by_cases hk : k = key
    · simp only [insert, if_pos hk, vals, List.map_cons, List.mem_cons] at h ⊢
      tauto
    · simp only [insert, if_neg hk, vals, List.map_cons, List.mem_cons] at h ih ⊢
      tauto

theorem mem_vals_insertAll {pairs : Entries α} {v : α} {entries : Entries α}
    (h : v ∈ vals (insertAll entries pairs)) :
    v ∈ vals pairs ∨ v ∈ vals entries := by
  induction pairs generalizing entries with
  | nil => exact .inr h
  | cons pair pairs ih =>
    rcases ih h with hpairs | hentries
    · exact .inl (List.mem_cons_of_mem _ hpairs)
    · rcases mem_vals_insert hentries with rfl | hold
      · exact .inl (List.mem_cons_self ..)
      · exact .inr hold

end Entries

namespace Derivation

theorem showable_of_word {cs : List Char} {form : Value} (h : Reader.word cs = .ok form) :
    Showable form := by
  unfold Reader.word at h
  split at h
  · split at h
    · cases h
      exact .int (Numeral.natAbs_lt_of_read? ‹_›)
    · cases h
  · split at h
    · cases h
      exact .leaf fun _ _ => ⟨_, rfl⟩
    · cases h
      exact .leaf fun _ _ => ⟨_, rfl⟩
    · cases h
      exact .leaf fun _ _ => ⟨_, rfl⟩
    · split at h
      · cases h
        exact .leaf fun _ _ => ⟨_, rfl⟩
      · cases h
        exact .leaf fun _ _ => ⟨_, rfl⟩

theorem mem_of_mem_vals_pairs? {items : List Value} {entries : Entries Value}
    (h : pairs? items = some entries) {v : Value} (hv : v ∈ Entries.vals entries) : v ∈ items := by
  fun_induction pairs? items generalizing entries with
  | case1 =>
    cases h
    cases hv
  | case2 k w rest ih =>
    obtain ⟨others, hothers, rfl⟩ := Option.map_eq_some_iff.1 h
    rcases List.mem_cons.1 hv with rfl | hv
    · simp
    · simp [ih hothers hv]
  | case3 => cases h

theorem showable_enclosed? {items : List Value} (h : ∀ item ∈ items, Showable item) {b : Bracket}
    {form : Value} (hform : enclosed? items b = some form) : Showable form := by
  cases b with
  | round | square =>
    cases hform
    exact .sequence rfl h
  | curly =>
    obtain ⟨entries, hentries, rfl⟩ := Option.map_eq_some_iff.1 hform
    refine .map (fun v hv => ?_) 0
    rcases Entries.mem_vals_insertAll hv with hv | hv
    · exact h v (mem_of_mem_vals_pairs? hentries hv)
    · cases hv

mutual

theorem showable_form? : ∀ {d : Derivation} {form : Value}, d.form? = some form → Showable form
  | .word cs, form, h => by
    rw [form?] at h
    cases hcs : Reader.word cs with
    | error e =>
      rw [hcs] at h
      cases h
    | ok v =>
      rw [hcs] at h
      cases h
      exact showable_of_word hcs
  | .text body, form, h => by
    rw [form?, Reader.literal?_eq] at h
    obtain ⟨s, -, rfl⟩ := Option.map_eq_some_iff.1 h
    exact .leaf fun _ _ => ⟨_, rfl⟩
  | .marked m inner, form, h => by
    obtain ⟨v, hv, rfl⟩ := Option.map_eq_some_iff.1 h
    have hitems : ∀ item ∈ [.symbol m.symbol, v], Showable item := by
      intro item hitem
      rcases List.mem_pair.1 hitem with rfl | rfl
      · exact .leaf fun _ _ => ⟨_, rfl⟩
      · exact showable_form? hv
    exact .sequence rfl hitems
  | .bracketed b inners, form, h => by
    obtain ⟨vs, hvs, hform⟩ := Option.bind_eq_some_iff.1 h
    exact showable_enclosed? (showable_forms? hvs) hform

theorem showable_forms? : ∀ {ds : List Derivation} {forms : List Value}, forms? ds = some forms →
    ∀ form ∈ forms, Showable form
  | [], forms, h, form, hform => by
    cases h
    cases hform
  | d :: ds, forms, h, form, hform => by
    obtain ⟨first, rest, hfirst, hrest, rfl⟩ := forms?_cons h
    rcases List.mem_cons.1 hform with rfl | hform
    · exact showable_form? hfirst
    · exact showable_forms? hrest form hform

end

end Derivation

end AtomLisp
