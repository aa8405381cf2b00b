import AtomLisp.Proofs.Unbounded
import Mathlib.Algebra.BigOperators.Ring.List
import Mathlib.Algebra.Ring.Int.Defs
import Mathlib.Tactic.Ring

/-! # Division by several integers

  Dividing by one integer after another, and cutting off toward zero each time, is dividing by their
  product and cutting off once. What is cut off on the way never adds up to one more.

  * `IsQuotient`: what a quotient cut off toward zero is, and `IsQuotient.unique`: no other is;
  * `cutOff_eq`: the quotient has the sign of the product and the quotient of the magnitudes;
  * `cutOff_cutOff`: two divisors, `quotients_of_notMem`: all of them;
  * `call_div`: what a call of `/` answers.
-/

namespace AtomLisp.Arithmetic

open Builtin

/-! ### Quotients -/

/-- Of `a` divided by `b` the quotient is `q`: what is left is smaller than `b` and has the sign
of `a`, if anything is left. -/
def IsQuotient (a b q : Int) : Prop :=
  ∃ r, a = q * b + r ∧ r.natAbs < b.natAbs ∧ (r = 0 ∨ r.sign = a.sign)

/-- What is left by two quotients of the same integers differs by less than the divisor. -/
theorem natAbs_sub_lt {a r s : Int} {n : Nat} (hr : r.natAbs < n) (hs : s.natAbs < n)
    (hra : r = 0 ∨ r.sign = a.sign) (hsa : s = 0 ∨ s.sign = a.sign) : (r - s).natAbs < n := by
  rcases Int.lt_trichotomy a 0 with ha | rfl | ha
  · rw [Int.sign_eq_neg_one_of_neg ha, Int.sign_eq_neg_one_iff_neg] at hra hsa
    omega
  · rw [Int.sign_zero, Int.sign_eq_zero_iff_zero] at hra hsa
    omega
  · rw [Int.sign_eq_one_of_pos ha, Int.sign_eq_one_iff_pos] at hra hsa
    omega

theorem IsQuotient.unique {a b q q' : Int} (h : IsQuotient a b q) (h' : IsQuotient a b q') :
    q = q' := by
  obtain ⟨r, hr, hrb, hra⟩ := h
  obtain ⟨s, hs, hsb, hsa⟩ := h'
  have hdiff : (q' - q) * b = r - s := by
    have heq := hr.symm.trans hs
    rw [Int.sub_mul]
    omega
  -- A multiple of the divisor that is smaller than the divisor is zero.
  have hzero : (q' - q) * b = 0 := by
    refine Int.eq_zero_of_dvd_of_natAbs_lt_natAbs (Int.dvd_mul_left _ b) ?_
    rw [hdiff]
    exact natAbs_sub_lt hrb hsb hra hsa
  have hb : b ≠ 0 := by
    rintro rfl
    exact Nat.not_lt_zero _ hrb
  rcases Int.mul_eq_zero.1 hzero with hq | hb'
  · omega
  · exact absurd hb' hb

/-! ### One divisor -/

/-- Sign and magnitude of a quotient come from those of the two integers. -/
theorem cutOff_eq (a b : Int) :
    cutOff a b = a.sign * b.sign * (a.natAbs / b.natAbs : Nat) := by
  unfold cutOff
  rcases Int.lt_trichotomy a 0 with ha | rfl | ha
  · rcases Int.lt_trichotomy b 0 with hb | rfl | hb
    · simp [ha, hb, Int.sign_eq_neg_one_of_neg]
    · simp
    · simp [ha, Int.not_lt.2 (Int.le_of_lt hb), Int.sign_eq_neg_one_of_neg,
        Int.sign_eq_one_of_pos hb]
  · simp
  · have ha' : ¬ a < 0 := Int.not_lt.2 (Int.le_of_lt ha)
    rcases Int.lt_trichotomy b 0 with hb | rfl | hb
    · simp [ha', hb, Int.sign_eq_neg_one_of_neg, Int.sign_eq_one_of_pos ha]
    · simp
    · simp [ha', Int.not_lt.2 (Int.le_of_lt hb), Int.sign_eq_one_of_pos ha,
        Int.sign_eq_one_of_pos hb]

theorem natAbs_sign_le (a : Int) : a.sign.natAbs ≤ 1 := by
  rw [Int.natAbs_sign]
  split <;> omega

theorem sign_mul_self_eq_one {b : Int} (hb : b ≠ 0) : b.sign * b.sign = 1 := by
  rcases Int.lt_or_gt_of_ne hb with h | h
  · rw [Int.sign_eq_neg_one_of_neg h]
    rfl
  · rw [Int.sign_eq_one_of_pos h]
    rfl

/-- What is left of `a` is what is left of its magnitude, with the sign of `a`. -/
theorem isQuotient_cutOff (a : Int) {b : Int} (hb : b ≠ 0) : IsQuotient a b (cutOff a b) := by
  refine ⟨a.sign * (a.natAbs % b.natAbs : Nat), ?_, ?_, ?_⟩
  · have hdiv : ((b.natAbs : Int) * (a.natAbs / b.natAbs : Nat) + (a.natAbs % b.natAbs : Nat)) =
        a.natAbs := by exact_mod_cast Nat.div_add_mod a.natAbs b.natAbs
    calc a = a.sign * a.natAbs := (Int.sign_mul_natAbs a).symm
      _ = a.sign * ((b.sign * b.sign) * b.natAbs * (a.natAbs / b.natAbs : Nat) +
            (a.natAbs % b.natAbs : Nat)) := by rw [sign_mul_self_eq_one hb, one_mul, hdiv]
      _ = a.sign * b.sign * (a.natAbs / b.natAbs : Nat) * (b.sign * b.natAbs) +
            a.sign * (a.natAbs % b.natAbs : Nat) := by ring
      _ = cutOff a b * b + a.sign * (a.natAbs % b.natAbs : Nat) := by
          rw [cutOff_eq, Int.sign_mul_natAbs]
  · have hlt : a.natAbs % b.natAbs < b.natAbs := Nat.mod_lt _ (Int.natAbs_pos.2 hb)
    rw [Int.natAbs_mul, Int.natAbs_natCast]
    calc a.sign.natAbs * (a.natAbs % b.natAbs) ≤ 1 * (a.natAbs % b.natAbs) :=
          Nat.mul_le_mul_right _ (natAbs_sign_le a)
      _ < b.natAbs := by rwa [Nat.one_mul]
  · by_cases hleft : a.natAbs % b.natAbs = 0
    · exact .inl (by rw [hleft]; exact Int.mul_zero _)
    · right
      rw [Int.sign_mul, Int.sign_sign, Int.sign_natCast_of_ne_zero hleft, Int.mul_one]

/-! ### All divisors -/

/-- Dividing by two integers, one after the other, is dividing by their product. -/
theorem cutOff_cutOff (a b c : Int) : cutOff (cutOff a b) c = cutOff a (b * c) := by
  have hsign (n : Nat) : (n : Int).sign * (n / c.natAbs : Nat) = (n / c.natAbs : Nat) := by
    by_cases hn : n = 0
    · rw [hn, Nat.zero_div]
      rfl
    · rw [Int.sign_natCast_of_ne_zero hn, Int.one_mul]
  have hnatAbs : (cutOff a b).natAbs = a.natAbs / b.natAbs := by
    unfold cutOff
    split
    · exact Int.natAbs_natCast _
    · exact (Int.natAbs_neg _).trans (Int.natAbs_natCast _)
  -- The first quotient is zero, or its sign is the product of the signs.
  calc cutOff (cutOff a b) c
      = a.sign * b.sign * c.sign * (((a.natAbs / b.natAbs : Nat) : Int).sign *
          (a.natAbs / b.natAbs / c.natAbs : Nat)) := by
        rw [cutOff_eq (cutOff a b), hnatAbs, cutOff_eq a b, Int.sign_mul, Int.sign_mul,
          Int.sign_sign, Int.sign_sign]
        ring
    _ = a.sign * (b * c).sign * (a.natAbs / (b * c).natAbs : Nat) := by
        rw [hsign, Int.sign_mul, Int.natAbs_mul, Nat.div_div_eq_div_mul]
        ring
    _ = cutOff a (b * c) := (cutOff_eq a (b * c)).symm

/-- If no divisor is zero, the last quotient is that by the product. -/
theorem quotients_of_notMem {bs : List Int} (h : 0 ∉ bs) (a : Int) :
    ∃ q, bs.foldlM quotient a = .ok q ∧ IsQuotient a bs.prod q := by
  suffices hall : bs.foldlM quotient a = .ok (cutOff a bs.prod) by
    refine ⟨_, hall, isQuotient_cutOff a (List.prod_ne_zero h)⟩
  induction bs generalizing a with
  | nil =>
    have hone : cutOff a 1 = a := by
      rw [cutOff_eq, Int.sign_one, Int.mul_one, Int.natAbs_one, Nat.div_one, Int.sign_mul_natAbs]
    rw [List.foldlM_nil, List.prod_nil, hone]
    rfl
  | cons b bs ih =>
    rw [List.mem_cons, not_or] at h
    obtain ⟨hb, hbs⟩ := h
    rw [List.foldlM_cons, List.prod_cons, ← cutOff_cutOff, quotient, if_neg (Ne.symm hb)]
    exact ih hbs _

/-- Every divisor is looked at before it is used, so a zero among them is always found. -/
theorem quotients_of_mem {bs : List Int} (h : 0 ∈ bs) (a : Int) :
    bs.foldlM quotient a = .error .divisionByZero := by
  induction bs generalizing a with
  | nil => cases h
  | cons b bs ih =>
    rw [List.foldlM_cons]
    by_cases hb : b = 0
    · rw [quotient, if_pos hb]
      rfl
    · rw [quotient, if_neg hb]
      exact ih ((List.mem_cons.1 h).resolve_left (Ne.symm hb)) _

/-! ### Calls of `/` -/

theorem ints?_map_int (is : List Int) : ints? (is.map .int) = some is := by
  induction is with
  | nil => rfl
  | cons i is ih => rw [List.map_cons, ints?, ih, Option.map_some]

theorem answer_div (m : Machine) (a : Int) {bs : List Int} (h : bs ≠ []) :
    Query.div.answer m ((a :: bs).map .int) =
      (bs.foldlM quotient a).map fun q => .value (.int q) := by
  obtain ⟨b, others, rfl⟩ := List.exists_cons_of_ne_nil h
  show divide ((a :: b :: others).map .int) = _
  simp only [divide, operands, ints?_map_int]
  rfl

/-- **Repeated division is division by the product.** For every integer and one divisor or more, of
any size and sign, a call of `/`:

  * stops with "division by zero" if and only if a divisor is zero, whatever the quotient has become
    by then;
  * answers otherwise, and without changing anything, the one integer that is the quotient by the
    product of the divisors, cut off toward zero. -/
theorem call_div (c : Caller) (frame : FrameId) (m : Machine) (a : Int) (bs : List Int)
    (h : bs ≠ []) :
    let r := Builtin.call c frame ((a :: bs).map .int) (.query .div) m
    (r = .failed .divisionByZero m ↔ 0 ∈ bs) ∧
    Error.divisionByZero.message? = some "division by zero" ∧
    (0 ∉ bs → ∃ q, r = .done (.int q) m ∧ IsQuotient a bs.prod q ∧
      ∀ q', IsQuotient a bs.prod q' → q' = q) := by
  intro r
  have hr : r = (Run.read (Query.div.answer · ((a :: bs).map .int)) >>= Answer.make) m := rfl
  rw [Run.bind_apply, Run.read, answer_div m a h] at hr
  have hdone : 0 ∉ bs → ∃ q, r = .done (.int q) m ∧ IsQuotient a bs.prod q ∧
      ∀ q', IsQuotient a bs.prod q' → q' = q := by
    intro hnot
    obtain ⟨q, hq, hquotient⟩ := quotients_of_notMem hnot a
    rw [hq] at hr
    exact ⟨q, hr, hquotient, fun q' hq' => hq'.unique hquotient⟩
  refine ⟨⟨fun hfailed => ?_, fun hmem => ?_⟩, rfl, hdone⟩
  · refine Classical.by_contradiction fun hnot => ?_
    obtain ⟨q, hq, -⟩ := hdone hnot
    rw [hfailed] at hq
    cases hq
  · rw [quotients_of_mem hmem a] at hr
    exact hr

/-- `(/ -100 7 -3)` is 4, since -100 = 4 * -21 - 16; and `(/ 1 2 0)` has the quotient 0 when it
comes to the last divisor. -/
theorem call_div_signs :
    let c := outermost 0
    let m := Machine.bare
    [7, -3] ≠ ([] : List Int) ∧
      Builtin.call c 0 [.int (-100), .int 7, .int (-3)] (.query .div) m = .done (.int 4) m ∧
      Builtin.call c 0 [.int 1, .int 2, .int 0] (.query .div) m = .failed .divisionByZero m := by
  intro c m
  have hne : [7, -3] ≠ ([] : List Int) := by decide
  obtain ⟨q, hq, -, hunique⟩ := (call_div c 0 m (-100) [7, -3] hne).2.2 (by decide)
  obtain rfl : 4 = q := hunique 4 ⟨-16, by decide, by decide, by decide⟩
  exact ⟨hne, hq, (call_div c 0 m 1 [2, 0] (by decide)).1.2 (by decide)⟩

end AtomLisp.Arithmetic
