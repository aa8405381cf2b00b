import AtomLisp.Proofs.RoundTrip.Lexing
import AtomLisp.Reader
import AtomLisp.Value.Printer

/-! # What written words stand for

  The texts of integers, constants, keywords and symbols are words, and the reader takes each of
  them for what it was written for.
-/

namespace AtomLisp

/-! ### Numerals -/

namespace Numeral

theorem digitValue?_eq {c : Char} (h : c.isDigit = true) :
    Text.digitValue? c = some (c.toNat - '0'.toNat) := by
  have hrange : '0' ≤ c ∧ c ≤ '9' := by
    simp only [Char.isDigit, Bool.and_eq_true, decide_eq_true_eq] at h
    exact h
  simp only [Text.digitValue?, if_pos hrange]
  rfl

/-- A run of plain digits stands for the number that they spell. -/
theorem value_eq_ofDigitChars {cs : List Char} (h : ∀ c ∈ cs, c.isDigit = true) :
    value cs = Nat.ofDigitChars 10 cs 0 := by
  have hdigits : cs.filterMap Text.digitValue? = cs.map fun c => c.toNat - '0'.toNat := by
    rw [← List.filterMap_eq_map]
    exact List.filterMap_congr fun c hc => digitValue?_eq (h c hc)
  rw [value, hdigits, List.foldl_map, Nat.ofDigitChars_eq_foldl]

theorem isDigit_toDigits (n : Nat) : ∀ c ∈ Nat.toDigits 10 n, c.isDigit = true :=
  fun _ hc => Nat.isDigit_of_mem_toDigits (by decide) (by decide) hc

theorem value_toDigits (n : Nat) : value (Nat.toDigits 10 n) = n := by
  rw [value_eq_ofDigitChars (isDigit_toDigits n), Nat.ofDigitChars_ten_toDigits]

theorem all_isDigit_toDigits (n : Nat) : (Nat.toDigits 10 n).all Text.isDigit = true := by
  rw [List.all_eq_true]
  intro c hc
  rw [Text.isDigit, digitValue?_eq (isDigit_toDigits n c hc)]
  rfl

theorem length_toDigits_le {n : Nat} (h : n < bound) :
    (Nat.toDigits 10 n).length ≤ maxDigits := by
  -- The power is far too large to be computed.
  have hlength : ∀ k, 0 < k → n < Nat.pow 10 k → (Nat.toDigits 10 n).length ≤ k :=
    fun k hk => (Nat.length_toDigits_le_iff (by decide) hk).2
  unfold bound at h
  exact hlength maxDigits (by decide) h

/-- The text of an integer is a run of digits, after a minus sign or not. -/
theorem toList_toString (i : Int) :
    (toString i).toList = Nat.toDigits 10 i.natAbs ∧ i = i.natAbs ∨
      (toString i).toList = '-' :: Nat.toDigits 10 i.natAbs ∧ i = -(i.natAbs : Int) := by
  cases i with
  | ofNat n => exact .inl ⟨Nat.toList_repr, rfl⟩
  | negSucc n =>
    refine .inr ⟨?_, rfl⟩
    show ("-" ++ Nat.repr (n + 1)).toList = _
    rw [String.toList_append, Nat.toList_repr]
    rfl

/-- Digits do not start with a minus sign. -/
theorem toDigits_ne_minus (n : Nat) (cs : List Char) : Nat.toDigits 10 n ≠ '-' :: cs := by
  intro h
  have := isDigit_toDigits n '-' (by simp [h])
  exact absurd this (by decide)

/-- An integer that is not too long is written. -/
theorem write_eq {i : Int} (h : i.natAbs < bound) : write i = .ok (toString i) := by
  have hwrite : write? i = some (toString i) := if_pos h
  unfold write
  simp only [hwrite]

/-- What is written is a numeral. -/
theorem isNumeral_toString (i : Int) : isNumeral (toString i).toList = true := by
  have hdigits := all_isDigit_toDigits i.natAbs
  have hne : (Nat.toDigits 10 i.natAbs).isEmpty = false := by simp
  rcases toList_toString i with ⟨h, -⟩ | ⟨h, -⟩
  · rw [h, isNumeral]
    · simp [hdigits, hne]
    · exact fun cs => toDigits_ne_minus _ cs
  · rw [h, isNumeral]
    simp [hdigits, hne]

/-- What is written reads back. -/
theorem read?_toString {i : Int} (h : i.natAbs < bound) : read? (toString i).toList = some i := by
  have hlength := length_toDigits_le h
  rcases toList_toString i with ⟨heq, hi⟩ | ⟨heq, hi⟩
  · rw [heq, read?, if_pos hlength, value_toDigits, ← hi]
    -- No digit is a minus sign, so all of the text is digits.
    exact fun cs => toDigits_ne_minus _ cs
  · rw [heq, read?, if_pos hlength, value_toDigits, ← hi]

/-- A digit is neither a blank nor a delimiter. -/
theorem isWordChar_of_isDigit {c : Char} (h : c.isDigit = true) : Token.isWordChar c = true := by
  have hrange : 48 ≤ c.toNat ∧ c.toNat ≤ 57 := by
    simp only [Char.isDigit, Bool.and_eq_true, decide_eq_true_eq] at h
    exact h
  have hblank : Text.isBlank c = false := by
    simp [Text.isBlank]
    omega
  have hne : ∀ d : Char, d.isDigit = false → (c == d) = false := by
    intro d hd
    rw [beq_eq_false_iff_ne]
    rintro rfl
    rw [h] at hd
    cases hd
  simp [Token.isWordChar, Token.isSeparator, Token.isDelimiter, hblank, hne]

theorem isWord_toString (i : Int) : Token.IsWord (toString i).toList := by
  have hchars : ∀ c ∈ Nat.toDigits 10 i.natAbs, Token.isWordChar c = true := fun c hc =>
    isWordChar_of_isDigit (isDigit_toDigits _ c hc)
  rcases toList_toString i with ⟨h, -⟩ | ⟨h, -⟩
  · rw [h]
    refine ⟨Nat.toDigits_ne_nil, hchars, ?_⟩
    intro c hc
    have hdigit := isDigit_toDigits _ c (List.mem_of_mem_head? hc)
    constructor
    all_goals
      rintro rfl
      exact absurd hdigit (by decide)
  · rw [h]
    exact Token.isWord_cons (by decide) (by decide) (List.all_eq_true.2 hchars)

end Numeral

/-! ### Names -/

/-- The name of a symbol that a text can hold: a word that is nothing else. -/
structure IsSymbolName (name : String) : Prop where
  word        : Token.IsWord name.toList
  no_keyword  : name.toList.head? ≠ some ':'
  no_numeral  : Numeral.isNumeral name.toList = false
  no_constant : name ≠ "nil" ∧ name ≠ "true" ∧ name ≠ "false"

namespace Reader

theorem word_toString {i : Int} (h : i.natAbs < Numeral.bound) :
    word (toString i).toList = .ok (.int i) := by
  rw [word, if_pos (Numeral.isNumeral_toString i), Numeral.read?_toString h]

theorem word_symbol {name : String} (h : IsSymbolName name) :
    word name.toList = .ok (.symbol name) := by
  rw [word, if_neg (by simp [h.no_numeral]), String.ofList_toList]
  split
  · exact absurd rfl h.no_constant.1
  · exact absurd rfl h.no_constant.2.1
  · exact absurd rfl h.no_constant.2.2
  · split
    · rename_i heq
      exact absurd (by rw [heq]; rfl) h.no_keyword
    · rfl

theorem word_keyword (name : List Char) :
    word (':' :: name) = .ok (.text (Keyword.ofName (String.ofList name))) := by
  have hnumeral : Numeral.isNumeral (':' :: name) = false := by
    rw [Numeral.isNumeral]
    · simp [show Text.isDigit ':' = false by decide]
    · exact fun cs h => absurd (List.cons.inj h).1 (by decide)
  -- None of the constants starts with a colon.
  have hconstant : ∀ s : String, s.toList.head? ≠ some ':' → String.ofList (':' :: name) ≠ s := by
    rintro s hs rfl
    simp at hs
  rw [word, if_neg (by simp [hnumeral])]
  split
  · exact absurd ‹_› (hconstant "nil" (by decide))
  · exact absurd ‹_› (hconstant "true" (by decide))
  · exact absurd ‹_› (hconstant "false" (by decide))
  · rfl

end Reader

end AtomLisp
