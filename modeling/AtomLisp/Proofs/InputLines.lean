import AtomLisp.Run

/-! # The lines of an input

  What reading a line comes to, said without reading it: the input *is* characters without a line
  feed, then a line feed and the rest; or the last such characters; or it has ended; or a fault
  stands where the line feed should come.

  * `Input.Splits`: what stands first in an input, and what comes after it;
  * `Input.takeLine_eq_iff`: exactly this is read, and nothing else is left;
  * `Input.Reads`: several readings, one after another;
  * `Input.Holds`: the faults of an input. A text has none, and none is ever met in it;
    `Input.isText_ofBytes_iff` says which bytes are one;
  * `Run.ask_of_ok` and `Run.ask_of_error`: what comes of asking for a line.
-/

namespace AtomLisp

namespace Input

variable {i j k : Input} {cs : List Char} {rest : Input} {f : InputFault}

/-- What comes of reading: a line, the end of the input, or a fault. -/
abbrev Reading := Except InputFault (Option (List Char))

/-- What stands first in an input, and what comes after it. -/
inductive Splits : Input → Reading → Input → Prop
  /-- A line, which a line feed ends. -/
  | line (cs : List Char) (h : '\n' ∉ cs) (rest : Input) :
    Splits (ofChars cs (char '\n' rest)) (.ok (some cs)) rest
  /-- The last line, which nothing ends. -/
  | last (cs : List Char) (h : '\n' ∉ cs) (hne : cs ≠ []) :
    Splits (ofChars cs ended) (.ok (some cs)) ended
  | ended : Splits ended (.ok none) ended
  /-- The characters in front of the fault are no line, and they are lost with the piece. -/
  | fault (cs : List Char) (h : '\n' ∉ cs) (f : InputFault) (rest : Input) :
    Splits (ofChars cs (fault f rest)) (.error f) rest
  | broken (cs : List Char) (h : '\n' ∉ cs) (f : InputFault) :
    Splits (ofChars cs (broken f)) (.error f) (broken f)

/-! ### Reading -/

@[simp] theorem ofChars_nil (rest : Input) : ofChars [] rest = rest := rfl

@[simp] theorem ofChars_cons (c : Char) (cs : List Char) (rest : Input) :
    ofChars (c :: cs) rest = char c (ofChars cs rest) := rfl

theorem takeLine_char {c : Char} (hc : c ≠ '\n') (rest : Input) :
    (char c rest).takeLine =
      (rest.takeLine.1.map fun cs => some (c :: cs.getD []), rest.takeLine.2) := by
  simp only [takeLine, if_neg hc]

/-- A line with characters in front of it; these are a line even where none comes. -/
def withFront (cs : List Char) (line : Option (List Char)) : Option (List Char) :=
  if cs = [] then line else some (cs ++ line.getD [])

/-- Characters without a line feed stand in front of what is read behind them. -/
theorem takeLine_ofChars (h : '\n' ∉ cs) (rest : Input) :
    (ofChars cs rest).takeLine = (rest.takeLine.1.map (withFront cs), rest.takeLine.2) := by
  induction cs with
  | nil =>
    rw [ofChars_nil]
    obtain ⟨_ | line, left⟩ := rest.takeLine <;> rfl
  | cons c cs ih =>
    have hc : c ≠ '\n' := fun hc => h (hc ▸ List.mem_cons_self)
    rw [ofChars_cons, takeLine_char hc, ih fun hmem => h (List.mem_cons_of_mem c hmem)]
    obtain ⟨_ | line, left⟩ := rest.takeLine
    · rfl
    · by_cases hcs : cs = [] <;> simp [Except.map, withFront, hcs]

/-- What stands first is what is read. -/
theorem Splits.takeLine_eq {r : Reading} (h : i.Splits r j) : i.takeLine = (r, j) := by
  cases h with
  | line cs h rest =>
    rw [takeLine_ofChars h]
    by_cases hcs : cs = [] <;> simp [takeLine, Except.map, withFront, hcs]
  | last cs h hne =>
    rw [takeLine_ofChars h]
    simp [takeLine, Except.map, withFront, hne]
  | ended => rfl
  | fault cs h f rest =>
    rw [takeLine_ofChars h]
    rfl
  | broken cs h f =>
    rw [takeLine_ofChars h]
    rfl

/-- A character more in front of a line, of a last line, or of a fault. -/
theorem Splits.cons {c : Char} (hc : c ≠ '\n') {r : Reading} (h : i.Splits r j) :
    (char c i).Splits (r.map fun cs => some (c :: cs.getD [])) j := by
  have hmem : ∀ {cs : List Char}, '\n' ∉ cs → '\n' ∉ c :: cs := by
    intro cs hcs hmem
    rcases List.mem_cons.1 hmem with heq | hmem
    · exact hc heq.symm
    · exact hcs hmem
  cases h with
  | line cs h => exact .line (c :: cs) (hmem h) j
  | last cs h _ => exact .last (c :: cs) (hmem h) (List.cons_ne_nil c cs)
  | ended => exact .last [c] (hmem List.not_mem_nil) (List.cons_ne_nil c [])
  | fault cs h f => exact .fault (c :: cs) (hmem h) f j
  | broken cs h f => exact .broken (c :: cs) (hmem h) f

/-- Something stands first in every input, and it is what is read. -/
theorem splits_takeLine : ∀ i : Input, i.Splits i.takeLine.1 i.takeLine.2
  | ended => .ended
  | fault f rest => .fault [] List.not_mem_nil f rest
  | broken f => .broken [] List.not_mem_nil f
  | char c rest => by
    by_cases hc : c = '\n'
    · subst hc
      exact .line [] List.not_mem_nil rest
    · rw [takeLine_char hc]
      exact (splits_takeLine rest).cons hc

/-- **Exactly what stands first is read, and exactly what comes after it is left.** -/
theorem takeLine_eq_iff {r : Reading} : i.takeLine = (r, j) ↔ i.Splits r j := by
  refine ⟨fun h => ?_, Splits.takeLine_eq⟩
  have hsplits := splits_takeLine i
  rwa [h] at hsplits

/-- Only at the end of the input is there nothing to read. -/
theorem Splits.eq_ended (h : i.Splits (.ok none) j) : i = .ended := by
  cases h
  rfl

/-! ### Several readings -/

/-- Readings, one after another. -/
inductive Reads : Input → List Reading → Input → Prop
  | nil (i : Input) : Reads i [] i
  | cons {i j k : Input} {r : Reading} {rs : List Reading} (first : i.Splits r j)
    (later : Reads j rs k) : Reads i (r :: rs) k

theorem Splits.reads {r : Reading} (h : i.Splits r j) : i.Reads [r] j := .cons h (.nil j)

theorem Reads.append {rs ss : List Reading} (h : i.Reads rs j) (h' : j.Reads ss k) :
    i.Reads (rs ++ ss) k := by
  induction h with
  | nil i => exact h'
  | cons first _ ih => exact .cons first (ih h')

theorem size_ofChars (cs : List Char) (rest : Input) :
    (ofChars cs rest).size = cs.length + rest.size := by
  induction cs with
  | nil => simp
  | cons c cs ih =>
    simp only [ofChars_cons, size, ih, List.length_cons]
    omega

/-- Nothing comes back to the input. -/
theorem Splits.size_le {r : Reading} (h : i.Splits r j) : j.size ≤ i.size := by
  cases h <;> simp [size_ofChars, size] <;> omega

/-- A line takes at least one character. -/
theorem Splits.size_lt (h : i.Splits (.ok (some cs)) j) : j.size < i.size := by
  cases h with
  | line _ h rest =>
    simp only [size_ofChars, size]
    omega
  | last _ h hne =>
    have hpos := List.length_pos_iff.2 hne
    simp only [size_ofChars, size]
    omega

theorem Reads.size_le {rs : List Reading} (h : i.Reads rs j) : j.size ≤ i.size := by
  induction h with
  | nil i => exact Nat.le_refl _
  | cons first _ ih => exact Nat.le_trans ih first.size_le

/-! ### Faults -/

/-- A piece of the input has this fault. -/
def Holds (f : InputFault) : Input → Prop
  | ended => False
  | char _ rest => rest.Holds f
  | fault g rest => g = f ∨ rest.Holds f
  | broken g => g = f

/-- The input is a text. -/
def IsText (i : Input) : Prop := ∃ text, i = ofText text

theorem holds_ofChars {cs : List Char} : (ofChars cs rest).Holds f ↔ rest.Holds f := by
  induction cs with
  | nil => exact Iff.rfl
  | cons c cs ih => exact ih

/-- A text has no faults, and what has no faults is a text. -/
theorem isText_iff : i.IsText ↔ ∀ f, ¬ i.Holds f := by
  constructor
  · rintro ⟨text, rfl⟩ f
    rw [ofText, holds_ofChars]
    exact id
  · intro h
    induction i with
    | ended => exact ⟨"", rfl⟩
    | char c rest ih =>
      obtain ⟨text, rfl⟩ := ih h
      refine ⟨String.ofList (c :: text.toList), ?_⟩
      show char c (ofChars text.toList ended) = ofChars (String.ofList _).toList ended
      rw [String.toList_ofList]
      rfl
    | fault f rest => exact absurd (.inl rfl) (h f)
    | broken f => exact absurd rfl (h f)

/-- The input is a text where its bytes are one, and otherwise it is said that they are not. -/
theorem isText_ofBytes_iff (bytes : ByteArray) :
    (ofBytes bytes).IsText ↔ ∃ text : String, text.toUTF8 = bytes := by
  constructor
  · intro h
    cases htext : String.fromUTF8? bytes with
    | some text =>
      refine ⟨text, ?_⟩
      unfold String.fromUTF8? at htext
      split at htext
      · cases htext
        rfl
      · cases htext
    | none =>
      -- Both kinds of inputs that are no text have the fault.
      refine absurd ?_ (isText_iff.1 h .undecodable)
      unfold ofBytes
      rw [htext]
      cases textBeforeBegun? bytes with
      | some text => exact holds_ofChars.2 rfl
      | none => exact .inl rfl
  · rintro ⟨text, rfl⟩
    have htext : String.fromUTF8? text.toUTF8 = some text := dif_pos text.isValidUTF8
    exact ⟨text, by rw [ofBytes, htext]⟩

/-- A fault that is met was there. -/
theorem Splits.holds (h : i.Splits (.error f) j) : i.Holds f := by
  cases h with
  | fault cs _ _ rest => exact holds_ofChars.2 (.inl rfl)
  | broken cs _ _ => exact holds_ofChars.2 rfl

/-- A fault that is left was there. -/
theorem Splits.holds_of_holds {r : Reading} (h : i.Splits r j) (hj : j.Holds f) : i.Holds f := by
  cases h with
  | line cs _ _ => exact holds_ofChars.2 hj
  | last cs _ _ => exact holds_ofChars.2 hj
  | ended => exact hj
  | fault cs _ _ _ => exact holds_ofChars.2 (.inr hj)
  | broken cs _ _ => exact holds_ofChars.2 hj

theorem Reads.holds_of_holds {rs : List Reading} (h : i.Reads rs j) (hj : j.Holds f) :
    i.Holds f := by
  induction h with
  | nil i => exact hj
  | cons first _ ih => exact first.holds_of_holds (ih hj)

/-- What is left of a text is a text. -/
theorem Reads.isText {rs : List Reading} (h : i.Reads rs j) (hi : i.IsText) : j.IsText :=
  isText_iff.2 fun f hj => isText_iff.1 hi f (h.holds_of_holds hj)

/-- The lines of a text, one after another. -/
example : (ofText "a\n\nbc").Reads
    [.ok (some ['a']), .ok (some []), .ok (some ['b', 'c']), .ok none] ended :=
  .cons (.line ['a'] (by decide) _) (.cons (.line [] (by decide) _)
    (.cons (.last ['b', 'c'] (by decide) (by decide)) (.cons .ended (.nil _))))

end Input

namespace Run

variable {m : Machine} {rest : Input}

theorem ask_of_ok {line : Option (List Char)} (h : m.input.Splits (.ok line) rest)
    (prompt : String) :
    ask prompt m = .done (line.map String.ofList) { m.write prompt with input := rest } := by
  show takeLine (m.write prompt) = _
  have hline : (m.write prompt).input.takeLine = (.ok line, rest) := h.takeLine_eq
  rw [takeLine, hline]

/-- The prompt stays written, and what has been read is lost. -/
theorem ask_of_error {f : InputFault} (h : m.input.Splits (.error f) rest) (prompt : String) :
    ask prompt m = .failed (.badInput f) { m.write prompt with input := rest } := by
  show takeLine (m.write prompt) = _
  have hline : (m.write prompt).input.takeLine = (.error f, rest) := h.takeLine_eq
  rw [takeLine, hline]

end Run

end AtomLisp
