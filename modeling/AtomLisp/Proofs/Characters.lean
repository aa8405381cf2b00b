import AtomLisp.Proofs.DirectCalls
import AtomLisp.Proofs.MacroExpansion

/-! # Strings and their characters

  `seq` takes a string apart into its characters, each a text of its own, and `str` puts texts
  together again. Nothing is lost, but a text that is the mark of keywords and nothing else is a
  keyword, the one without a name, and `str` shows it as a colon.

  * `Sequences.characters`: the characters of a string as values;
  * `Sequences.elements_text`: what `seq` answers, `isString_character`: which of it are strings;
  * `Texts.printed_characters`: what `str` makes of characters;
  * `seq_then_str`: taking a string apart, and putting it together again.
-/

namespace AtomLisp

/-! ### Taking apart -/

namespace Sequences

/-- The characters of a text, each as a text. -/
def characters (s : String) : List Value := s.toList.map fun c => .text (String.singleton c)

/-- A string that is not empty is taken apart into its characters. -/
theorem elements_text {s : String} (hs : Keyword.isKeyword s = false) (hne : s ≠ "") :
    elements [.text s] = .ok (.list (characters s)) := by
  obtain ⟨c, cs, hcs⟩ := List.exists_cons_of_ne_nil (mt String.toList_eq_nil_iff.1 hne)
  have hcharacters : characters s =
      .text (String.singleton c) :: cs.map fun c => .text (String.singleton c) := by
    rw [characters, hcs, List.map_cons]
  have helements : elements [.text s] = .ok (elements.ofItems (characters s)) := by
    show (if Keyword.isKeyword s = true then _ else _) = _
    rw [hs]
    rfl
  rw [helements, hcharacters]
  rfl

theorem isKeyword_singleton (c : Char) :
    Keyword.isKeyword (String.singleton c) = (c == Keyword.mark) := by
  rw [Keyword.isKeyword_eq, String.toList_singleton]
  rfl

/-- A character by itself is a string, unless it is the mark of keywords. -/
theorem isString_character (c : Char) :
    (Value.text (String.singleton c)).isString = (c != Keyword.mark) := by
  rw [Value.isString, isKeyword_singleton]
  rfl

end Sequences

/-! ### Putting together -/

namespace Texts

/-- How `str` shows a character: the keyword without a name is a colon. -/
def shownChar (c : Char) : Char := if c = Keyword.mark then ':' else c

/-- The characters of a text, as `str` shows them. -/
def shown (s : String) : String := String.ofList (s.toList.map shownChar)

theorem shownChar_eq_iff (c : Char) : shownChar c = c ↔ c ≠ Keyword.mark := by
  unfold shownChar
  split
  · next hc =>
    subst hc
    exact ⟨fun h => absurd h (by decide), fun h => absurd rfl h⟩
  · next hc => exact ⟨fun _ => hc, fun _ => rfl⟩

/-- A text is shown as it is if the mark of keywords is not among its characters. -/
theorem shown_eq_iff (s : String) : shown s = s ↔ Keyword.mark ∉ s.toList := by
  have hchars : shown s = s ↔ s.toList.map shownChar = s.toList := by
    rw [← String.toList_inj, shown, String.toList_ofList]
  have hmap : s.toList.map shownChar = s.toList ↔ ∀ c ∈ s.toList, shownChar c = c := by
    have hid := List.map_inj_left (l := s.toList) (f := shownChar) (g := id)
    rwa [List.map_id] at hid
  rw [hchars, hmap]
  constructor
  · intro h hmark
    exact (shownChar_eq_iff _).1 (h _ hmark) rfl
  · intro h c hc
    exact (shownChar_eq_iff c).2 fun hmark => h (hmark ▸ hc)

theorem printText_singleton (c : Char) :
    Value.printText false (String.singleton c) = String.singleton (shownChar c) := by
  by_cases hc : c = Keyword.mark
  · subst hc
    decide +kernel
  · have hkeyword : Keyword.isKeyword (String.singleton c) = false := by
      rw [Sequences.isKeyword_singleton]
      exact beq_eq_false_iff_ne.2 hc
    rw [Value.printText, hkeyword, shownChar, if_neg hc]
    rfl

theorem intercalate_singletons (cs : List Char) :
    "".intercalate (cs.map String.singleton) = String.ofList cs := by
  rw [← String.toList_inj, String.toList_ofList]
  induction cs with
  | nil => rfl
  | cons c cs ih =>
    cases cs with
    | nil =>
      rw [List.map_singleton, String.intercalate_singleton, String.toList_singleton]
    | cons d cs =>
      rw [List.map_cons, List.map_cons, String.intercalate_cons_cons, String.toList_append,
        String.toList_append, String.toList_singleton]
      exact congrArg (c :: ·) ih

/-- Characters are put together to one text. -/
theorem printed_characters {m : Machine} (hnesting : 0 < m.host.limits.nesting) (s : String) :
    printed m false "" (Sequences.characters s) = .ok (.value (.text (shown s))) := by
  obtain ⟨n, hn⟩ : ∃ n, m.host.limits.nesting = n + 1 := Nat.exists_eq_add_of_le' hnesting
  have hparts : (Sequences.characters s).mapM (Value.print m.cells false (n + 1)) =
      .ok ((s.toList.map shownChar).map String.singleton) := by
    rw [Sequences.characters]
    induction s.toList with
    | nil => rfl
    | cons c cs ih =>
      rw [List.map_cons, List.mapM_cons, ih, Value.print, printText_singleton]
      rfl
  unfold printed Machine.printAll Value.printAll
  rw [hn, hparts]
  show Except.ok (Answer.value (.text ("".intercalate _))) = _
  rw [intercalate_singletons]
  rfl

end Texts

/-! ### There and back -/

namespace Caller

variable {m : Machine} {frame : FrameId} {s : String}

/-- What `seq` leaves: one serial number has been given. -/
theorem complete_seq (hseq : m.frames.lookup? "seq" frame = some (.builtin (.query .seq)))
    (hs : Keyword.isKeyword s = false) (hne : s ≠ "") (serial : Serial) :
    unbounded.complete (.list serial [.symbol "seq", .text s]) frame m =
      .done (.list m.nextSerial (Sequences.characters s))
        { m with nextSerial := m.nextSerial + 1 } := by
  have hargs : unbounded.values frame [.text s] m = .done [.text s] m :=
    values_cons (complete_text s) rfl
  rw [complete_query (by decide) hseq hargs]
  show (Run.ofExcept (Sequences.elements [.text s]) >>= Answer.make) m = _
  rw [Sequences.elements_text hs hne]
  rfl

/-- `apply` hands the characters over to `str`. -/
theorem complete_apply_str
    (happly : m.frames.lookup? "apply" frame = some (.builtin (.action .apply)))
    (hstr : m.frames.lookup? "str" frame = some (.builtin (.query .str)))
    {form : Value} {k : Serial} {n : Machine}
    (hform : unbounded.complete form frame m = .done (.list k (Sequences.characters s)) n)
    (hnesting : 0 < n.host.limits.nesting) (serial : Serial) :
    unbounded.complete (.list serial [.symbol "apply", .symbol "str", form]) frame m =
      .done (.text (Texts.shown s)) n := by
  have hargs : unbounded.values frame [.symbol "str", form] m =
      .done [.builtin (.query .str), .list k (Sequences.characters s)] n :=
    values_cons (complete_symbol hstr) (values_cons hform rfl)
  have hsplits : Splits [.list k (Sequences.characters s)] (Sequences.characters s) := .last rfl
  rw [complete_builtin (by decide) happly, Run.bind_apply, hargs]
  show Builtin.call unbounded frame (.builtin (.query .str) :: [_]) (.action .apply) n = _
  rw [call_apply unbounded rfl hsplits, call_builtin]
  exact Builtin.call_of_ok unbounded frame (q := .str) (Texts.printed_characters hnesting s)

end Caller

/-- **`seq` takes a string apart, and `str` puts it together again.** In a frame in which `seq`,
`apply` and `str` are the builtins, for every string that is not empty:

  * `(seq s)` is a list of its characters in order, each as a text of one character;
  * `string?` holds of each of them but for the mark of keywords, which is a keyword by itself;
  * `(apply str (seq s))` is the string with a colon for each mark, so it is the string again if and
    only if no mark is in it. -/
theorem seq_then_str (m : Machine) (frame : FrameId) (s : String) (hm : m.Unlimited)
    (hnesting : 0 < m.host.limits.nesting)
    (hseq : m.frames.lookup? "seq" frame = some (.builtin (.query .seq)))
    (happly : m.frames.lookup? "apply" frame = some (.builtin (.action .apply)))
    (hstr : m.frames.lookup? "str" frame = some (.builtin (.query .str)))
    (hs : (Value.text s).isString = true) (hne : s ≠ "") (serial serial' : Serial) :
    let apart : Value := .list serial [.symbol "seq", .text s]
    let after := { m with nextSerial := m.nextSerial + 1 }
    (∃ enough, ∀ fuel ≥ enough, evaluate fuel apart frame m =
      .done (.list m.nextSerial (s.toList.map fun c => .text (String.singleton c))) after) ∧
    (∀ (c : Char) (caller : Caller), Builtin.call caller frame [.text (String.singleton c)]
      (.query .isString) after = .done (.bool (c != Keyword.mark)) after) ∧
    (∃ enough, ∀ fuel ≥ enough, evaluate fuel
      (.list serial' [.symbol "apply", .symbol "str", apart]) frame m =
        .done (.text (String.ofList (s.toList.map fun c => if c = Keyword.mark then ':' else c)))
          after) ∧
    (String.ofList (s.toList.map fun c => if c = Keyword.mark then ':' else c) = s ↔
      Keyword.mark ∉ s.toList) := by
  intro apart after
  have hkeyword : Keyword.isKeyword s = false := by simpa [Value.isString] using hs
  have hapart := Caller.complete_seq hseq hkeyword hne serial
  have happlied := Caller.complete_apply_str happly hstr hapart hnesting serial'
  refine ⟨?_, ?_, ?_, Texts.shown_eq_iff s⟩
  · obtain ⟨fuel, hfuel⟩ := (evaluate_iff hm apart frame (r := .done _ _) trivial).2 hapart
    exact eventually_evaluate hm hfuel trivial
  · intro c caller
    rw [← Sequences.isString_character]
    rfl
  · obtain ⟨fuel, hfuel⟩ := (evaluate_iff hm _ frame (r := .done _ _) trivial).2 happlied
    exact eventually_evaluate hm hfuel trivial

/-- A line feed and a quote come through. -/
theorem seq_then_str_quote :
    let m := Machine.bare
    let s := "\n\"b"
    let apart : Value := .form [.symbol "seq", .text s]
    let after := { m with nextSerial := m.nextSerial + 1 }
    m.Unlimited ∧ 0 < m.host.limits.nesting ∧
      m.frames.lookup? "seq" Session.root = some (.builtin (.query .seq)) ∧
      m.frames.lookup? "apply" Session.root = some (.builtin (.action .apply)) ∧
      m.frames.lookup? "str" Session.root = some (.builtin (.query .str)) ∧
      (Value.text s).isString = true ∧ s ≠ "" ∧
      (∃ enough, ∀ fuel ≥ enough, evaluate fuel apart Session.root m =
        .done (.list m.nextSerial [.text "\n", .text "\"", .text "b"]) after) ∧
      ∃ enough, ∀ fuel ≥ enough, evaluate fuel
        (.form [.symbol "apply", .symbol "str", apart]) Session.root m = .done (.text s) after := by
  intro m s apart after
  have hseq : m.frames.lookup? "seq" Session.root = some (.builtin (.query .seq)) := by
    decide +kernel
  have happly : m.frames.lookup? "apply" Session.root = some (.builtin (.action .apply)) := by
    decide +kernel
  have hstr : m.frames.lookup? "str" Session.root = some (.builtin (.query .str)) := by
    decide +kernel
  have hstring : (Value.text s).isString = true := by decide +kernel
  have hne : s ≠ "" := by decide
  have hchars : s.toList = ['\n', '\"', 'b'] := by decide +kernel
  have hmark : Keyword.mark ∉ s.toList := by
    rw [hchars]
    decide
  obtain ⟨hapart, -, htogether, hsame⟩ :=
    seq_then_str m Session.root s rfl (by decide) hseq happly hstr hstring hne 0 0
  rw [hchars] at hapart
  rw [hsame.2 hmark] at htogether
  exact ⟨rfl, by decide, hseq, happly, hstr, hstring, hne, hapart, htogether⟩

/-- The last character of the string is the mark of keywords: it is no string when it is taken out,
and a colon when it is put back. -/
theorem seq_changed :
    let m := Machine.bare
    let s := "aʞ"
    let apart : Value := .form [.symbol "seq", .text s]
    let strings : Value := .form [.symbol "map", .symbol "string?", apart]
    let together : Value := .form [.symbol "apply", .symbol "str", apart]
    (Value.text s).isString = true ∧ s ≠ "" ∧
      (evaluate 9 apart Session.root m).value? = some (.list 1 [.text "a", .text "ʞ"]) ∧
      (evaluate 9 strings Session.root m).value? = some (.list 2 [.bool true, .bool false]) ∧
      (evaluate 9 together Session.root m).value? = some (.text "a:") ∧
      (evaluate 9 together Session.root m).value? ≠ some (.text s) := by
  intro m s apart strings together
  have htogether : (evaluate 9 together Session.root m).value? = some (.text "a:") := by
    decide +kernel
  refine ⟨by decide +kernel, by decide, by decide +kernel, by decide +kernel, htogether, ?_⟩
  rw [htogether]
  decide

end AtomLisp
