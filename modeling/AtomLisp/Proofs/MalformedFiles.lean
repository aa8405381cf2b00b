import AtomLisp.Proofs.LoadFile

/-! # Loading files that do not read

  `load-file` takes the first form of the wrapped text of a file. A file with a syntax error is
  refused with all its forms, unless its text completes the form of the wrapper
  (`Reader.Completes`): because it closes the wrapper's bracket, or because the `nil` of the wrapper
  is just what it lacks. Then `load-file` evaluates what the wrapper got, and does not see that
  anything is wrong.

  * `Reader.readAll_printText`: a keyword is wrapped as it is printed, which reads no better or
    worse;
  * `loadFile_malformed`: what a call does with a file that has a syntax error.
-/

namespace AtomLisp

/-! ### The text of a keyword -/

namespace Reader

/-- The mark of keywords starts a symbol. -/
theorem exists_word_mark (cs : List Char) : ∃ form, word (Keyword.mark :: cs) = .ok form := by
  refine exists_word fun hnumeral => ?_
  have hdigit : Text.isDigit Keyword.mark = false := by decide
  rw [Numeral.isNumeral] at hnumeral
  · simp [hdigit] at hnumeral
  · exact fun cs h => absurd (List.cons.inj h).1 (by decide)

/-- Whether a text reads is the same for the text as it is printed. A keyword is printed with a
colon in place of its mark, and in front of a text either one starts a word. -/
theorem readAll_printText (nesting : Nat) (s : String) :
    (readAll nesting (Value.printText false s)).2 = (readAll nesting s).2 := by
  cases hkeyword : Keyword.isKeyword s with
  | false => simp [Value.printText, hkeyword]
  | true =>
    obtain ⟨cs, hcs⟩ : ∃ cs, s.toList = Keyword.mark :: cs := by
      rw [Keyword.isKeyword_eq] at hkeyword
      cases htoList : s.toList with
      | nil => simp [htoList] at hkeyword
      | cons c cs =>
        have hc : c = Keyword.mark := by simpa [htoList] using hkeyword
        exact ⟨cs, by rw [hc]⟩
    have hprinted : (Value.printText false s).toList = ':' :: cs := by
      simp [Value.printText, hkeyword, Keyword.name, hcs]
    -- Only the first token is another one, and it is a word in both.
    let w := cs.takeWhile Token.isWordChar
    let others := Token.split (cs.dropWhile Token.isWordChar)
    have hmark : Token.split (Keyword.mark :: cs) =
        (.word (Keyword.mark :: w) :: others.1, others.2) :=
      Token.split_of_cons (List.dropWhile_cons_of_neg (by decide))
    have hcolon : Token.split (':' :: cs) = (.word (':' :: w) :: others.1, others.2) :=
      Token.split_of_cons (List.dropWhile_cons_of_neg (by decide))
    obtain ⟨form, hform⟩ := exists_word_mark w
    have htakes : Takes nesting [] (.word (Keyword.mark :: w)) ([], some form) := .word hform
    have htakes' : Takes nesting [] (.word (':' :: w)) ([], some _) := .word (word_keyword w)
    rw [readAll_of_toList hprinted, readAll_of_toList hcs, hmark, hcolon, run_of_takes htakes,
      run_of_takes htakes']
    rfl

end Reader

/-! ### The call -/

variable {m : Machine} {frame : FrameId} {path content : String} {nesting : Nat}

/-- The call fails as the reading of the wrapped text does. -/
theorem loadFile_of_error (hm : m.Unlimited) (hloads : m.LoadsFrom frame)
    (hcontent : Texts.contentOf m [.text path] = .ok (.value (.text content)))
    (hnesting : 0 < m.host.limits.nesting) {e : Error}
    (h : Reader.readFirst m.host.limits.nesting (wrapped (Value.printText false content)) =
      .error e) (serial : Serial) {r : Result Value} (hr : r.Ended) :
    (∃ fuel, evaluate fuel (.list serial [.symbol "load-file", .text path]) frame m = r) ↔
      r = .failed e (m.pushFrame (some Session.root) [("f", .text path)]) := by
  rw [evaluate_iff hm _ frame hr, hloads.complete_call hcontent hnesting, h]
  exact eq_comm

/-- The call evaluates the form that the wrapped text reads as. -/
theorem loadFile_of_ok (hm : m.Unlimited) (hloads : m.LoadsFrom frame)
    (hcontent : Texts.contentOf m [.text path] = .ok (.value (.text content)))
    (hnesting : 0 < m.host.limits.nesting) {form : Value}
    (h : Reader.readFirst m.host.limits.nesting (wrapped (Value.printText false content)) =
      .ok form) (serial : Serial) {r : Result Value} (hr : r.Ended) :
    (∃ fuel, evaluate fuel (.list serial [.symbol "load-file", .text path]) frame m = r) ↔
      ∃ fuel, (Run.number form >>= fun numbered => evaluate fuel numbered Session.root)
        (m.pushFrame (some Session.root) [("f", .text path)]) = r := by
  rw [evaluate_iff hm _ frame hr, hloads.complete_call hcontent hnesting, h]
  -- Giving the form its numbers does not lift the limit.
  exact (evaluate_iff (m := { m.pushFrame (some Session.root) [("f", .text path)] with
    nextSerial := (form.number m.nextSerial).2 }) hm _ Session.root hr).symm

/-- **A file with a syntax error is refused as a whole, unless its text completes the form of the
wrapper.** If it does not, then loading it ends in a syntax error, and all that is new is the frame
of the call: no form of the file has been evaluated. If it does, which only a closing bracket too
many, a quote mark at the end or stray separators at the end can bring about, then the forms that it
completes the wrapper with are evaluated one after another in the root frame, and the error of the
file goes unseen. (A text that starts with the mark of keywords is put into the wrapper as it is
printed.) -/
theorem loadFile_malformed (m : Machine) (frame : FrameId) (path content : String) (nesting : Nat)
    (fault : SyntaxFault) (hm : m.Unlimited) (hloads : m.LoadsFrom frame)
    (hcontent : Texts.contentOf m [.text path] = .ok (.value (.text content)))
    (hread : (Reader.readAll nesting content).2 = some (.malformed fault))
    (hnesting : nesting + 2 < m.host.limits.nesting) (serial : Serial) :
    let text := Value.printText false content
    let call : Nat → Result Value := fun fuel =>
      evaluate fuel (.list serial [.symbol "load-file", .text path]) frame m
    let inCall := m.pushFrame (some Session.root) [("f", .text path)]
    ((∀ forms, ¬ Reader.Completes nesting text forms) →
      ∃ fault', ∀ r : Result Value, r.Ended →
        ((∃ fuel, call fuel = r) ↔ r = .failed (.malformed fault') inCall)) ∧
    ∀ forms, Reader.Completes nesting text forms →
      Reader.Hidden fault ∧ ∀ r : Result Value, r.Ended →
        ((∃ fuel, call fuel = r) ↔ ∃ fuel, (do
          let form ← Run.number (.form (.symbol "do" :: forms))
          evaluate fuel form Session.root : Run Value) inCall = r) := by
  intro text call inCall
  have hpositive : 0 < m.host.limits.nesting := Nat.zero_lt_of_lt hnesting
  have htext : (Reader.readAll nesting text).2 = some (.malformed fault) :=
    (Reader.readAll_printText nesting content).trans hread
  constructor
  · intro hnot
    have hsyntax : Reader.SyntaxOnly (Reader.readAll nesting text).2 := by
      rw [htext]
      exact Reader.syntaxOnly_malformed fault
    obtain ⟨fault', hfault⟩ := Reader.readFirst_of_not_completes hnot hsyntax hnesting
    exact ⟨fault', fun r hr => loadFile_of_error hm hloads hcontent hpositive hfault serial hr⟩
  · intro forms hcompletes
    have hfirst := Reader.readFirst_of_completes hcompletes hnesting
    exact ⟨hcompletes.hidden htext,
      fun r hr => loadFile_of_ok hm hloads hcontent hpositive hfirst serial hr⟩

/-- A bracket that is open at the end of the file keeps what stands in front of it from being
evaluated. -/
theorem loadFile_unclosed :
    let content := "(println \"hi\") ("
    let m := Machine.withFile ⟨none, 99⟩ content
    (m.Unlimited ∧ m.LoadsFrom Session.root ∧
      Texts.contentOf m [.text "a.mal"] = .ok (.value (.text content)) ∧
      (Reader.readAll 9 content).2 = some (.malformed (.unclosed ')')) ∧
      ∀ forms, ¬ Reader.Completes 9 content forms) ∧
    ∃ fault fuel, evaluate fuel (.form [.symbol "load-file", .text "a.mal"]) Session.root m =
      .failed (.malformed fault) (m.pushFrame (some Session.root) [("f", .text "a.mal")]) := by
  intro content m
  have hm : m.Unlimited := rfl
  have hloads : m.LoadsFrom Session.root := Machine.loadsFrom_withFile _ _
  have hcontent : Texts.contentOf m [.text "a.mal"] = .ok (.value (.text content)) :=
    Machine.contentOf_withFile _ (by decide +kernel)
  have hread : (Reader.readAll 9 content).2 = some (.malformed (.unclosed ')')) := by
    decide +kernel
  have hprinted : Value.printText false content = content := by decide +kernel
  have hwrapped : Reader.readFirst 99 (wrapped content) =
      .error (.malformed (.unclosed ')')) := by decide +kernel
  have hnot : ∀ forms, ¬ Reader.Completes 9 content forms := by
    intro forms hcompletes
    have hfirst := Reader.readFirst_of_completes hcompletes (show 9 + 2 < 99 by decide)
    rw [hwrapped] at hfirst
    cases hfirst
  obtain ⟨hrefused, -⟩ := loadFile_malformed m Session.root "a.mal" content 9 (.unclosed ')') hm
    hloads hcontent hread (by decide) 0
  rw [hprinted] at hrefused
  obtain ⟨fault, hcall⟩ := hrefused hnot
  obtain ⟨fuel, hfuel⟩ := (hcall (.failed (.malformed fault) _) trivial).2 rfl
  exact ⟨⟨hm, hloads, hcontent, hread, hnot⟩, fault, fuel, hfuel⟩

/-- Loading a file and then looking at what it should not have defined: the error at the end of the
file is not reported, and what stands in front of it has been evaluated. -/
theorem loadFile_hidden :
    let look : Value := .form [.symbol "do", .form [.symbol "load-file", .text "a.mal"],
      .symbol "a"]
    let looks : String → Option Value := fun content =>
      (evaluate 30 look Session.root (Machine.withFile ⟨none, 99⟩ content)).value?
    ((Reader.readAll 9 "(def! a 5)) junk (((").2 =
        some (.malformed (.unexpectedCloser ')')) ∧
      looks "(def! a 5)) junk (((" = some (.int 5)) ∧
    ((Reader.readAll 9 "(def! a 5) '").2 = some (.malformed .endOfText) ∧
      looks "(def! a 5) '" = some (.int 5)) ∧
    (Reader.readAll 9 "(def! a 5)\u00a0").2 = some (.malformed (.strayBlank 10 '\u00a0')) ∧
      looks "(def! a 5)\u00a0" = some (.int 5) := by
  refine ⟨⟨?_, ?_⟩, ⟨?_, ?_⟩, ?_, ?_⟩
  all_goals decide +kernel

end AtomLisp
