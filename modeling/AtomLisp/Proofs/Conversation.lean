import AtomLisp.Proofs.Conduct
import AtomLisp.Proofs.Unbounded
import Mathlib.Logic.Relation

/-! # The conversation

  Line by line the loop writes a prompt, takes a line of the input, and answers it with the printed
  value or with what is said about the error. Each round starts from the machine that the last one
  left: with all that was defined and written so far, also by a line that failed, and with the
  lines that no program has taken from the input.

  * `Session.Takes`: the prompt is written, and the line that stands first in the input is taken;
  * `Session.Round`: one round, and `Session.Stop`: how the loop ends where there is none;
  * `Session.Round.precedes`: a round takes a line and loses nothing;
  * `Session.loop_iff`: the loop does one round after another until it stops.
-/

namespace AtomLisp.Session

open Relation

variable {fuel : Nat} {m n o : Machine} {line : String} {e : Error}

/-! ### Rounds -/

/-- The prompt is written, and the first line of the input is taken; nothing else has changed. -/
structure Takes (m : Machine) (line : String) (n : Machine) : Prop where
  /-- The input is the characters of the line up to a line feed, or up to its end, and then what is
  left. -/
  splits : m.input.Splits (.ok (some line.toList)) n.input
  same   : n = { m.write "user> " with input := n.input }

/-- The line that is taken is more than blanks. -/
structure Asks (m : Machine) (line : String) (n : Machine) : Prop extends Takes m line n where
  blank : ¬ line.toList.all Text.isBlank

/-- One round of the loop. -/
inductive Round (fuel : Nat) (m : Machine) : Machine → Prop
  /-- A blank line has no answer. -/
  | blank {line : String} {n : Machine} (takes : Takes m line n)
    (hblank : line.toList.all Text.isBlank) : Round fuel m n
  /-- The value of a line is printed. -/
  | value {line text : String} {n o : Machine} (asks : Asks m line n)
    (hrep : rep fuel line n = .done text o) : Round fuel m (o.write (text ++ "\n"))
  /-- An error that can be caught is described; what the line did before stays done. -/
  | error {line text : String} {n o : Machine} {e : Error} (asks : Asks m line n)
    (hrep : rep fuel line n = .failed e o) (he : ¬ e.isFatal)
    (htext : describe e o = .done text o) : Round fuel m (o.write s!"Error: {text}\n")

/-- A line ends the loop with an error. -/
inductive Breaks (fuel : Nat) (line : String) (n : Machine) : Error → Machine → Prop
  /-- An error that cannot be caught ends the loop. -/
  | fatal {e : Error} {o : Machine} (hrep : rep fuel line n = .failed e o) (he : e.isFatal) :
    Breaks fuel line n e o
  /-- A thrown value is nested too deeply to be described. -/
  | indescribable {v : Value} {o : Machine} (hrep : rep fuel line n = .failed (.thrown v) o)
    (hprint : o.print true v = .error .tooDeep) : Breaks fuel line n .tooDeep o

/-- How the loop ends where there is no further round. -/
inductive Stop (fuel : Nat) (m : Machine) : Result Unit → Prop
  | atEnd (h : m.input = .ended) : Stop fuel m (.done () ((m.write "user> ").write "\n"))
  | broken {line : String} {n o : Machine} {e : Error} (asks : Asks m line n)
    (breaks : Breaks fuel line n e o) : Stop fuel m (.failed e o)
  /-- The next line of the input cannot be read. -/
  | fault {f : InputFault} {rest : Input} (splits : m.input.Splits (.error f) rest) :
    Stop fuel m (.failed (.badInput f) { m.write "user> " with input := rest })
  | unfinished {line : String} {n : Machine} (asks : Asks m line n)
    (hrep : rep fuel line n = .unfinished) : Stop fuel m .unfinished

/-! ### What is said about errors -/

/-- What can be caught is described, unless it is a value that is nested too deeply. -/
theorem describe_cases (hn : m.AccountFor n e) (he : ¬ e.isFatal) :
    (∃ text, describe e n = .done text n) ∨
      ∃ v, e = .thrown v ∧ n.print true v = .error .tooDeep ∧
        describe e n = .failed .tooDeep n := by
  cases e with
  | thrown v =>
    cases hprint : n.print true v with
    | ok text => exact .inl ⟨text, by simp only [describe, Run.read, hprint]⟩
    | error e =>
      -- The value could be inspected when it was thrown, so all its integers have a text.
      obtain ⟨shown, hshown⟩ := hn
      obtain rfl : e = .tooDeep := Value.print_error_of_inspect hshown hprint
      exact .inr ⟨v, rfl, hprint, by simp only [describe, Run.read, hprint]⟩
  | numeralTooLong | nulInPath | undecodable | badInput | preludeUnreadable =>
    exact absurd rfl he
  | _ => exact .inl ⟨_, rfl⟩

/-! ### Single rounds -/

theorem Takes.ask_eq (h : Takes m line n) : Run.ask "user> " m = .done (some line) n := by
  have hask := Run.ask_of_ok h.splits "user> "
  rw [← h.same] at hask
  simpa using hask

theorem loopLines_of_asks (asks : Asks m line n) (lines : Nat) :
    loopLines fuel (lines + 1) m = (do answerLine fuel line; loopLines fuel lines) n := by
  simp only [loopLines, Run.bind_apply, asks.ask_eq, if_neg asks.blank]

theorem answerLine_of_done {text : String} (hrep : rep fuel line n = .done text o) :
    answerLine fuel line n = .done () (o.write (text ++ "\n")) := by
  simp only [answerLine, Run.bind_apply, Run.attempt, hrep]
  rfl

theorem answerLine_of_failed (hrep : rep fuel line n = .failed e o) (he : ¬ e.isFatal) :
    answerLine fuel line n = (do
      let text ← describe e
      Run.modify (·.write s!"Error: {text}\n")) o := by
  simp only [answerLine, Run.bind_apply, Run.attempt, hrep, if_neg he]

theorem Breaks.answerLine_eq (h : Breaks fuel line n e o) :
    answerLine fuel line n = .failed e o := by
  cases h with
  | fatal hrep he =>
    simp only [answerLine, Run.bind_apply, Run.attempt, hrep, if_pos he, Run.fail]
  | @indescribable v _ hrep hprint =>
    have hcaught : ¬ (Error.thrown v).isFatal := Bool.false_ne_true
    have htext : describe (.thrown v) o = .failed .tooDeep o := by
      simp only [describe, Run.read, hprint]
    rw [answerLine_of_failed hrep hcaught, Run.bind_apply, htext]

/-- A round brings the loop to the machine that the next one starts from. -/
theorem Round.loopLines_eq (h : Round fuel m n) (lines : Nat) :
    loopLines fuel (lines + 1) m = loopLines fuel lines n := by
  cases h with
  | blank takes hblank => simp only [loopLines, Run.bind_apply, takes.ask_eq, if_pos hblank]
  | value asks hrep =>
    rw [loopLines_of_asks asks, Run.bind_apply, answerLine_of_done hrep]
  | error asks hrep he htext =>
    rw [loopLines_of_asks asks, Run.bind_apply, answerLine_of_failed hrep he, Run.bind_apply, htext]
    rfl

theorem Stop.loopLines_eq {r : Result Unit} (h : Stop fuel m r) (lines : Nat) :
    loopLines fuel (lines + 1) m = r := by
  cases h with
  | atEnd h =>
    have hsplits : m.input.Splits (.ok none) m.input := h ▸ .ended
    simp only [loopLines, Run.bind_apply, Run.ask_of_ok hsplits]
    rfl
  | broken asks breaks =>
    rw [loopLines_of_asks asks, Run.bind_apply, breaks.answerLine_eq]
  | fault splits => simp only [loopLines, Run.bind_apply, Run.ask_of_error splits]
  | unfinished asks hrep =>
    rw [loopLines_of_asks asks, Run.bind_apply]
    simp only [answerLine, Run.bind_apply, Run.attempt, hrep]

/-! ### Lines -/

/-- Nothing comes back to the input. -/
theorem size_le_of_precedes (h : m.Precedes n) : n.input.size ≤ m.input.size := by
  obtain ⟨readings, hreads⟩ := h.input
  exact hreads.size_le

/-- What follows a prompt and its line comes later, and there is less of the input. -/
theorem Takes.precedes (h : Takes m line n) (hlater : n.Precedes o) :
    m.Precedes o ∧ o.input.size < m.input.size := by
  have hn : m.Precedes n := by
    rw [h.same]
    exact (Machine.Precedes.write m "user> ").trans (.takeLine h.splits)
  exact ⟨hn.trans hlater, Nat.lt_of_le_of_lt (size_le_of_precedes hlater) h.splits.size_lt⟩

/-- A round takes a line from the input and loses nothing. -/
theorem Round.precedes (h : Round fuel m n) :
    m.Precedes n ∧ n.input.size < m.input.size := by
  cases h with
  | blank takes => exact takes.precedes (.refl n)
  | @value line text n o asks hrep =>
    have hanswer : n.Precedes o := (regular_rep fuel line).follows hrep
    exact asks.precedes (hanswer.trans (.write o _))
  | @error line text n o e asks hrep he htext =>
    have hanswer : n.Precedes o ∧ n.AccountFor o e := (regular_rep fuel line).follows hrep
    exact asks.precedes (hanswer.1.trans (.write o _))

/-- One round after another loses nothing. -/
theorem precedes_of_rounds (h : ReflTransGen (Round fuel) m n) : m.Precedes n := by
  induction h with
  | refl => exact .refl m
  | tail _ hround ih => exact ih.trans hround.precedes.1

/-- A line that stands first can be taken. -/
theorem exists_takes {cs : List Char} {rest : Input} (h : m.input.Splits (.ok (some cs)) rest) :
    Takes m (String.ofList cs) { m.write "user> " with input := rest } :=
  ⟨by simpa using h, rfl⟩

/-- A line that is more than blanks is answered, or it ends the loop. -/
theorem round_or_stop_of_asks (fuel : Nat) (asks : Asks m line n) :
    (∃ n, Round fuel m n) ∨ ∃ r, Stop fuel m r := by
  cases hrep : rep fuel line n with
  | done text o => exact .inl ⟨_, .value asks hrep⟩
  | unfinished => exact .inr ⟨_, .unfinished asks hrep⟩
  | failed e o =>
    by_cases he : e.isFatal
    · exact .inr ⟨_, .broken asks (.fatal hrep he)⟩
    · have hanswer : n.Precedes o ∧ n.AccountFor o e := (regular_rep fuel line).follows hrep
      rcases describe_cases hanswer.2 he with ⟨text, htext⟩ | ⟨v, rfl, hprint, -⟩
      · exact .inl ⟨_, .error asks hrep he htext⟩
      · exact .inr ⟨_, .broken asks (.indescribable hrep hprint)⟩

/-- Where there is no round the loop stops. -/
theorem round_or_stop (fuel : Nat) (m : Machine) :
    (∃ n, Round fuel m n) ∨ ∃ r, Stop fuel m r := by
  have hsplits := m.input.splits_takeLine
  rcases hline : m.input.takeLine.1 with f | _ | cs
  · rw [hline] at hsplits
    exact .inr ⟨_, .fault hsplits⟩
  · rw [hline] at hsplits
    exact .inr ⟨_, .atEnd hsplits.eq_ended⟩
  · rw [hline] at hsplits
    have takes := exists_takes hsplits
    by_cases hblank : (String.ofList cs).toList.all Text.isBlank
    · exact .inl ⟨_, .blank takes hblank⟩
    · exact round_or_stop_of_asks fuel ⟨takes, hblank⟩

/-! ### The loop -/

/-- With enough lines the loop comes to where it stops. -/
theorem exists_stop (lines : Nat) (h : m.input.size < lines) :
    ∃ last, ReflTransGen (Round fuel) m last ∧ Stop fuel last (loopLines fuel lines m) := by
  induction lines generalizing m with
  | zero => omega
  | succ lines ih =>
    rcases round_or_stop fuel m with ⟨n, hround⟩ | ⟨r, hstop⟩
    · have hshorter := hround.precedes.2
      obtain ⟨last, hlast, hstop⟩ := ih (m := n) (by omega)
      rw [hround.loopLines_eq]
      exact ⟨last, hlast.head hround, hstop⟩
    · rw [hstop.loopLines_eq]
      exact ⟨m, .refl, hstop⟩

/-- It does not matter how many lines the loop may take, if these are enough. -/
theorem loopLines_of_rounds {last : Machine} (hlast : ReflTransGen (Round fuel) m last)
    {r : Result Unit} (hstop : Stop fuel last r) (lines : Nat) (h : m.input.size < lines) :
    loopLines fuel lines m = r := by
  induction hlast using ReflTransGen.head_induction_on generalizing lines with
  | refl =>
    obtain ⟨lines, rfl⟩ := Nat.exists_eq_add_of_lt h
    exact hstop.loopLines_eq _
  | head hround _ ih =>
    have hshorter := hround.precedes.2
    obtain ⟨more, rfl⟩ := Nat.exists_eq_add_of_lt h
    rw [hround.loopLines_eq]
    exact ih _ (by omega)

theorem loop_eq_iff {r : Result Unit} :
    loop fuel m = r ↔ ∃ last, ReflTransGen (Round fuel) m last ∧ Stop fuel last r := by
  have hloop : loop fuel m = loopLines fuel (m.input.size + 1) m := rfl
  rw [hloop]
  constructor
  · rintro rfl
    exact exists_stop _ (Nat.lt_succ_self _)
  · rintro ⟨last, hlast, hstop⟩
    exact loopLines_of_rounds hlast hstop _ (Nat.lt_succ_self _)

/-- No fault is ever met in a text, so only a line can end the loop with an error. -/
theorem loop_failed_iff_of_isText (hm : m.input.IsText) :
    loop fuel m = .failed e o ↔ ∃ last line n, ReflTransGen (Round fuel) m last ∧
      Asks last line n ∧ Breaks fuel line n e o := by
  rw [loop_eq_iff]
  constructor
  · rintro ⟨last, hlast, hstop⟩
    cases hstop with
    | broken asks breaks => exact ⟨last, _, _, hlast, asks, breaks⟩
    | fault splits =>
      obtain ⟨readings, hreads⟩ := (precedes_of_rounds hlast).input
      exact absurd splits.holds (Input.isText_iff.1 (hreads.isText hm) _)
  · rintro ⟨last, line, n, hlast, asks, breaks⟩
    exact ⟨last, hlast, .broken asks breaks⟩

/-- **The loop is the conversation line by line.** From every machine it does one round after
another until there is none, and ends as it stops there.

  * A round takes the line that stands first in the input, and stops are at the end of the input, at
    a fault of it, and at a line that ends the loop with an error: with one that cannot be caught,
    or with a thrown value that is nested too deeply to be described.
  * Up to any round, what was written is still there, and whole lines have been taken from the
    input, each of them when it stood first: one for the round, and those that programs have read,
    which are never taken for programs.
  * If the input is a text, the loop stops with an error exactly where a line does so. -/
theorem loop_iff (fuel : Nat) (m : Machine) :
    (∀ r, loop fuel m = r ↔ ∃ last, ReflTransGen (Round fuel) m last ∧ Stop fuel last r) ∧
      (∀ n, ReflTransGen (Round fuel) m n → m.Precedes n) ∧
      (m.input.IsText → ∀ e o, loop fuel m = .failed e o ↔ ∃ last line n,
        ReflTransGen (Round fuel) m last ∧ Asks last line n ∧ Breaks fuel line n e o) :=
  ⟨fun _ => loop_eq_iff, fun _ hn => precedes_of_rounds hn,
    fun hm _ _ => loop_failed_iff_of_isText hm⟩

/-- A definition; a blank line; a line that takes the one after it; a line that fails; and a last
line, which no line feed ends. -/
theorem loop_iff_conversation :
    let text := "(def! x 5)\n \n(readline \"p> \")\nx\n(do (println 1) y)\nx"
    let m := { Machine.bare with input := .ofText text }
    m.input.IsText ∧
      (loop 9 m).written? = some
        "user> 5\nuser> user> p> \"x\"\nuser> 1\nError: 'y' not found\nuser> 5\nuser> \n" ∧
      (∃ last, ReflTransGen (Round 9) m last ∧ Stop 9 last (loop 9 m)) ∧
      ∀ e o, ¬ ∃ last line n, ReflTransGen (Round 9) m last ∧ Asks last line n ∧
        Breaks 9 line n e o := by
  intro text m
  have hended : (loop 9 m).value? = some () := by decide +kernel
  obtain ⟨o, ho⟩ := Result.exists_of_value? hended
  obtain ⟨hstop, -, hbreaks⟩ := loop_iff 9 m
  refine ⟨⟨text, rfl⟩, by decide +kernel, (hstop _).1 rfl, fun e o' hbreak => ?_⟩
  have hfailed := (hbreaks ⟨text, rfl⟩ e o').2 hbreak
  rw [ho] at hfailed
  cases hfailed

end AtomLisp.Session
