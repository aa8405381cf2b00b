import AtomLisp.Proofs.Conduct
import AtomLisp.Proofs.Reading.Joining
import AtomLisp.Proofs.TailCall

/-! # The drivers of a session

  A text is evaluated as a prelude, for its values, or to print the last of them. The forms are
  evaluated one after another, each as soon as it has been read, up to the first one that fails or
  to the first fault of the text.

  * `Reader.next?` and `Session.feed`: reading one form at a time, and evaluating it before the
    next one is read;
  * `Session.Course`: the ways in which the evaluation of a text goes;
  * `evalText_intercalate`: a text in pieces, joined with line feeds;
  * `evalText_inner`: `eval` evaluates a step deeper than the others, which makes no difference
    where no limit of nested calls is set;
  * `drivers_agree`: what this means for the three drivers.
-/

namespace AtomLisp

/-! ### Reading one form -/

namespace Reader

variable {nesting : Nat} {fault : Option SyntaxFault} {stack : List Pending}
  {tokens rest : List Token} {form : Value}

/-- Takes tokens until a form is complete, and leaves the others. There is no form if the tokens
are at their end. -/
def next? (nesting : Nat) (fault : Option SyntaxFault) (stack : List Pending) :
    List Token → Except Error (Option (Value × List Token))
  | [] =>
    match atEnd fault stack with
    | none => .ok none
    | some e => .error e
  | token :: tokens =>
    match push nesting stack token with
    | .error e => .error e
    | .ok (stack, none) => next? nesting fault stack tokens
    | .ok (_, some form) => .ok (some (form, tokens))

theorem length_lt_of_next? (h : next? nesting fault stack tokens = .ok (some (form, rest))) :
    rest.length < tokens.length := by
  induction tokens generalizing stack with
  | nil =>
    rw [next?] at h
    split at h
    · cases h
    · cases h
  | cons token tokens ih =>
    rw [next?] at h
    split at h
    · cases h
    · exact Nat.lt_succ_of_lt (ih h)
    · cases h
      exact Nat.lt_succ_self _

/-- What a text reads as whose next form is known. -/
def readOn (nesting : Nat) (fault : Option SyntaxFault) :
    Except Error (Option (Value × List Token)) → List Value × Option Error
  | .error e => ([], some e)
  | .ok none => ([], none)
  | .ok (some (form, rest)) =>
    let r := run nesting fault [] rest
    (form :: r.1, r.2)

/-- Reading all forms is reading the next one, and then the others from the start. -/
theorem run_eq_next? :
    run nesting fault stack tokens = readOn nesting fault (next? nesting fault stack tokens) := by
  induction tokens generalizing stack with
  | nil =>
    rw [run, next?]
    cases atEnd fault stack with
    | none => rfl
    | some e => rfl
  | cons token tokens ih =>
    rw [run, next?]
    cases hpush : push nesting stack token with
    | error e => rfl
    | ok taken =>
      obtain ⟨stack', form?⟩ := taken
      cases form? with
      | none => exact ih
      | some form =>
        obtain rfl : stack' = [] := (takes_of_push hpush).eq_nil_of_some rfl
        rfl

/-- Texts that read without a fault, joined with line feeds. -/
theorem readAll_intercalate_newline {pieces : List String}
    (h : ∀ piece ∈ pieces, (readAll nesting piece).2 = none) :
    readAll nesting ("\n".intercalate pieces) =
      ((pieces.map fun piece => (readAll nesting piece).1).flatten, none) := by
  have hread : ∀ piece ∈ pieces,
      readAll nesting piece = ((readAll nesting piece).1, none) := fun piece hpiece =>
    Prod.ext rfl (h piece hpiece)
  induction pieces with
  | nil =>
    have htokens : Token.ofText "" = ([], none) := by decide +kernel
    rw [String.intercalate_nil, readAll, htokens]
    rfl
  | cons piece pieces ih =>
    have hpieces := ih (fun p hp => h p (List.mem_cons_of_mem _ hp))
      fun p hp => hread p (List.mem_cons_of_mem _ hp)
    cases pieces with
    | nil => simpa using hread piece (List.mem_cons_self ..)
    | cons next pieces =>
      rw [String.intercalate_cons_cons, List.map_cons, List.flatten_cons]
      exact readAll_append_of_none (hread piece (List.mem_cons_self ..)) hpieces

end Reader

namespace Session

variable {β : Type} {c : Caller} {fuel nesting : Nat} {fault : Option SyntaxFault}
  {fault? : Option Error} {form : Value} {forms vs : List Value} {v : Value} {m n o : Machine}
  {e : Error}
  {r : Result (List Value)}

/-! ### One form after another -/

/-- Evaluates a form of a text in the root frame. -/
def evalOne (c : Caller) (form : Value) : Run Value := do c.complete (← Run.number form) root

/-- Reads a form and evaluates it before the next one is read; what is kept of the values so far is
said by `keep`. -/
def feed (c : Caller) (nesting : Nat) (fault : Option SyntaxFault) (keep : β → Value → β)
    (kept : β) (tokens : List Token) : Run β :=
  match _h : Reader.next? nesting fault [] tokens with
  | .error e => Run.fail e
  | .ok none => pure kept
  | .ok (some (form, rest)) => do
    let v ← evalOne c form
    feed c nesting fault keep (keep kept v) rest
termination_by tokens.length
decreasing_by exact Reader.length_lt_of_next? _h

/-- Evaluates the forms of a text as they are read. -/
def feedText (c : Caller) (keep : β → Value → β) (start : β) (source : String) : Run β := do
  let r := Token.ofText source
  feed c (← Run.get).host.limits.nesting r.2 keep start r.1

/-- What a text ends with whose forms have been evaluated. -/
def close (fault? : Option Error) (b : β) : Run β :=
  match fault? with
  | none => pure b
  | some e => Run.fail e

theorem evalEach_cons_eq (c : Caller) (form : Value) (forms : List Value) :
    evalEach c (form :: forms) =
      (do
        let v ← evalOne c form
        let vs ← evalEach c forms
        return v :: vs) := by
  simp only [evalEach, evalOne, bind_assoc]

theorem evalText_apply (c : Caller) (source : String) (m : Machine) :
    evalText c source m =
      (evalEach c (Reader.readAll m.host.limits.nesting source).1 >>=
        close (Reader.readAll m.host.limits.nesting source).2) m := rfl

/-- **Reading ahead makes no difference.** -/
theorem feed_eq (keep : β → Value → β) (kept : β) (tokens : List Token) :
    feed c nesting fault keep kept tokens =
      (do
        let vs ← evalEach c (Reader.run nesting fault [] tokens).1
        close (Reader.run nesting fault [] tokens).2 (vs.foldl keep kept)) := by
  fun_induction feed with
  | case1 kept tokens e h =>
    rw [Reader.run_eq_next?, h]
    rfl
  | case2 kept tokens h =>
    rw [Reader.run_eq_next?, h]
    rfl
  | case3 kept tokens form rest h ih =>
    rw [Reader.run_eq_next?, h]
    simp only [Reader.readOn, evalEach_cons_eq, bind_assoc, pure_bind, List.foldl_cons, ih]

/-! ### The course of an evaluation -/

/-- The forms give their values, one after another. -/
inductive Gives (c : Caller) : List Value → Machine → List Value → Machine → Prop
  | nil (m : Machine) : Gives c [] m [] m
  | cons {form v : Value} {forms vs : List Value} {m n o : Machine}
    (hform : evalOne c form m = .done v n) (hforms : Gives c forms n vs o) :
    Gives c (form :: forms) m (v :: vs) o

theorem gives_iff : Gives c forms m vs n ↔ evalEach c forms m = .done vs n := by
  induction forms generalizing m vs with
  | nil =>
    constructor
    · intro h
      cases h
      rfl
    · intro h
      cases h
      exact .nil _
  | cons form forms ih =>
    rw [evalEach_cons_eq, Run.bind_eq_done_iff]
    constructor
    · intro h
      cases h with
      | cons hform hforms =>
        exact ⟨_, _, hform, Run.bind_eq_done_iff.2 ⟨_, _, ih.1 hforms, rfl⟩⟩
    · rintro ⟨v, o, hform, hrest⟩
      obtain ⟨vs, p, hforms, hdone⟩ := Run.bind_eq_done_iff.1 hrest
      cases hdone
      exact .cons hform (ih.2 hforms)

/-- How the evaluation of a text goes: its forms, what is wrong behind them, and the values that
it comes to. -/
inductive Course (c : Caller) (forms : List Value) (fault? : Option Error) (m : Machine) :
    Result (List Value) → Prop
  /-- All forms give their values, and nothing is wrong with the text. -/
  | done {vs : List Value} {n : Machine} (h : Gives c forms m vs n) (hfault : fault? = none) :
    Course c forms fault? m (.done vs n)
  /-- All forms in front of the first fault give their values. -/
  | fault {vs : List Value} {e : Error} {n : Machine} (h : Gives c forms m vs n)
    (hfault : fault? = some e) : Course c forms fault? m (.failed e n)
  /-- A form fails; the forms in front of it have given their values, and those behind it are not
  evaluated. -/
  | failed {pre post vs : List Value} {form : Value} {e : Error} {n o : Machine}
    (hforms : forms = pre ++ form :: post) (h : Gives c pre m vs n)
    (hfailed : evalOne c form n = .failed e o) : Course c forms fault? m (.failed e o)
  /-- The fuel is used up in one of the forms. -/
  | unfinished {pre post vs : List Value} {form : Value} {n : Machine}
    (hforms : forms = pre ++ form :: post) (h : Gives c pre m vs n)
    (hcut : evalOne c form n = .unfinished) : Course c forms fault? m .unfinished

theorem evalEach_append (c : Caller) (front back : List Value) :
    evalEach c (front ++ back) =
      (do
        let vs ← evalEach c front
        let ws ← evalEach c back
        return vs ++ ws) := by
  induction front with
  | nil => simp [evalEach]
  | cons form front ih =>
    simp only [List.cons_append, evalEach_cons_eq, ih, bind_assoc, pure_bind]

/-- The first form goes in front of the course of the others. -/
theorem Course.cons (hform : evalOne c form m = .done v n) (h : Course c forms fault? n r) :
    Course c (form :: forms) fault? m (r.map (v :: ·)) := by
  cases h with
  | done h hfault => exact .done (.cons hform h) hfault
  | fault h hfault => exact .fault (.cons hform h) hfault
  | failed hforms h hfailed =>
    exact .failed (by rw [hforms, List.cons_append]) (.cons hform h) hfailed
  | unfinished hforms h hcut =>
    exact .unfinished (by rw [hforms, List.cons_append]) (.cons hform h) hcut

theorem course_evalEach (c : Caller) (forms : List Value) (fault? : Option Error) (m : Machine) :
    Course c forms fault? m ((evalEach c forms >>= close fault?) m) := by
  induction forms generalizing m with
  | nil =>
    cases fault? with
    | none => exact .done (.nil m) rfl
    | some e => exact .fault (.nil m) rfl
  | cons form forms ih =>
    simp only [evalEach_cons_eq, bind_assoc, pure_bind]
    rw [Run.bind_apply]
    cases hform : evalOne c form m with
    | done v n =>
      have hmap : (do close fault? (v :: (← evalEach c forms))) n =
          ((evalEach c forms >>= close fault?) n).map (v :: ·) := by
        rw [Run.bind_apply, Run.bind_apply]
        cases evalEach c forms n with
        | done vs o => cases fault? <;> rfl
        | _ => rfl
      have hcourse := (ih n).cons hform
      rw [← hmap] at hcourse
      exact hcourse
    | failed e n => exact .failed rfl (.nil m) hform
    | unfinished => exact .unfinished rfl (.nil m) hform

/-- **There is exactly one course.** -/
theorem course_iff :
    Course c forms fault? m r ↔ (evalEach c forms >>= close fault?) m = r := by
  constructor
  · intro h
    cases h with
    | done h hfault =>
      rw [Run.bind_apply, gives_iff.1 h, hfault]
      rfl
    | fault h hfault =>
      rw [Run.bind_apply, gives_iff.1 h, hfault]
      rfl
    | failed hforms h hfailed =>
      rw [hforms, evalEach_append]
      simp only [evalEach_cons_eq, bind_assoc, Run.bind_apply, gives_iff.1 h, hfailed]
    | unfinished hforms h hcut =>
      rw [hforms, evalEach_append]
      simp only [evalEach_cons_eq, bind_assoc, Run.bind_apply, gives_iff.1 h, hcut]
  · rintro rfl
    exact course_evalEach c forms fault? m

/-! ### Texts in pieces -/

theorem host_of_evalEach (hc : c.Regular) (h : evalEach c forms m = .done vs n) : n.host = m.host :=
  have hprecedes : m.Precedes n := (regular_evalEach hc forms).follows h
  hprecedes.host

theorem length_of_evalEach (h : evalEach c forms m = .done vs n) :
    vs.length = forms.length := by
  have hgives := gives_iff.2 h
  induction hgives with
  | nil => rfl
  | cons _ hforms ih => simp [ih (gives_iff.1 hforms)]

/-- A text that reads without a fault is evaluated form by form. -/
theorem evalText_of_none {source : String}
    (h : (Reader.readAll m.host.limits.nesting source).2 = none) :
    evalText c source m = evalEach c (Reader.readAll m.host.limits.nesting source).1 m := by
  rw [evalText_apply, h]
  show (evalEach c _ >>= pure) m = _
  rw [bind_pure]

variable {pieces front back : List String} {piece : String}

/-- The forms of texts. -/
def formsOf (nesting : Nat) (pieces : List String) : List Value :=
  (pieces.map fun piece => (Reader.readAll nesting piece).1).flatten

theorem formsOf_cons (nesting : Nat) (piece : String) (pieces : List String) :
    formsOf nesting (piece :: pieces) =
      (Reader.readAll nesting piece).1 ++ formsOf nesting pieces := rfl

theorem formsOf_append (nesting : Nat) (front back : List String) :
    formsOf nesting (front ++ back) = formsOf nesting front ++ formsOf nesting back := by
  simp [formsOf]

/-- Texts that are evaluated one after another. -/
theorem mapM_evalText (hc : c.Regular)
    (h : ∀ p ∈ pieces, (Reader.readAll m.host.limits.nesting p).2 = none) :
    (List.flatten <$> pieces.mapM (evalText c)) m =
      evalEach c (formsOf m.host.limits.nesting pieces) m := by
  induction pieces generalizing m with
  | nil => rfl
  | cons piece pieces ih =>
    have hpiece := h piece (List.mem_cons_self ..)
    rw [formsOf_cons, evalEach_append, List.mapM_cons]
    simp only [map_bind, map_pure, List.flatten_cons]
    rw [Run.bind_apply, Run.bind_apply, evalText_of_none hpiece]
    cases hfirst : evalEach c (Reader.readAll m.host.limits.nesting piece).1 m with
    | done vs n =>
      have hhost : n.host = m.host := host_of_evalEach hc hfirst
      have hrest := ih (m := n) fun p hp => hhost ▸ h p (List.mem_cons_of_mem _ hp)
      rw [hhost] at hrest
      dsimp only
      rw [← Run.bind_congr_at hrest fun ws => pure (vs ++ ws), map_eq_pure_bind, bind_assoc]
      simp only [pure_bind]
    | failed e n => rfl
    | unfinished => rfl

theorem evalText_joined
    (h : ∀ p ∈ pieces, (Reader.readAll m.host.limits.nesting p).2 = none) :
    evalText c ("\n".intercalate pieces) m =
      evalEach c (formsOf m.host.limits.nesting pieces) m := by
  have hread := Reader.readAll_intercalate_newline h
  rw [evalText_of_none (by rw [hread]), hread]
  rfl

/-- **A text in pieces** that each read without a fault, joined with line feeds, is evaluated as
the pieces are one after another. -/
theorem evalText_intercalate (hc : c.Regular)
    (h : ∀ p ∈ pieces, (Reader.readAll m.host.limits.nesting p).2 = none) :
    evalText c ("\n".intercalate pieces) m =
      (List.flatten <$> pieces.mapM (evalText c)) m := by
  rw [evalText_joined h, mapM_evalText hc h]

/-! ### The drivers -/

/-- The last value is printed where the evaluation has led to. -/
theorem rep_eq_done_iff {source text : String} :
    rep fuel source m = .done text n ↔ ∃ vs, evalText (outermost fuel) source m = .done vs n ∧
      n.print true (vs.getLast?.getD .nil) = .ok text := by
  rw [rep, Run.bind_eq_done_iff]
  constructor
  · rintro ⟨vs, o, hvs, hprint⟩
    unfold Run.read at hprint
    split at hprint
    · cases hprint
      exact ⟨vs, hvs, ‹_›⟩
    · cases hprint
  · rintro ⟨vs, hvs, hprint⟩
    exact ⟨vs, n, hvs, by rw [Run.read, hprint]⟩

/-- What is printed for each of several texts does not change how they are evaluated. -/
theorem mapM_evalText_of_rep {texts : List String}
    (h : pieces.mapM (rep fuel) m = .done texts n) :
    texts.length = pieces.length ∧
      ∃ vss, pieces.mapM (evalText (outermost fuel)) m = .done vss n := by
  induction pieces generalizing m texts with
  | nil =>
    cases h
    exact ⟨rfl, [], rfl⟩
  | cons piece pieces ih =>
    rw [List.mapM_cons, Run.bind_eq_done_iff] at h
    obtain ⟨text, o, htext, hrest⟩ := h
    obtain ⟨texts, p, htexts, hdone⟩ := Run.bind_eq_done_iff.1 hrest
    cases hdone
    obtain ⟨hlength, vss, hvss⟩ := ih htexts
    obtain ⟨vs, hvs, -⟩ := rep_eq_done_iff.1 htext
    refine ⟨by simp [hlength], vs :: vss, ?_⟩
    rw [List.mapM_cons]
    exact Run.bind_eq_done_iff.2 ⟨vs, o, hvs, Run.bind_eq_done_iff.2 ⟨vss, _, hvss, rfl⟩⟩

/-- The values of texts in front of others. -/
theorem evalEach_of_rep {texts : List String}
    (hread : ∀ p ∈ pieces, (Reader.readAll m.host.limits.nesting p).2 = none)
    (h : pieces.mapM (rep fuel) m = .done texts n) :
    ∃ vs, evalEach (outermost fuel) (formsOf m.host.limits.nesting pieces) m = .done vs n := by
  obtain ⟨-, vss, hvss⟩ := mapM_evalText_of_rep h
  refine ⟨vss.flatten, ?_⟩
  rw [← mapM_evalText (regular_outermost fuel) hread]
  exact Run.bind_eq_done_iff.2 ⟨vss, n, hvss, rfl⟩

/-- The answer to a text in pieces is that to the last piece that holds a form. -/
theorem rep_intercalate {texts : List String}
    (hread : ∀ p ∈ front ++ piece :: back, (Reader.readAll m.host.limits.nesting p).2 = none)
    (hpiece : (Reader.readAll m.host.limits.nesting piece).1 ≠ [])
    (hback : ∀ p ∈ back, (Reader.readAll m.host.limits.nesting p).1 = [])
    (h : (front ++ piece :: back).mapM (rep fuel) m = .done texts n) :
    ∃ text, texts[front.length]? = some text ∧
      rep fuel ("\n".intercalate (front ++ piece :: back)) m = .done text n := by
  have hjoined : evalText (outermost fuel) ("\n".intercalate (front ++ piece :: back)) m = _ :=
    evalText_joined hread
  simp only [List.mem_append, List.mem_cons] at hread
  -- The machines in front of the piece and behind it
  rw [List.mapM_append, Run.bind_eq_done_iff] at h
  obtain ⟨texts₁, m₁, hfront, hrest⟩ := h
  obtain ⟨texts₂, m₂, htail, hdone⟩ := Run.bind_eq_done_iff.1 hrest
  cases hdone
  rw [List.mapM_cons, Run.bind_eq_done_iff] at htail
  obtain ⟨text, m₂, htext, hrest⟩ := htail
  obtain ⟨texts₃, m₃, hothers, hdone⟩ := Run.bind_eq_done_iff.1 hrest
  cases hdone
  -- The values of the pieces in front
  obtain ⟨vs₁, hvs₁⟩ := evalEach_of_rep (fun p hp => hread p (.inl hp)) hfront
  have hhost₁ : m₁.host = m.host := host_of_evalEach (regular_outermost fuel) hvs₁
  -- Those of the piece
  obtain ⟨vs, hvs, hprint⟩ := rep_eq_done_iff.1 htext
  rw [evalText_of_none (hhost₁ ▸ hread piece (.inr (.inl rfl))), hhost₁] at hvs
  have hhost₂ : m₂.host = m.host := (host_of_evalEach (regular_outermost fuel) hvs).trans hhost₁
  have hne : vs ≠ [] := by
    rintro rfl
    exact hpiece (List.eq_nil_of_length_eq_zero (length_of_evalEach hvs).symm)
  -- There are none behind, so nothing happens there.
  have hnone : formsOf m.host.limits.nesting back = [] := by
    simpa [formsOf] using hback
  obtain ⟨vs₃, hvs₃⟩ := evalEach_of_rep
    (fun p hp => hhost₂ ▸ hread p (.inr (.inr hp))) hothers
  rw [hhost₂, hnone] at hvs₃
  obtain rfl : m₂ = n := by
    cases hvs₃
    rfl
  have hall : evalText (outermost fuel) ("\n".intercalate (front ++ piece :: back)) m =
      .done (vs₁ ++ vs) m₂ := by
    rw [hjoined, formsOf_append, formsOf_cons, hnone, List.append_nil, evalEach_append]
    exact Run.bind_eq_done_iff.2 ⟨vs₁, m₁, hvs₁, Run.bind_eq_done_iff.2 ⟨vs, m₂, hvs, rfl⟩⟩
  have hlast : (vs₁ ++ vs).getLast? = vs.getLast? := List.getLast?_append_of_ne_nil vs₁ hne
  have hlength : texts₁.length = front.length := (mapM_evalText_of_rep hfront).1
  exact ⟨text, by simp [← hlength], rep_eq_done_iff.2 ⟨vs₁ ++ vs, hall, by rw [hlast, hprint]⟩⟩

/-- Texts that are evaluated for what they define, one after another. -/
theorem forM_forget (c : Caller) (pieces : List String) :
    (pieces.forM fun p => do let _ ← evalText c p) =
      (do let _ ← pieces.mapM (evalText c)) := by
  induction pieces with
  | nil => rfl
  | cons piece pieces ih =>
    show ((do let _ ← evalText c piece) >>= fun _ =>
      pieces.forM fun p => do let _ ← evalText c p) = _
    simp only [ih, List.mapM_cons, bind_assoc, pure_bind]

/-- What a text in pieces defines. -/
theorem forget_intercalate (hc : c.Regular)
    (h : ∀ p ∈ pieces, (Reader.readAll m.host.limits.nesting p).2 = none) :
    (do let _ ← evalText c ("\n".intercalate pieces)) m =
      (pieces.forM fun p => do let _ ← evalText c p) m := by
  rw [forM_forget, Run.bind_congr_at (evalText_intercalate hc h), map_eq_pure_bind, bind_assoc]
  simp only [pure_bind]

/-- Evaluating a text for its values, and forgetting them, is evaluating it for what it defines,
a step deeper. -/
theorem forget_eval (fuel : Nat) (source : String) :
    (do let _ ← eval fuel source) = (do let _ ← evalText (outermost fuel).inner source) := by
  simp only [eval, bind_assoc, pure_bind]

/-- Where no limit of nested calls is set, it does not matter that `eval` evaluates a step
deeper. -/
theorem evalText_inner (hm : m.Unlimited) (fuel : Nat) (source : String) :
    evalText (outermost fuel).inner source m = evalText (outermost fuel) source m := by
  have hlevel : evalEach (outermost fuel).inner _ m = evalEach (outermost fuel) _ m :=
    ((agreeing_onLevel fuel 1 0).evalEach trivial
      (Reader.readAll m.host.limits.nesting source).1 m hm).1
  rw [evalText_apply, evalText_apply, Run.bind_congr_at hlevel]

theorem map_close {γ : Type} (g : β → γ) (fault? : Option Error) (b : β) :
    g <$> close fault? b = close fault? (g b) := by
  cases fault? with
  | none => exact map_pure g b
  | some e => rfl

theorem feedText_eq (c : Caller) (keep : β → Value → β) (start : β) (source : String) :
    feedText c keep start source =
      (fun vs => vs.foldl keep start) <$> evalText c source := by
  funext m
  show feed c m.host.limits.nesting _ keep start _ m =
    ((fun vs => vs.foldl keep start) <$> (evalEach c _ >>= close _)) m
  rw [feed_eq, map_bind]
  simp only [map_close]

theorem foldl_concat (vs ws : List Value) : ws.foldl (fun vs v => vs ++ [v]) vs = vs ++ ws := by
  induction ws generalizing vs with
  | nil => simp
  | cons w ws ih => simp [ih]

theorem foldl_last (vs : List Value) (u : Value) :
    vs.foldl (fun _ v => v) u = vs.getLast?.getD u := by
  induction vs generalizing u with
  | nil => rfl
  | cons v vs ih => simp [ih, List.getLast?_cons]

/-- **The drivers of a session** do the same with a text:

  * there is exactly one course that its evaluation takes, and a prelude ends as it does, and then
    the last value is printed; `eval` evaluates a step deeper, and ends as the course does that the
    evaluation takes there, which is the same one where no limit of nested calls is set;
  * each of them is a loop that reads a form and evaluates it before it reads the next one;
  * a text in pieces that each read without a fault, joined with line feeds, is evaluated as the
    pieces are one after another; its answer is that to the last piece that holds a form. -/
theorem drivers_agree (fuel : Nat) (source : String) (m : Machine) :
    let text := Reader.readAll m.host.limits.nesting source
    let c := outermost fuel
    (∃ r r', (∀ s, Course c text.1 text.2 m s ↔ s = r) ∧
      evalPrelude fuel source m = r.map (fun _ => ()) ∧
      rep fuel source m =
        r.andThen (fun vs => Run.read (·.print true (vs.getLast?.getD .nil))) ∧
      (∀ s, Course c.inner text.1 text.2 m s ↔ s = r') ∧
      eval fuel source m = r'.map Evaluated.ofValues ∧
      (m.Unlimited → r' = r)) ∧
    (evalPrelude fuel source = feedText c (fun _ _ => ()) () source ∧
      eval fuel source =
        Evaluated.ofValues <$> feedText c.inner (fun vs v => vs ++ [v]) [] source ∧
      rep fuel source =
        (feedText c (fun _ v => v) .nil source >>= fun v => Run.read (·.print true v))) ∧
    ∀ pieces, source = "\n".intercalate pieces →
      (∀ p ∈ pieces, (Reader.readAll m.host.limits.nesting p).2 = none) →
      evalPrelude fuel source m = pieces.forM (evalPrelude fuel) m ∧
      (do let _ ← eval fuel source) m = (pieces.forM fun p => do let _ ← eval fuel p) m ∧
      ∀ front piece back texts n, pieces = front ++ piece :: back →
        (Reader.readAll m.host.limits.nesting piece).1 ≠ [] →
        (∀ p ∈ back, (Reader.readAll m.host.limits.nesting p).1 = []) →
        pieces.mapM (rep fuel) m = .done texts n →
        ∃ text, texts[front.length]? = some text ∧ rep fuel source m = .done text n := by
  intro text c
  have hc : c.Regular := regular_outermost fuel
  have hprelude : evalPrelude fuel source = (do let _ ← evalText c source) := rfl
  have hrep : rep fuel source = (do
      let vs ← evalText c source
      Run.read (·.print true (vs.getLast?.getD .nil))) := rfl
  refine ⟨⟨evalText c source m, evalText c.inner source m, ?_, ?_, rfl, ?_, ?_, ?_⟩,
    ⟨?_, ?_, ?_⟩, ?_⟩
  · exact fun s => course_iff.trans eq_comm
  · rw [hprelude, Run.bind_apply]
    cases evalText c source m <;> rfl
  · exact fun s => course_iff.trans eq_comm
  · rw [eval, Run.bind_apply]
    cases evalText c.inner source m <;> rfl
  · exact fun hm => evalText_inner hm fuel source
  · rw [feedText_eq, map_eq_pure_bind, hprelude]
  · rw [feedText_eq]
    simp only [foldl_concat, List.nil_append, eval, map_eq_pure_bind, bind_assoc, pure_bind, c]
  · rw [feedText_eq, hrep]
    simp only [foldl_last, map_eq_pure_bind, bind_assoc, pure_bind]
  · rintro pieces rfl hread
    refine ⟨forget_intercalate hc hread, ?_, ?_⟩
    · simp only [forget_eval]
      exact forget_intercalate hc.inner hread
    · rintro front piece back texts n rfl hpiece hback hrep
      exact rep_intercalate hread hpiece hback hrep

/-- A definition, a use of it, and a piece without a form. -/
theorem drivers_agree_pieces :
    let m := Machine.bare
    let pieces := ["(def! x 2)", "x", "; done"]
    m.Unlimited ∧
      (∀ p ∈ pieces, (Reader.readAll m.host.limits.nesting p).2 = none) ∧
      (Reader.readAll m.host.limits.nesting "x").1 ≠ [] ∧
      (∀ p ∈ ["; done"], (Reader.readAll m.host.limits.nesting p).1 = []) ∧
      evalPrelude 5 ("\n".intercalate pieces) m = pieces.forM (evalPrelude 5) m ∧
      ∃ n, pieces.mapM (rep 5) m = .done ["2", "2", "nil"] n ∧
        rep 5 ("\n".intercalate pieces) m = .done "2" n ∧
        eval 5 ("\n".intercalate pieces) m = .done (.several [.int 2, .int 2]) n := by
  intro m pieces
  have hread : ∀ p ∈ pieces, (Reader.readAll m.host.limits.nesting p).2 = none := by
    decide +kernel
  have hpiece : (Reader.readAll m.host.limits.nesting "x").1 ≠ [] := by decide +kernel
  have hback : ∀ p ∈ ["; done"], (Reader.readAll m.host.limits.nesting p).1 = [] := by
    decide +kernel
  have hrep : (pieces.mapM (rep 5) m).value? = some ["2", "2", "nil"] := by decide +kernel
  obtain ⟨n, hn⟩ := Result.exists_of_value? hrep
  obtain ⟨⟨r, r', honly, -, -, -, heval, hsame⟩, -, hpieces⟩ :=
    drivers_agree 5 ("\n".intercalate pieces) m
  obtain ⟨hprelude, -, hlast⟩ := hpieces pieces rfl hread
  obtain ⟨text, htext, hjoined⟩ := hlast ["(def! x 2)"] "x" ["; done"] _ n rfl hpiece hback hn
  obtain rfl : "2" = text := Option.some.inj htext
  -- The values that are collected are those of which the last one is printed.
  obtain ⟨vs, hvs, -⟩ := rep_eq_done_iff.1 hjoined
  have hr : .done vs n = r := (honly _).1 (course_iff.2 hvs)
  have hvalues : (evalText (outermost 5) ("\n".intercalate pieces) m).value? =
      some [.int 2, .int 2] := by decide +kernel
  rw [hvs] at hvalues
  obtain rfl : vs = [.int 2, .int 2] := Option.some.inj hvalues
  rw [hsame rfl, ← hr] at heval
  exact ⟨rfl, hread, hpiece, hback, hprelude, n, hn, hjoined, heval⟩

/-- The value of a text need not have a text itself, and then only printing it fails. The answer to
a last piece without a form is not that to the whole text. And close to the limit of nested calls
`eval` fails, which evaluates a step deeper. -/
theorem drivers_differ :
    let holdsLong := Machine.bare.define root "x" (.int Numeral.bound)
    let narrow : Machine := { Machine.bare with
      host := { Machine.bare.host with limits := ⟨some (Steps.body + 1), Limits.leastSteps⟩ } }
    (∃ n, evalPrelude 5 "x" holdsLong = .done () n ∧
      eval 5 "x" holdsLong = .done (.single (.int Numeral.bound)) n) ∧
    (rep 5 "x" holdsLong).error? = some .numeralTooLong ∧
    (rep 5 ("\n".intercalate ["1", "; c"]) Machine.bare).value? = some "1" ∧
    (["1", "; c"].mapM (rep 5) Machine.bare).value? = some ["1", "nil"] ∧
    (rep 5 "1" narrow).value? = some "1" ∧ (eval 5 "1" narrow).error? = some .tooDeep := by
  intro holdsLong narrow
  have hm : holdsLong.Unlimited := rfl
  have hvalues : (evalAll 5 "x" holdsLong).value? = some [.int Numeral.bound] := by decide +kernel
  obtain ⟨n, hn⟩ := Result.exists_of_value? hvalues
  have hinner : evalText (outermost 5).inner "x" holdsLong = .done [.int Numeral.bound] n :=
    (evalText_inner hm 5 "x").trans hn
  refine ⟨⟨n, ?_, ?_⟩, by decide +kernel, by decide +kernel, by decide +kernel, by decide +kernel,
    by decide +kernel⟩
  · exact Run.bind_eq_done_iff.2 ⟨_, n, hn, rfl⟩
  · exact Run.bind_eq_done_iff.2 ⟨_, n, hinner, rfl⟩

end Session

end AtomLisp
