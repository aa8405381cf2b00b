import AtomLisp.Reader

/-! # Reading token by token

  What the reader does with a token does not depend on what comes after it, and hardly on what is
  open around it. This module says once what each token does, and from that what tokens do that are
  read without a fault.

  * `Reader.Takes`: what a token does when it is taken;
  * `Reader.resumeAll`: going on when several forms are complete;
  * `Reader.run_append`: tokens that are read without a fault are read so in front of any others,
    inside whatever is open.
-/

namespace AtomLisp

/-! ### Forms inside a bracket -/

/-- What comes of two computations in turn comes of the second one. -/
theorem exists_of_bind_eq_ok {ε α β : Type} {x : Except ε α} {f : α → Except ε β} {b : β}
    (h : x >>= f = .ok b) : ∃ a, x = .ok a ∧ f a = .ok b := by
  cases x with
  | error e => cases h
  | ok a => exact ⟨a, rfl, h⟩

/-- What comes of two computations in turn is an error of the first or of the second one. -/
theorem error_of_bind {ε α β : Type} {x : Except ε α} {f : α → Except ε β} {e : ε}
    (h : x >>= f = .error e) : x = .error e ∨ ∃ a, x = .ok a ∧ f a = .error e := by
  cases x with
  | error e' =>
    cases h
    exact .inl rfl
  | ok a => exact .inr ⟨a, rfl, h⟩

/-- What waits, with its contents some steps deeper. -/
def Pending.deeper (steps : Nat) : Pending → Pending
  | .mark depth m => .mark (depth + steps) m
  | .bracket depth b items => .bracket (depth + steps) b items

namespace Reader

/-- Goes on when several forms are complete, one after another. -/
def resumeAll (nesting : Nat) (fault : Option SyntaxFault) :
    List Pending → List Value → List Token → List Value × Option Error
  | stack, [], tokens => run nesting fault stack tokens
  | stack, form :: forms, tokens =>
    let r := resumeAll nesting fault (complete form stack).1 forms tokens
    ((complete form stack).2.toList ++ r.1, r.2)

/-- Any number of forms may stand here: no quote mark waits for a single one. -/
def TakesForms : List Pending → Prop
  | .mark _ _ :: _ => False
  | _ => True

variable {nesting steps limit : Nat} {fault : Option SyntaxFault} {stack base : List Pending}

/-- Complete forms are given out if nothing waits for them. -/
theorem resumeAll_nil (forms : List Value) (tokens : List Token) :
    resumeAll nesting fault [] forms tokens =
      (forms ++ (run nesting fault [] tokens).1, (run nesting fault [] tokens).2) := by
  induction forms with
  | nil => rfl
  | cons form forms ih => simp [resumeAll, complete, ih]

/-- Complete forms join those of a bracket that waits for them. -/
theorem resumeAll_bracket (depth : Nat) (b : Bracket) (items forms : List Value)
    (tokens : List Token) :
    resumeAll nesting fault (.bracket depth b items :: stack) forms tokens =
      run nesting fault (.bracket depth b (forms.reverse ++ items) :: stack) tokens := by
  induction forms generalizing items with
  | nil => rfl
  | cons form forms ih => simp [resumeAll, complete, ih]

theorem takesForms_complete (h : TakesForms base) (form : Value) :
    TakesForms (complete form base).1 ∧ depth (complete form base).1 = depth base := by
  cases base with
  | nil => exact ⟨trivial, rfl⟩
  | cons pending base =>
    cases pending with
    | mark depth m => exact h.elim
    | bracket depth b items => exact ⟨trivial, rfl⟩

/-- Where a complete form goes, if the stack stands upon another one. -/
def handOver (steps : Nat) (base : List Pending) :
    List Pending × Option Value → List Pending × Option Value
  | (stack, none) => (stack.map (.deeper steps) ++ base, none)
  | (_, some form) => complete form base

theorem complete_deeper (form : Value) :
    complete form (stack.map (.deeper steps) ++ base) =
      handOver steps base (complete form stack) := by
  induction stack generalizing form with
  | nil => rfl
  | cons pending stack ih =>
    cases pending with
    | mark depth m => exact ih (.form [.symbol m.symbol, form])
    | bracket depth b items => rfl

theorem depth_deeper (h : depth base = steps) :
    depth (stack.map (.deeper steps) ++ base) = depth stack + steps := by
  cases stack with
  | nil => simpa [depth] using h
  | cons pending stack => cases pending <;> rfl

/-- When a form is complete with nothing that waits for it, nothing waits at all. -/
theorem complete_some {form form' : Value} {stack' : List Pending}
    (h : complete form stack = (stack', some form')) : stack' = [] := by
  induction stack generalizing form with
  | nil =>
    cases h
    rfl
  | cons pending stack ih =>
    cases pending with
    | mark depth m => exact ih h
    | bracket depth b items => cases h

/-- Entries that are found are found under any limit. -/
theorem mapEntries_of_ok {items : List Value} {entries : List (String × Value)}
    (h : mapEntries nesting items = .ok entries) (nesting' : Nat) :
    mapEntries nesting' items = .ok entries := by
  fun_induction mapEntries nesting items generalizing entries with
  | case1 => exact h
  | case2 k v rest ih =>
    obtain ⟨others, hothers, hok⟩ := exists_of_bind_eq_ok h
    rw [mapEntries, ih hothers]
    exact hok
  | case3 k v rest hk =>
    obtain ⟨shown, -, hok⟩ := exists_of_bind_eq_ok h
    cases hok
  | case4 v => cases h

theorem enclose_of_ok {items : List Value} {b : Bracket} {form : Value}
    (h : enclose nesting items b = .ok form) (nesting' : Nat) :
    enclose nesting' items b = .ok form := by
  cases b with
  | round => exact h
  | square => exact h
  | curly =>
    unfold enclose at h ⊢
    by_cases heven : items.length % 2 = 0
    · rw [if_pos heven] at h ⊢
      obtain ⟨entries, hentries, hok⟩ := exists_of_bind_eq_ok h
      rw [mapEntries_of_ok hentries]
      exact hok
    · rw [if_neg heven] at h
      cases h

/-- What a token does when it is taken. -/
inductive Takes (nesting : Nat) : List Pending → Token → List Pending × Option Value → Prop
  | mark {stack : List Pending} {m : QuoteMark} (h : depth stack + 1 < nesting) :
      Takes nesting stack (.mark m) (.mark (depth stack + 1) m :: stack, none)
  | opener {stack : List Pending} {b : Bracket} (h : depth stack + 2 < nesting) :
      Takes nesting stack (.opener b) (.bracket (depth stack + 2) b [] :: stack, none)
  | closer {inner : Nat} {b : Bracket} {items : List Value} {stack : List Pending} {form : Value}
      (h : enclose nesting items.reverse b = .ok form) :
      Takes nesting (.bracket inner b items :: stack) (.closer b) (complete form stack)
  | text {stack : List Pending} {body : List Char} {s : String} (h : Literal.decode body = .ok s) :
      Takes nesting stack (.text body) (complete (.text s) stack)
  | word {stack : List Pending} {cs : List Char} {form : Value} (h : Reader.word cs = .ok form) :
      Takes nesting stack (.word cs) (complete form stack)

variable {token : Token} {r : List Pending × Option Value}

theorem takes_of_open? {more : Nat} {pending : Nat → Pending}
    (h : open? nesting more pending stack = .ok r) :
    depth stack + more < nesting ∧ r = (pending (depth stack + more) :: stack, none) := by
  unfold open? at h
  dsimp only at h
  split at h
  · cases h
    exact ⟨by assumption, rfl⟩
  · cases h

theorem takes_of_push (h : push nesting stack token = .ok r) : Takes nesting stack token r := by
  cases token with
  | mark m =>
    have hopen : open? nesting 1 (Pending.mark · m) stack = .ok r := h
    obtain ⟨hlt, rfl⟩ := takes_of_open? hopen
    exact .mark hlt
  | opener b =>
    have hopen : open? nesting 2 (Pending.bracket · b []) stack = .ok r := h
    obtain ⟨hlt, rfl⟩ := takes_of_open? hopen
    exact .opener hlt
  | closer b =>
    cases stack with
    | nil => cases h
    | cons pending stack =>
      cases pending with
      | mark inner m => cases h
      | bracket inner b' items =>
        simp only [push] at h
        split at h
        · rename_i hb
          obtain ⟨form, henclose, hok⟩ := exists_of_bind_eq_ok h
          cases hok
          exact hb ▸ .closer henclose
        · cases h
  | text body =>
    simp only [push] at h
    split at h
    · rename_i s hdecode
      cases h
      exact .text hdecode
    · cases h
  | word cs =>
    obtain ⟨form, hword, hok⟩ := exists_of_bind_eq_ok h
    cases hok
    exact .word hword

theorem Takes.push (h : Takes nesting stack token r) : push nesting stack token = .ok r := by
  cases h with
  | mark h => simp only [Reader.push, open?, if_pos h]
  | opener h => simp only [Reader.push, open?, if_pos h]
  | closer h =>
    simp only [Reader.push, if_true, h]
    rfl
  | text h => simp only [Reader.push, h]
  | word h =>
    simp only [Reader.push, h]
    rfl

/-- A token that is taken leads to what the others do then. -/
theorem run_of_takes {form? : Option Value} {stack' : List Pending}
    (h : Takes nesting stack token (stack', form?)) (tokens : List Token) :
    run nesting fault stack (token :: tokens) =
      (form?.toList ++ (run nesting fault stack' tokens).1,
        (run nesting fault stack' tokens).2) := by
  simp only [run, h.push]

/-- After a token that completes a form, the reader goes on with the form. -/
theorem run_of_takes_complete {form : Value}
    (h : Takes nesting stack token (complete form base)) (tokens : List Token) :
    run nesting fault stack (token :: tokens) = resumeAll nesting fault base [form] tokens :=
  run_of_takes h tokens

/-- A token that is taken is taken some steps deeper as well, if the limit leaves room for them. -/
theorem Takes.deeper (h : Takes nesting stack token r) (hdepth : depth base = steps)
    (hlimit : nesting + steps ≤ limit) :
    Takes limit (stack.map (.deeper steps) ++ base) token (handOver steps base r) := by
  cases h with
  | @mark _ m h =>
    have hlt : depth (stack.map (.deeper steps) ++ base) + 1 < limit := by
      rw [depth_deeper hdepth]
      omega
    have htakes := Takes.mark (m := m) hlt
    rw [depth_deeper hdepth, Nat.add_right_comm] at htakes
    exact htakes
  | @opener _ b h =>
    have hlt : depth (stack.map (.deeper steps) ++ base) + 2 < limit := by
      rw [depth_deeper hdepth]
      omega
    have htakes := Takes.opener (b := b) hlt
    rw [depth_deeper hdepth, Nat.add_right_comm] at htakes
    exact htakes
  | closer h =>
    rw [← complete_deeper]
    exact .closer (enclose_of_ok h _)
  | text h =>
    rw [← complete_deeper]
    exact .text h
  | word h =>
    rw [← complete_deeper]
    exact .word h

/-- A token that gives out a form leaves nothing open. -/
theorem Takes.eq_nil_of_some (h : Takes nesting stack token r) {form : Value}
    (hform : r.2 = some form) : r.1 = [] := by
  cases h with
  | mark | opener => cases hform
  | closer | text | word => exact complete_some (Prod.ext rfl hform)

/-- Tokens that are read without a fault are read so in front of any others, inside whatever is
open, if the limit leaves room for that. -/
theorem run_append (htakes : TakesForms base) (hdepth : depth base = steps)
    (hlimit : nesting + steps ≤ limit) {tokens : List Token} {forms : List Value}
    (h : run nesting none stack tokens = (forms, none)) (others : List Token) :
    run limit fault (stack.map (.deeper steps) ++ base) (tokens ++ others) =
      resumeAll limit fault base forms others := by
  induction tokens generalizing stack base forms with
  | nil =>
    cases stack with
    | nil =>
      cases h
      rfl
    | cons pending stack => cases pending <;> cases h
  | cons token tokens ih =>
    simp only [run] at h
    cases hpush : push nesting stack token with
    | error e =>
      rw [hpush] at h
      cases h
    | ok r =>
      obtain ⟨stack', form?⟩ := r
      rw [hpush] at h
      obtain ⟨rfl, hnone⟩ := Prod.ext_iff.1 h
      have hrun : run nesting none stack' tokens = ((run nesting none stack' tokens).1, none) :=
        Prod.ext rfl hnone
      have htoken := takes_of_push hpush
      simp only [List.cons_append, run, (htoken.deeper hdepth hlimit).push]
      cases form? with
      | none =>
        -- The token belongs to a form that is still to be completed.
        simpa [handOver] using ih htakes hdepth hrun
      | some form =>
        obtain rfl : stack' = [] := htoken.eq_nil_of_some rfl
        obtain ⟨htakes', hdepth'⟩ := takesForms_complete htakes form
        have hothers := ih htakes' (hdepth'.trans hdepth) hrun
        simp only [List.map_nil, List.nil_append] at hothers
        simp only [handOver, hothers]
        rfl

end Reader

end AtomLisp
