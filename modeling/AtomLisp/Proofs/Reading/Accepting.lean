import AtomLisp.Proofs.Reading.Shown

/-! # The reader accepts its grammar

  The reader takes every form of the grammar and nothing else. Tokens start with a run of forms,
  after which they end, or close what was not opened, or have no form in front: the reader gives
  out the forms of this run, and then it is at its end or at fault.

  * `Reader.Stuck`: tokens that no form is read from, and `Reader.Ends`: where runs of forms end;
  * `Reader.divided`: all tokens start with a run of forms that ends so;
  * `readAll_derives`: the forms of a text are those of the longest run of derivations.
-/

namespace AtomLisp

namespace Reader

open AtomLisp.Derivation

variable {nesting : Nat} {fault : Option SyntaxFault} {tokens : List Token}

/-! ### What brackets refuse -/

/-- There is a syntax error, or something is nested too deeply. -/
def Refused {α : Type} (x : Except Error α) : Prop :=
  x = .error .tooDeep ∨ ∃ fault, x = .error (.malformed fault)

theorem Refused.bind {α β : Type} {x : Except Error α} (h : Refused x) (f : α → Except Error β) :
    Refused (x >>= f) := by
  rcases h with rfl | ⟨fault, rfl⟩
  · exact .inl rfl
  · exact .inr ⟨fault, rfl⟩

variable (nesting) in
/-- Forms that are no keys and values in turn make no entries. -/
theorem mapEntries_refused {items : List Value} (hshow : ∀ item ∈ items, Showable item)
    (h : pairs? items = none) : Refused (mapEntries nesting items) := by
  fun_induction mapEntries nesting items with
  | case1 => cases h
  | case2 k v rest ih =>
    have hrest : pairs? rest = none := by simpa [pairs?] using h
    have hshow' : ∀ item ∈ rest, Showable item := fun item hitem => hshow item (by simp [hitem])
    exact (ih hshow' hrest).bind _
  | case3 k v rest hk =>
    cases hshown : k.inspect #[] nesting with
    | error e =>
      obtain rfl := hshow k (List.mem_cons_self ..) _ _ _ hshown
      exact .inl rfl
    | ok shown => exact .inr ⟨.mapKey shown, rfl⟩
  | case4 v => exact .inr ⟨.oddMap, rfl⟩

variable (nesting) in
/-- Forms that stand for nothing between brackets are not enclosed. -/
theorem enclose_refused {items : List Value} (hshow : ∀ item ∈ items, Showable item) {b : Bracket}
    (h : enclosed? items b = none) : Refused (enclose nesting items b) := by
  cases b with
  | round | square => cases h
  | curly =>
    have hpairs : pairs? items = none := by simpa [enclosed?] using h
    by_cases heven : items.length % 2 = 0
    · rw [enclose, if_pos heven]
      exact (mapEntries_refused nesting hshow hpairs).bind _
    · rw [enclose, if_neg heven]
      exact .inr ⟨.oddMap, rfl⟩

/-! ### Where no form is complete -/

variable (nesting fault) in
/-- The reader is at fault before the tokens give a form, unless they stand too deep. -/
def Stuck (tokens : List Token) : Prop :=
  ∀ stack, (run nesting fault stack tokens).2 ≠ some .tooDeep →
    ∃ fault', run nesting fault stack tokens = ([], some (.malformed fault'))

variable (nesting fault) in
/-- No form starts here: the tokens are used up, or the reader cannot go on. -/
inductive Ends : List Token → Prop
  | nil : Ends []
  | closer (b : Bracket) (others : List Token) : Ends (.closer b :: others)
  | stuck {tokens : List Token} (h : Stuck nesting fault tokens) : Ends tokens

theorem stuck_of_push {token : Token} {fault' : SyntaxFault}
    (h : ∀ stack, push nesting stack token = .error (.malformed fault')) :
    Stuck nesting fault (token :: tokens) := fun stack _ =>
  ⟨fault', by rw [run, h stack]⟩

/-- The end of the tokens is too early for what is still open. -/
theorem run_nil_of_open (pending : Pending) (stack : List Pending) :
    ∃ fault', run nesting fault (pending :: stack) [] = ([], some (.malformed fault')) := by
  cases fault with
  | some fault => exact ⟨fault, rfl⟩
  | none =>
    cases pending with
    | mark _ m => exact ⟨.endOfText, rfl⟩
    | bracket _ b items => exact ⟨.unclosed b.closing, rfl⟩

/-- A quote mark wants a form. -/
theorem stuck_mark {m : QuoteMark} (h : Ends nesting fault tokens) :
    Stuck nesting fault (.mark m :: tokens) := by
  intro stack hrun
  have hopen := run_mark hrun
  rw [hopen] at hrun ⊢
  cases h with
  | nil => exact run_nil_of_open _ stack
  | closer b others => exact ⟨.unexpectedCloser b.closing, rfl⟩
  | stuck h => exact h _ hrun

/-- An opening bracket wants its closing one, and forms in between that have a meaning there. -/
theorem stuck_opener {b : Bracket} {ds : List Derivation} {forms : List Value}
    (hforms : forms? ds = some forms) (h : Ends nesting fault tokens)
    (hclosed : ∀ others, tokens = .closer b :: others → enclosed? forms b = none) :
    Stuck nesting fault (.opener b :: (tokensAll ds ++ tokens)) := by
  intro stack hrun
  have hopen := run_opener hrun
  rw [hopen] at hrun ⊢
  have hinner := run_tokensAll hforms hrun
  rw [hinner, resumeAll_bracket, List.append_nil] at hrun ⊢
  cases h with
  | nil => exact run_nil_of_open _ stack
  | stuck h => exact h _ hrun
  | closer b' others =>
    by_cases hb : b' = b
    · subst hb
      have henclosed := hclosed others rfl
      simp only [run, push, if_true, List.reverse_reverse] at hrun ⊢
      have hrefused := enclose_refused nesting (showable_forms? hforms) henclosed
      rcases hrefused with hdeep | ⟨fault', hfault⟩
      · rw [hdeep] at hrun
        exact absurd rfl hrun
      · rw [hfault]
        exact ⟨fault', rfl⟩
    · refine ⟨.mismatched b.closing b'.closing, ?_⟩
      simp only [run, push, if_neg hb]

variable (nesting fault) in
/-- The tokens start with a run of forms after which no other form is complete. -/
def Divided (tokens : List Token) : Prop :=
  ∃ ds forms rest, tokens = tokensAll ds ++ rest ∧ forms? ds = some forms ∧
    Ends nesting fault rest

theorem Ends.divided (h : Ends nesting fault tokens) : Divided nesting fault tokens :=
  ⟨[], [], tokens, rfl, rfl, h⟩

theorem Divided.cons {d : Derivation} {form : Value} (hform : d.form? = some form)
    (h : Divided nesting fault tokens) : Divided nesting fault (d.tokens ++ tokens) := by
  obtain ⟨ds, forms, rest, rfl, hforms, hends⟩ := h
  refine ⟨d :: ds, form :: forms, rest, ?_, ?_, hends⟩
  · rw [tokensAll, List.append_assoc]
  · simp [forms?, hform, hforms]

variable (nesting fault) in
/-- All tokens start with such a run. -/
theorem divided (tokens : List Token) (hshort : ∀ token ∈ tokens, token.IsShort) :
    Divided nesting fault tokens := by
  -- What follows a closed bracket is no part of what follows its opening by itself.
  induction hlength : tokens.length using Nat.strongRecOn generalizing tokens with
  | ind length ih =>
    subst hlength
    have hsub : ∀ others : List Token, others <:+ tokens → others.length < tokens.length →
        Divided nesting fault others := fun others hsuffix hlt =>
      ih _ hlt others (fun token htoken => hshort token (hsuffix.subset htoken)) rfl
    cases tokens with
    | nil => exact Ends.nil.divided
    | cons token others =>
      have hothers := hsub others (List.suffix_cons ..) (Nat.lt_succ_self _)
      cases token with
      | closer b => exact (Ends.closer b others).divided
      | word cs =>
        obtain ⟨form, hform⟩ := exists_word (hshort (.word cs) (List.mem_cons_self ..))
        have hword : (Derivation.word cs).form? = some form := by
          rw [form?, hform]
          rfl
        exact hothers.cons hword
      | text body =>
        cases hbody : Literal.decode body with
        | ok s =>
          have htext : (Derivation.text body).form? = some (.text s) := by
            rw [form?, literal?_eq, hbody]
            rfl
          exact hothers.cons htext
        | error fault' =>
          have hpush : ∀ stack, push nesting stack (.text body) = .error (.malformed fault') :=
            fun stack => by simp only [push, hbody]
          exact (Ends.stuck (stuck_of_push hpush)).divided
      | mark m =>
        obtain ⟨ds, forms, rest, rfl, hforms, hends⟩ := hothers
        cases ds with
        | nil => exact (Ends.stuck (stuck_mark hends)).divided
        | cons d ds =>
          -- The mark takes the first form, and the others follow.
          obtain ⟨form, restForms, hform, hrest, rfl⟩ := forms?_cons hforms
          have hfollow : Divided nesting fault (tokensAll ds ++ rest) :=
            ⟨ds, restForms, rest, rfl, hrest, hends⟩
          have hmarked : (Derivation.marked m d).form? = some (.form [.symbol m.symbol, form]) := by
            rw [form?, hform]
            rfl
          rw [tokensAll, List.append_assoc]
          exact hfollow.cons hmarked
      | opener b =>
        obtain ⟨ds, forms, rest, rfl, hforms, hends⟩ := hothers
        by_cases hclosed : ∀ after, rest = .closer b :: after → enclosed? forms b = none
        · exact (Ends.stuck (stuck_opener hforms hends hclosed)).divided
        · simp only [not_forall] at hclosed
          obtain ⟨after, rfl, hsome⟩ := hclosed
          obtain ⟨form, hform⟩ := Option.ne_none_iff_exists'.1 hsome
          have hbracketed : (Derivation.bracketed b ds).form? = some form := by
            rw [form?, hforms]
            exact hform
          have hafter : Divided nesting fault after := by
            apply hsub after
            · exact ⟨.opener b :: (tokensAll ds ++ [.closer b]), by simp⟩
            · simp only [List.length_cons, List.length_append]
              omega
          simpa [Derivation.tokens] using hafter.cons hbracketed

/-- After its last form the reader is at the end of the tokens, or at fault. -/
theorem Ends.run_eq (h : Ends nesting fault tokens)
    (hdepth : (run nesting fault [] tokens).2 ≠ some .tooDeep) :
    tokens = [] ∧ run nesting fault [] tokens = ([], fault.map .malformed) ∨
      tokens ≠ [] ∧ ∃ fault', run nesting fault [] tokens = ([], some (.malformed fault')) := by
  cases h with
  | nil => exact .inl ⟨rfl, by cases fault <;> rfl⟩
  | closer b others => exact .inr ⟨List.cons_ne_nil _ _, .unexpectedCloser b.closing, rfl⟩
  | stuck h =>
    obtain ⟨fault', hrun⟩ := h [] hdepth
    cases tokens with
    | nil => exact .inl ⟨rfl, by cases fault <;> rfl⟩
    | cons token others => exact .inr ⟨List.cons_ne_nil _ _, fault', hrun⟩

/-- Where the reader is at its end or at fault, there is no form, unless it stands too deep. -/
theorem Ends.ne_tokens_append (h : Ends nesting fault tokens)
    (hdepth : (run nesting fault [] tokens).2 ≠ some .tooDeep) {d : Derivation} {form : Value}
    (hform : d.form? = some form) (others : List Token) : tokens ≠ d.tokens ++ others := by
  rintro rfl
  have hrun := run_tokens hform hdepth
  rcases h.run_eq hdepth with ⟨hnil, hend⟩ | ⟨-, fault', hfault⟩
  · rw [hrun] at hend
    cases hend
  · rw [hrun] at hfault
    cases hfault

end Reader

/-! ### The reader accepts its grammar -/

/-- Tokens start with segments that derive the forms. -/
def Leads (segments : List (List Token)) (forms : List Value) (tokens : List Token) : Prop :=
  segments.flatten <+: tokens ∧ List.Forall₂ Derivation.Derives segments forms

/-- The forms of the longest run of segments that tokens start with. -/
def IsLongest (forms : List Value) (tokens : List Token) : Prop :=
  ∃ segments, Leads segments forms tokens ∧
    ∀ segments' forms', Leads segments' forms' tokens → segments' <+: segments

/-- A text consists of segments that derive the forms, and ends as it should. -/
def Consists (s : String) (forms : List Value) : Prop :=
  (Token.ofText s).2 = none ∧
    ∃ segments, segments.flatten = (Token.ofText s).1 ∧
      List.Forall₂ Derivation.Derives segments forms

section

open AtomLisp.Derivation Reader

variable {nesting : Nat} {fault : Option SyntaxFault} {tokens : List Token}

/-- The reader gives out the forms of the run, and nothing of what comes then. -/
theorem run_divided (h : Divided nesting fault tokens)
    (hdepth : (run nesting fault [] tokens).2 ≠ some .tooDeep) :
    ∃ ds forms rest, tokens = tokensAll ds ++ rest ∧ forms? ds = some forms ∧
      Ends nesting fault rest ∧
        run nesting fault [] tokens = (forms, (run nesting fault [] rest).2) := by
  obtain ⟨ds, forms, rest, rfl, hforms, hends⟩ := h
  refine ⟨ds, forms, rest, rfl, hforms, hends, ?_⟩
  have hrun := run_tokensAll hforms hdepth
  rw [resumeAll_nil] at hrun
  rw [hrun] at hdepth ⊢
  have hfirst : (run nesting fault [] rest).1 = [] := by
    rcases hends.run_eq hdepth with ⟨-, hend⟩ | ⟨-, fault', hend⟩
    all_goals rw [hend]
  rw [hfirst, List.append_nil]

/-- What is read are the forms of the longest run of segments. -/
theorem isLongest_run (h : Divided nesting fault tokens)
    (hdepth : (run nesting fault [] tokens).2 ≠ some .tooDeep) :
    IsLongest (run nesting fault [] tokens).1 tokens := by
  obtain ⟨ds, forms, rest, rfl, hforms, hends, hrun⟩ := run_divided h hdepth
  rw [hrun] at hdepth ⊢
  refine ⟨ds.map Derivation.tokens, ⟨?_, derives_of_forms? hforms⟩, ?_⟩
  · rw [← tokensAll_eq]
    exact List.prefix_append _ _
  · rintro segments' forms' ⟨⟨rest', hrest'⟩, hderives'⟩
    obtain ⟨ds', rfl, hforms'⟩ := exists_of_derives hderives'
    rw [← tokensAll_eq] at hrest'
    rcases prefix_or_exists hrest'.symm with hprefix | ⟨d, others, rfl, hothers⟩
    · exact hprefix.map _
    · -- A longer run would go on where the reader finds no form.
      have hd : d ∈ ds ++ d :: others := by simp
      obtain ⟨form, hform⟩ := exists_form?_of_mem hforms' hd
      rw [tokensAll, List.append_assoc] at hothers
      exact absurd hothers (hends.ne_tokens_append hdepth hform _)

/-- All tokens belong to the run and the text ends as it should, or there is a syntax error. -/
theorem all_or_malformed (h : Divided nesting fault tokens)
    (hdepth : (run nesting fault [] tokens).2 ≠ some .tooDeep) :
    (fault = none ∧ ∃ segments, segments.flatten = tokens ∧
      List.Forall₂ Derives segments (run nesting fault [] tokens).1) ∨
      ∃ fault', (run nesting fault [] tokens).2 = some (.malformed fault') := by
  obtain ⟨ds, forms, rest, rfl, hforms, hends, hrun⟩ := run_divided h hdepth
  rw [hrun] at hdepth ⊢
  rcases hends.run_eq hdepth with ⟨rfl, hend⟩ | ⟨-, fault', hend⟩
  · cases fault with
    | none =>
      refine .inl ⟨rfl, ds.map Derivation.tokens, ?_, derives_of_forms? hforms⟩
      rw [← tokensAll_eq, List.append_nil]
    | some fault => exact .inr ⟨fault, congrArg Prod.snd hend⟩
  · exact .inr ⟨fault', congrArg Prod.snd hend⟩

/-- Segments that make up all tokens are read as their forms. -/
theorem run_of_derives {segments : List (List Token)} {forms : List Value}
    (h : List.Forall₂ Derives segments forms)
    (hdepth : (run nesting none [] segments.flatten).2 ≠ some .tooDeep) :
    run nesting none [] segments.flatten = (forms, none) := by
  obtain ⟨ds, rfl, hforms⟩ := exists_of_derives h
  rw [← tokensAll_eq] at hdepth ⊢
  rw [← List.append_nil (tokensAll ds)] at hdepth ⊢
  rw [run_tokensAll hforms hdepth, resumeAll_nil]
  simp only [run, atEnd, List.append_nil]

/-- **The reader accepts exactly its grammar.** Let a text have no integer that is too long and not
be nested too deeply. It reads as some forms without an error if and only if it consists of
segments that derive these forms one by one. Otherwise it reads as the forms of the longest run of
segments that it starts with, and then there is a syntax error. And there is one derivation at
most. -/
theorem readAll_derives (nesting : Nat) (s : String)
    (hshort : ∀ token ∈ (Token.ofText s).1, token.IsShort)
    (hdepth : (readAll nesting s).2 ≠ some .tooDeep) :
    (∀ forms, readAll nesting s = (forms, none) ↔ Consists s forms) ∧
      ((¬ ∃ forms, Consists s forms) →
        IsLongest (readAll nesting s).1 (Token.ofText s).1 ∧
          ∃ fault, (readAll nesting s).2 = some (.malformed fault)) ∧
      ∀ ds ds', tokensAll ds = tokensAll ds' → ds = ds' := by
  have hdivided := divided nesting (Token.ofText s).2 (Token.ofText s).1 hshort
  have hread : ∀ forms, readAll nesting s = (forms, none) ↔ Consists s forms := by
    intro forms
    constructor
    · intro h
      have hforms : (readAll nesting s).1 = forms := congrArg Prod.fst h
      rcases all_or_malformed hdivided hdepth with hall | ⟨fault, hfault⟩
      · rw [← hforms]
        exact hall
      · have hnone : (readAll nesting s).2 = none := congrArg Prod.snd h
        exact absurd (hnone.symm.trans hfault) nofun
    · rintro ⟨hnone, segments, hsegments, hderives⟩
      simp only [readAll, hnone, ← hsegments] at hdepth ⊢
      exact run_of_derives hderives hdepth
  refine ⟨hread, fun hnot => ⟨isLongest_run hdivided hdepth, ?_⟩, fun _ _ => tokensAll_injective⟩
  rcases all_or_malformed hdivided hdepth with hall | hfault
  · exact absurd ⟨_, hall⟩ hnot
  · exact hfault

end

/-- A closing bracket that closes nothing ends the longest run of forms. -/
theorem readAll_strayCloser :
    let s := "(a '[1 \x7b:k \"b\"\x7d]) ]"
    let form : Value := .form [.symbol "a", .form [.symbol "quote",
      .vector 0 [.int 1, .map 0 [("ʞk", .text "b")]]]]
    (∀ token ∈ (Token.ofText s).1, token.IsShort) ∧
      Reader.readAll 9 s = ([form], some (.malformed (.unexpectedCloser ']'))) ∧
      (¬ ∃ forms, Consists s forms) ∧ IsLongest [form] (Token.ofText s).1 := by
  intro s form
  have hshort : ∀ token ∈ (Token.ofText s).1, token.IsShort := by decide +kernel
  have hread : Reader.readAll 9 s = ([form], some (.malformed (.unexpectedCloser ']'))) := by
    decide +kernel
  have hdepth : (Reader.readAll 9 s).2 ≠ some .tooDeep := by
    rw [hread]
    decide
  obtain ⟨hreads, hlongest, -⟩ := readAll_derives 9 s hshort hdepth
  have hnot : ¬ ∃ forms, Consists s forms := by
    rintro ⟨forms, hforms⟩
    have hend := (hreads forms).2 hforms
    rw [hread] at hend
    cases hend
  have hform : (Reader.readAll 9 s).1 = [form] := by rw [hread]
  exact ⟨hshort, hread, hnot, hform ▸ (hlongest hnot).1⟩

end AtomLisp
