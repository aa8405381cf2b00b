import AtomLisp.Proofs.Reading.Accepting
import AtomLisp.Proofs.Reading.Joining
import AtomLisp.Proofs.Writing

/-! # Reading a wrapped text

  To load a file, `(do ` is put in front of its text and `nil)` on a line behind it, and the first
  form of that is taken. Nothing sees to it that this form ends with the wrapper: the text may close
  the wrapper's bracket itself, and what the text lacks the wrapper may have. This module says which
  texts complete the form of the wrapper, and shows that all others are refused.

  * `Reader.run_within`: a text that is at fault by itself is at fault inside a bracket, too, if it
    does not close the bracket;
  * `Reader.Completes`: the text completes the form of the wrapper; `Reader.Completes.hidden`: which
    faults it may have then;
  * `Reader.readFirst_of_completes`, `Reader.readFirst_of_not_completes`: what the wrapped text
    reads as.
-/

namespace AtomLisp

namespace Reader

variable {nesting limit : Nat} {fault fault' : Option SyntaxFault} {stack : List Pending}
  {tokens tokens' : List Token}

/-- Between brackets, a syntax error stays one when more steps are allowed. -/
theorem mapEntries_malformed {items : List Value} {fault : SyntaxFault}
    (h : mapEntries nesting items = .error (.malformed fault)) (hle : nesting ≤ limit) :
    mapEntries limit items = .error (.malformed fault) := by
  fun_induction mapEntries nesting items with
  | case1 => cases h
  | case2 k v rest ih =>
    rw [mapEntries]
    rcases error_of_bind h with herror | ⟨entries, -, hok⟩
    · rw [ih herror]
      rfl
    · cases hok
  | case3 k v rest hk =>
    rcases error_of_bind h with herror | ⟨shown, hshown, herror⟩
    · rcases Value.inspectWithin_error herror with hdeep | ⟨hlong, -⟩
      · cases hdeep
      · cases hlong
    · rw [mapEntries]
      · have hshown' : k.inspect #[] limit = .ok shown := Value.inspectWithin_of_le hshown hle
        rw [hshown']
        exact herror
      · exact hk
  | case4 v => simpa [mapEntries] using h

theorem enclose_malformed {items : List Value} {b : Bracket} {fault : SyntaxFault}
    (h : enclose nesting items b = .error (.malformed fault)) (hle : nesting ≤ limit) :
    enclose limit items b = .error (.malformed fault) := by
  cases b with
  | round | square => cases h
  | curly =>
    unfold enclose at h ⊢
    by_cases heven : items.length % 2 = 0
    · rw [if_pos heven] at h ⊢
      rcases error_of_bind h with herror | ⟨entries, -, hok⟩
      · rw [mapEntries_malformed herror hle]
        rfl
      · cases hok
    · rwa [if_neg heven] at h ⊢

/-! ### Syntax errors and no others -/

/-- There is no error, or a syntax error. -/
def SyntaxOnly (error? : Option Error) : Prop :=
  ∀ e, error? = some e → ∃ fault, e = .malformed fault

theorem syntaxOnly_malformed (fault : SyntaxFault) : SyntaxOnly (some (.malformed fault)) := by
  rintro _ ⟨⟩
  exact ⟨fault, rfl⟩

variable (fault stack) in
theorem syntaxOnly_atEnd : SyntaxOnly (atEnd fault stack) := by
  intro e he
  unfold atEnd at he
  split at he
  all_goals
    cases he
    try exact ⟨_, rfl⟩

/-- An open literal is where the reader stops at the latest, so tokens that are the same up to there
are read the same. -/
theorem run_of_diverge (h : Token.Diverge tokens tokens') :
    run nesting fault stack tokens = run nesting fault' stack tokens' := by
  induction h generalizing stack with
  | here hopen hopen' others others' =>
    simp only [run, push, Literal.decode, hopen, hopen']
  | cons token h ih => simp only [run, ih]

/-- Tokens that are read to a syntax error, or to none, are so in front of others that are. -/
theorem SyntaxOnly.append (h : SyntaxOnly (run nesting fault stack tokens).2)
    {others : List Token} (hothers : ∀ stack, SyntaxOnly (run nesting fault' stack others).2) :
    SyntaxOnly (run nesting fault' stack (tokens ++ others)).2 := by
  induction tokens generalizing stack with
  | nil => exact hothers stack
  | cons token tokens ih =>
    simp only [List.cons_append, run] at h ⊢
    cases hpush : push nesting stack token with
    | error e =>
      rw [hpush] at h
      exact h
    | ok r =>
      rw [hpush] at h
      exact ih h

/-! ### Inside a bracket that stays open -/

variable {inner steps : Nat} {items : List Value}

/-- A token at fault is at fault some steps deeper as well, in a bracket that it does not close. -/
theorem push_within {token : Token} {fault : SyntaxFault}
    (h : push nesting stack token = .error (.malformed fault)) (hle : nesting ≤ limit)
    (hinside : stack = [] → token ≠ .closer .round) :
    ∃ fault', push limit (stack.map (.deeper steps) ++ [.bracket inner .round items]) token =
      .error (.malformed fault') := by
  cases token with
  | mark m | opener b =>
    simp only [push, open?] at h
    split at h <;> cases h
  | text body =>
    simp only [push] at h ⊢
    cases hbody : Literal.decode body with
    | ok s =>
      rw [hbody] at h
      cases h
    | error fault' => exact ⟨fault', rfl⟩
  | word cs =>
    rcases error_of_bind h with herror | ⟨form, -, hok⟩
    · refine ⟨fault, ?_⟩
      simp only [push, herror]
      rfl
    · cases hok
  | closer b =>
    cases stack with
    | nil =>
      have hb : b ≠ .round := fun hb => hinside rfl (by rw [hb])
      refine ⟨.mismatched Bracket.round.closing b.closing, ?_⟩
      simp only [push, List.map_nil, List.nil_append, if_neg hb]
    | cons pending stack =>
      cases pending with
      | mark depth m => exact ⟨.unexpectedCloser b.closing, rfl⟩
      | bracket depth b' items' =>
        by_cases hb : b = b'
        · -- The bracket is closed, but what is in it has no meaning there.
          simp only [push, if_pos hb] at h
          rcases error_of_bind h with herror | ⟨form, -, hok⟩
          · refine ⟨fault, ?_⟩
            simp only [push, List.map_cons, List.cons_append, Pending.deeper, if_pos hb]
            rw [enclose_malformed herror hle]
            rfl
          · cases hok
        · refine ⟨.mismatched b'.closing b.closing, ?_⟩
          simp only [push, List.map_cons, List.cons_append, Pending.deeper, if_neg hb]

/-- Tokens that are read by themselves to a syntax error, or to none, end in a syntax error inside a
bracket, unless they close it. -/
theorem run_within (hlimit : nesting + 2 ≤ limit)
    (hclosed : ∀ before after forms, tokens = before ++ .closer .round :: after →
      run nesting none stack before ≠ (forms, none))
    (h : SyntaxOnly (run nesting fault stack tokens).2) :
    ∃ fault', run limit fault (stack.map (.deeper 2) ++ [.bracket 2 .round items]) tokens =
      ([], some (.malformed fault')) := by
  -- Token by token: what is open above the bracket changes, and so do the forms that it has.
  induction tokens generalizing stack items with
  | nil =>
    cases stack with
    | nil => exact run_nil_of_open _ _
    | cons pending stack => exact run_nil_of_open _ _
  | cons token tokens ih =>
    simp only [run] at h
    cases hpush : push nesting stack token with
    | error e =>
      rw [hpush] at h
      obtain ⟨fault₁, rfl⟩ := h e rfl
      -- A closing bracket where nothing is open would have closed the one around.
      have hinside : stack = [] → token ≠ .closer .round := by
        rintro rfl rfl
        exact hclosed [] tokens [] rfl rfl
      obtain ⟨fault', hfault⟩ := push_within hpush (Nat.le_of_add_right_le hlimit) hinside
      exact ⟨fault', by rw [run, hfault]⟩
    | ok r =>
      obtain ⟨stack', form?⟩ := r
      rw [hpush] at h
      have htoken := takes_of_push hpush
      have hclosed' : ∀ before after forms, tokens = before ++ .closer .round :: after →
          run nesting none stack' before ≠ (forms, none) := by
        rintro before after forms rfl hbefore
        refine hclosed (token :: before) after (form?.toList ++ forms) rfl ?_
        simp only [run, hpush, hbefore]
      have hdepth : depth [Pending.bracket 2 .round items] = 2 := rfl
      cases form? with
      | none =>
        -- The token belongs to a form that is still to be completed.
        obtain ⟨fault', hfault⟩ := ih hclosed' h
        refine ⟨fault', ?_⟩
        rw [run_of_takes (htoken.deeper hdepth hlimit) tokens, hfault]
        rfl
      | some form =>
        -- The form that is given out by itself goes to the bracket.
        obtain rfl : stack' = [] := htoken.eq_nil_of_some rfl
        have htakes : Takes limit (stack.map (.deeper 2) ++ [.bracket 2 .round items]) token
            ([.bracket 2 .round (form :: items)], none) := htoken.deeper hdepth hlimit
        obtain ⟨fault', hfault⟩ := ih hclosed' h
        simp only [List.map_nil, List.nil_append] at hfault
        refine ⟨fault', ?_⟩
        rw [run_of_takes htakes tokens, hfault]
        rfl

end Reader

/-! ### The wrapper -/

/-- The text that `load-file` makes of the text of a file. -/
def wrapped (content : String) : String := "(do " ++ content ++ "\nnil)"

namespace Token

/-- A separator in front of a text is no part of a token. -/
theorem split_cons_separator {c : Char} (hc : isSeparator c = true) (cs : List Char) :
    (split (c :: cs)).1 = (split cs).1 := by
  have hdrop : (c :: cs).dropWhile isSeparator = cs.dropWhile isSeparator :=
    List.dropWhile_cons_of_pos hc
  cases hcs : cs.dropWhile isSeparator with
  | nil => rw [split_of_nil hcs, split_of_nil (hdrop.trans hcs)]
  | cons d rest => rw [split_of_cons hcs, split_of_cons (hdrop.trans hcs)]

theorem split_do (cs : List Char) :
    (split ('(' :: 'd' :: 'o' :: ' ' :: cs)).1 =
      .opener .round :: .word ['d', 'o'] :: (split cs).1 := by
  have hopener : ('(' :: 'd' :: 'o' :: ' ' :: cs).dropWhile isSeparator =
      '(' :: 'd' :: 'o' :: ' ' :: cs := rfl
  have hword : ('d' :: 'o' :: ' ' :: cs).dropWhile isSeparator = 'd' :: 'o' :: ' ' :: cs := rfl
  have hblank : isSeparator ' ' = true := by decide
  rw [split_of_cons hopener]
  show Token.opener .round :: (split ('d' :: 'o' :: ' ' :: cs)).1 = _
  rw [split_of_cons hword]
  show Token.opener .round :: .word ['d', 'o'] :: (split (' ' :: cs)).1 = _
  rw [split_cons_separator hblank]

/-- The tokens of a text with the end of the wrapper behind it. -/
def tokensToEnd (content : String) : List Token :=
  (split (content.toList ++ '\n' :: ['n', 'i', 'l', ')'])).1

theorem ofText_wrapped (content : String) :
    (ofText (wrapped content)).1 =
      .opener .round :: .word ['d', 'o'] :: tokensToEnd content := by
  have htoList : (wrapped content).toList = '(' :: 'd' :: 'o' :: ' ' ::
      (content.toList ++ '\n' :: ['n', 'i', 'l', ')']) := by simp [wrapped]
  rw [ofText, htoList, split_do]
  rfl

variable {content : String}

/-- A text leaves a literal open, or the end of the wrapper adds its tokens. -/
theorem tokensToEnd_cases (content : String) :
    ((∀ body, .text body ∈ (ofText content).1 → Literal.decodeBody body ≠ none) ∧
      tokensToEnd content = (ofText content).1 ++ [.word ['n', 'i', 'l'], .closer .round]) ∨
        Diverge (ofText content).1 (tokensToEnd content) := by
  have hquote : '\"' ∉ ['n', 'i', 'l', ')'] := by decide
  have hend : split ['n', 'i', 'l', ')'] = ([.word ['n', 'i', 'l'], .closer .round], []) := by
    decide +kernel
  rcases split_closed_or_diverge content.toList hquote with hclosed | hdiverge
  · refine .inl ⟨hclosed, ?_⟩
    rw [tokensToEnd, split_append_newline hclosed, hend]
    rfl
  · exact .inr hdiverge

/-- A text that leaves no literal open, with `nil` in a line of its own. -/
theorem ofText_append_nil
    (hclosed : ∀ body, .text body ∈ (ofText content).1 → Literal.decodeBody body ≠ none) :
    ofText (content ++ "\nnil") = ((ofText content).1 ++ [.word ['n', 'i', 'l']], none) := by
  have htoList : (content ++ "\nnil").toList = content.toList ++ '\n' :: ['n', 'i', 'l'] := by simp
  have hend : split ['n', 'i', 'l'] = ([.word ['n', 'i', 'l']], []) := by decide +kernel
  have hblank : ['n', 'i', 'l'].dropWhile isSeparator ≠ [] := by decide
  simp only [ofText, htoList, split_append_newline hclosed, hend, if_neg hblank]
  rfl

/-- A literal that a text leaves open is open with `nil` in the next line, too. -/
theorem exists_open_append_nil (h : Diverge (ofText content).1 (tokensToEnd content)) :
    ∃ body, .text body ∈ (ofText (content ++ "\nnil")).1 ∧ Literal.decodeBody body = none := by
  have htoList : (content ++ "\nnil").toList = content.toList ++ '\n' :: ['n', 'i', 'l'] := by simp
  have hquote : '\"' ∉ ['n', 'i', 'l'] := by decide
  rcases split_closed_or_diverge content.toList hquote with hclosed | hdiverge
  · obtain ⟨body, hbody, hopen⟩ := h.symm.exists_open
    exact absurd hopen (hclosed body hbody)
  · rw [ofText, htoList]
    exact hdiverge.exists_open

end Token

namespace Reader

variable {nesting limit : Nat} {fault : Option SyntaxFault} {stack : List Pending}
  {tokens : List Token} {content : String} {forms : List Value}

/-- The `nil` of the wrapper goes where a form is wanted. -/
theorem takes_nil (stack : List Pending) :
    Takes nesting stack (.word ['n', 'i', 'l']) (complete .nil stack) :=
  .word (show word ['n', 'i', 'l'] = .ok .nil by decide)

/-- The text completes the form of the wrapper, in which these forms follow `do`. -/
inductive Completes (nesting : Nat) (content : String) (forms : List Value) : Prop
  /-- Somewhere in the text a bracket is closed that is not open there; what follows does not
  matter. -/
  | closed (before after : List Token)
      (htokens : (Token.ofText content).1 = before ++ .closer .round :: after)
      (hread : run nesting none [] before = (forms, none))
  /-- With `nil` in a line of its own the text reads without an error. -/
  | continued (hread : readAll nesting (content ++ "\nnil") = (forms, none))

/-- The bracket of the wrapper is closed where the text or the end of the wrapper closes it. -/
theorem completes_iff :
    Completes nesting content forms ↔ ∃ before after,
      Token.tokensToEnd content = before ++ .closer .round :: after ∧
        run nesting none [] before = (forms, none) := by
  have hclosedBefore : ∀ before, run nesting none [] before = (forms, none) →
      ∀ body, .text body ∈ before ++ [Token.closer .round] → Literal.decodeBody body ≠ none := by
    intro before hread body hbody
    exact decodeBody_ne_none (congrArg Prod.snd hread) (by simpa using hbody)
  constructor
  · rintro (⟨before, after, htokens, hread⟩ | hread)
    · rcases Token.tokensToEnd_cases content with ⟨-, hend⟩ | hdiverge
      · refine ⟨before, after ++ [.word ['n', 'i', 'l'], .closer .round], ?_, hread⟩
        rw [hend, htokens, List.append_assoc, List.cons_append]
      · obtain ⟨after', hafter⟩ := hdiverge.front htokens (hclosedBefore before hread)
        exact ⟨before, after', hafter, hread⟩
    · rcases Token.tokensToEnd_cases content with ⟨hclosed, hend⟩ | hdiverge
      · rw [readAll, Token.ofText_append_nil hclosed] at hread
        refine ⟨(Token.ofText content).1 ++ [.word ['n', 'i', 'l']], [], ?_, hread⟩
        rw [hend, List.append_assoc]
        rfl
      · obtain ⟨body, hbody, hopen⟩ := Token.exists_open_append_nil hdiverge
        exact absurd hopen (decodeBody_ne_none (congrArg Prod.snd hread) hbody)
  · rintro ⟨before, after, htokens, hread⟩
    rcases Token.tokensToEnd_cases content with ⟨hclosed, hend⟩ | hdiverge
    · rw [hend] at htokens
      rcases List.append_eq_append_iff.1 htokens with ⟨mid, hbefore, hmid⟩ | ⟨mid, hafter, hmid⟩
      · -- The bracket that is closed is that of the wrapper, or none is.
        rcases mid with _ | ⟨token, _ | ⟨token', mid⟩⟩
        · cases hmid
        · cases hmid
          refine .continued ?_
          rw [readAll, Token.ofText_append_nil hclosed, ← hbefore]
          exact hread
        · simp at hmid
      · -- It is closed in the text.
        cases mid with
        | nil => cases hmid
        | cons token mid =>
          cases hmid
          exact .closed before mid hafter hread
    · obtain ⟨after', hafter⟩ := hdiverge.symm.front htokens (hclosedBefore before hread)
      exact .closed before after' hafter hread

/-- A text that reads without an error completes the form of the wrapper with its forms. -/
theorem Completes.of_readAll (h : readAll nesting content = (forms, none)) :
    Completes nesting content (forms ++ [.nil]) := by
  have hnone : (readAll nesting content).2 = none := congrArg Prod.snd h
  have hclosed : ∀ body, .text body ∈ (Token.ofText content).1 →
      Literal.decodeBody body ≠ none := fun body hbody => decodeBody_ne_none hnone hbody
  have hforms : run nesting none [] (Token.ofText content).1 = (forms, none) := by
    rw [readAll, fault_eq_none hnone] at h
    exact h
  have htakes : TakesForms [] := trivial
  have hnil : Takes nesting [] (.word ['n', 'i', 'l']) ([], some .nil) := takes_nil []
  refine .continued ?_
  rw [readAll, Token.ofText_append_nil hclosed]
  have hall : run nesting none [] ((Token.ofText content).1 ++ [.word ['n', 'i', 'l']]) =
      resumeAll nesting none [] forms [.word ['n', 'i', 'l']] :=
    run_append htakes rfl (Nat.le_refl _) hforms _
  rw [resumeAll_nil, run_of_takes hnil] at hall
  exact hall

/-! ### Faults that a wrapper hides -/

/-- A syntax error that does not show in the wrapper: a closing bracket too many, a quote mark
without a form at the end, or stray separators at the end. -/
inductive Hidden : SyntaxFault → Prop
  | unexpectedCloser : Hidden (.unexpectedCloser Bracket.round.closing)
  | endOfText : Hidden .endOfText
  | strayBlank (position : Nat) (c : Char) : Hidden (.strayBlank position c)

theorem hidden_trailingFault {length : Nat} {separators : List Char} {fault : SyntaxFault}
    (h : Token.trailingFault length separators = some fault) : Hidden fault := by
  unfold Token.trailingFault at h
  split at h
  · cases h
  · split at h
    · cases h
    · cases h
      exact .strayBlank _ _

/-- Where only `nil` is missing, the tokens end in quote marks, or the end of the text is at
fault. -/
theorem hidden_of_append_nil {e : SyntaxFault} (hfault : ∀ e, fault = some e → Hidden e)
    (hnil : (run nesting none stack (tokens ++ [.word ['n', 'i', 'l']])).2 = none)
    (h : (run nesting fault stack tokens).2 = some (.malformed e)) : Hidden e := by
  induction tokens generalizing stack with
  | nil =>
    cases fault with
    | some fault =>
      cases h
      exact hfault _ rfl
    | none =>
      match stack with
      | [] => cases h
      | .mark _ _ :: _ =>
        cases h
        exact .endOfText
      | .bracket inner b items :: stack =>
        -- The bracket takes the `nil` and is still open.
        rw [List.nil_append, run_of_takes (takes_nil _)] at hnil
        cases hnil
  | cons token tokens ih =>
    simp only [List.cons_append, run] at hnil h
    cases hpush : push nesting stack token with
    | error e' =>
      rw [hpush] at hnil
      cases hnil
    | ok r =>
      rw [hpush] at hnil h
      exact ih hnil h

/-- Only such syntax errors are hidden. -/
theorem Completes.hidden (h : Completes nesting content forms) {e : SyntaxFault}
    (hread : (readAll nesting content).2 = some (.malformed e)) : Hidden e := by
  cases h with
  | closed before after htokens hbefore =>
    have htakes : TakesForms [] := trivial
    have hall : run nesting (Token.ofText content).2 [] (before ++ .closer .round :: after) =
        resumeAll nesting (Token.ofText content).2 [] forms (.closer .round :: after) :=
      run_append htakes rfl (Nat.le_refl _) hbefore _
    rw [readAll, htokens, hall, resumeAll_nil] at hread
    cases hread
    exact .unexpectedCloser
  | continued hnil =>
    rcases Token.tokensToEnd_cases content with ⟨hclosed, -⟩ | hdiverge
    · rw [readAll, Token.ofText_append_nil hclosed] at hnil
      exact hidden_of_append_nil (fun _ => hidden_trailingFault) (congrArg Prod.snd hnil) hread
    · obtain ⟨body, hbody, hopen⟩ := Token.exists_open_append_nil hdiverge
      exact absurd hopen (decodeBody_ne_none (congrArg Prod.snd hnil) hbody)

/-! ### The first form of a wrapped text -/

/-- The bracket of the wrapper waits for the forms of the text. -/
theorem run_wrapped (content : String) (hlimit : 2 < limit) :
    readAll limit (wrapped content) = run limit (Token.ofText (wrapped content)).2
      [.bracket 2 .round [.symbol "do"]] (Token.tokensToEnd content) := by
  have hopener : Takes limit [] (.opener .round) ([.bracket 2 .round []], none) := .opener hlimit
  have hdo : Takes limit [.bracket 2 .round []] (.word ['d', 'o'])
      ([.bracket 2 .round [.symbol "do"]], none) := .word (show word ['d', 'o'] = _ by decide)
  rw [readAll, Token.ofText_wrapped]
  simp only [run_of_takes hopener, run_of_takes hdo]
  rfl

/-- What completes the form of the wrapper is its first form. -/
theorem readFirst_of_completes (h : Completes nesting content forms)
    (hlimit : nesting + 2 < limit) :
    readFirst limit (wrapped content) = .ok (.form (.symbol "do" :: forms)) := by
  obtain ⟨before, after, htokens, hread⟩ := completes_iff.1 h
  have htakes : TakesForms [Pending.bracket 2 .round [.symbol "do"]] := trivial
  have hcloser : Takes limit [.bracket 2 .round (forms.reverse ++ [.symbol "do"])]
      (.closer .round) ([], some (.form (.symbol "do" :: forms))) := by
    refine .closer ?_
    simp [enclose]
  have hforms : run limit (Token.ofText (wrapped content)).2 [.bracket 2 .round [.symbol "do"]]
      (before ++ .closer .round :: after) = _ :=
    run_append htakes rfl (Nat.le_of_lt hlimit) hread (.closer .round :: after)
  rw [resumeAll_bracket, run_of_takes hcloser] at hforms
  rw [readFirst, run_wrapped content (by omega), htokens, hforms]
  rfl

/-- The end of the wrapper is read to a syntax error, or to none. -/
theorem syntaxOnly_end (fault : Option SyntaxFault) (stack : List Pending) :
    SyntaxOnly (run nesting fault stack [.word ['n', 'i', 'l'], .closer .round]).2 := by
  rw [run_of_takes (takes_nil stack)]
  generalize (complete .nil stack).1 = stack'
  match stack' with
  | [] => exact syntaxOnly_malformed _
  | .mark _ _ :: _ => exact syntaxOnly_malformed _
  | .bracket inner b items :: stack' =>
    by_cases hb : b = .round
    · subst hb
      have hcloser : Takes nesting (.bracket inner .round items :: stack') (.closer .round)
          (complete (.list 0 items.reverse) stack') := .closer rfl
      rw [run_of_takes hcloser]
      exact syntaxOnly_atEnd _ _
    · simp only [run, push, if_neg (Ne.symm hb)]
      exact syntaxOnly_malformed _

/-- A text that reads to a syntax error, or to none, is refused in the wrapper if it does not
complete the form. -/
theorem readFirst_of_not_completes (h : ∀ forms, ¬ Completes nesting content forms)
    (hread : SyntaxOnly (readAll nesting content).2) (hlimit : nesting + 2 < limit) :
    ∃ fault, readFirst limit (wrapped content) = .error (.malformed fault) := by
  have hend : SyntaxOnly (run nesting (Token.ofText (wrapped content)).2 []
      (Token.tokensToEnd content)).2 := by
    -- The end of the wrapper adds no other errors, or is not read at all.
    rcases Token.tokensToEnd_cases content with ⟨-, hend⟩ | hdiverge
    · rw [hend]
      exact hread.append (syntaxOnly_end _)
    · rwa [← run_of_diverge hdiverge]
  have hclosed : ∀ before after forms,
      Token.tokensToEnd content = before ++ .closer .round :: after →
        run nesting none [] before ≠ (forms, none) :=
    fun before after forms htokens hread =>
      h forms (completes_iff.2 ⟨before, after, htokens, hread⟩)
  have hwithin : ∃ fault, run limit (Token.ofText (wrapped content)).2
      [.bracket 2 .round [.symbol "do"]] (Token.tokensToEnd content) =
        ([], some (.malformed fault)) :=
    run_within (Nat.le_of_lt hlimit) hclosed hend
  obtain ⟨fault, hfault⟩ := hwithin
  exact ⟨fault, by rw [readFirst, run_wrapped content (by omega), hfault]⟩

end Reader

end AtomLisp
