import AtomLisp.Proofs.Reading
import AtomLisp.Proofs.RoundTrip.Lexing
import Mathlib.Data.Option.Basic

/-! # Reading joined texts

  Two texts that are joined with a line feed read like the one text and then the other, provided
  that the first one reads without a fault: no token, comment or run of separators of the first
  text goes on behind the line feed, and no bracket or quote mark is left open.

  * `Token.split_append_newline`: the tokens of the joined text;
  * `Token.split_closed_or_diverge`: where a literal of the first text is open, it stays open;
  * `Reader.exists_readAll_append`: reading what goes on behind the first text;
  * `readAll_append_newline`: reading the joined text.
-/

namespace AtomLisp

namespace Token

variable {cs rest : List Char} {c : Char}

/-! ### One token in front of a line feed -/

theorem takeWhile_append_cons {p : Char → Bool} (hc : p c = false) (cs ds : List Char) :
    (cs ++ c :: ds).takeWhile p = cs.takeWhile p := by
  induction cs with
  | nil => simp [hc]
  | cons d cs ih => cases hd : p d <;> simp [hd, ih]

theorem dropWhile_append_cons {p : Char → Bool} (hc : p c = false) (cs ds : List Char) :
    (cs ++ c :: ds).dropWhile p = cs.dropWhile p ++ c :: ds := by
  induction cs with
  | nil => simp [hc]
  | cons d cs ih => cases hd : p d <;> simp [hd, ih]

/-- A character that is neither a quote nor a backslash stands for itself. -/
theorem decodeBody_cons (hquote : c ≠ '\"') (hslash : c ≠ '\\') (cs : List Char) :
    Literal.decodeBody (c :: cs) = (Literal.decodeBody cs).map (c :: ·) := by
  rw [Literal.decodeBody]
  · exact fun h _ => hquote h
  · exact fun d cs h => absurd h hslash

theorem scanText_cons (hquote : c ≠ '\"') (hslash : c ≠ '\\') (cs : List Char) :
    scanText (c :: cs) = (c :: (scanText cs).1, (scanText cs).2) := by
  rw [scanText]
  · exact hquote
  · exact fun h => absurd h hslash
  · exact fun _ h => absurd h hslash
  · exact fun _ _ h => absurd h hslash

/-- A backslash stands at the end of a text or in front of a character. -/
theorem ne_slash (hend : c = '\\' → cs = [] → False)
    (hpair : ∀ d rest, c = '\\' → cs = d :: rest → False) : c ≠ '\\' := by
  rintro rfl
  cases cs with
  | nil => exact hend rfl rfl
  | cons d rest => exact hpair d rest rfl rfl

/-- A literal that has its closing quote ends there, whatever comes after the text. -/
theorem scanText_append (h : Literal.decodeBody (scanText cs).1 ≠ none) (ds : List Char) :
    scanText (cs ++ ds) = ((scanText cs).1, (scanText cs).2 ++ ds) := by
  fun_induction scanText cs with
  | case1 => exact absurd rfl h
  | case2 cs => simp [scanText]
  | case3 => exact absurd rfl h
  | case4 cs => exact absurd rfl h
  | case5 c cs hc r ih =>
    have hrest : Literal.decodeBody (scanText cs).1 ≠ none := by
      intro hnone
      simp [r, Literal.decodeBody, hnone] at h
    simp [scanText, ih hrest, r]
  | case6 c cs h₁ h₂ h₃ h₄ r ih =>
    have hslash : c ≠ '\\' := ne_slash h₂ h₄
    have hrest : Literal.decodeBody (scanText cs).1 ≠ none := by
      intro hnone
      simp [r, decodeBody_cons h₁ hslash, hnone] at h
    rw [List.cons_append, scanText_cons h₁ hslash, ih hrest]

theorem scan_tilde {d : Char} (hd : d ≠ '@') (cs : List Char) :
    scan '~' (d :: cs) = (some (.mark .unquote), d :: cs) := by
  simp only [scan]
  split
  · rename_i heq
    exact absurd (List.cons.inj heq).1 hd
  · rfl

/-- What stands in front of a line feed is scanned as if the text ended there, if it is no literal
that is open. -/
theorem scan_append_newline
    (h : ∀ body, (scan c cs).1 = some (.text body) → Literal.decodeBody body ≠ none)
    (ds : List Char) :
    scan c (cs ++ '\n' :: ds) = ((scan c cs).1, (scan c cs).2 ++ '\n' :: ds) := by
  by_cases hc : c = '~'
  · subst hc
    -- The line feed does not make another mark of a tilde.
    cases cs with
    | nil => rfl
    | cons d cs =>
      by_cases hd : d = '@'
      · subst hd
        rfl
      · rw [List.cons_append, scan_tilde hd, scan_tilde hd]
        rfl
  · unfold scan at h ⊢
    split
    all_goals try rfl
    · exact Prod.ext rfl (dropWhile_append_cons (by decide) cs ds)
    · exact absurd rfl hc
    · rw [scanText_append (h _ rfl)]
    · rw [takeWhile_append_cons (by decide), dropWhile_append_cons (by decide)]

/-! ### All tokens in front of a line feed -/

theorem split_of_nil (h : cs.dropWhile isSeparator = []) : split cs = ([], cs) := by
  rw [split]
  split
  · rfl
  · rename_i hcons
    rw [h] at hcons
    cases hcons

theorem split_of_cons (h : cs.dropWhile isSeparator = c :: rest) :
    split cs =
      ((scan c rest).1.toList ++ (split (scan c rest).2).1, (split (scan c rest).2).2) := by
  rw [split]
  split
  · rename_i hnil
    rw [h] at hnil
    cases hnil
  · rename_i hcons
    rw [h] at hcons
    cases hcons
    rfl

/-- A text and a line feed in front of another text: the tokens of both. If the other text consists
of separators, they end the joined text together with those that end the first. -/
theorem split_append_newline
    (h : ∀ body, .text body ∈ (split cs).1 → Literal.decodeBody body ≠ none) (ds : List Char) :
    split (cs ++ '\n' :: ds) = ((split cs).1 ++ (split ds).1,
      if ds.dropWhile isSeparator = [] then (split cs).2 ++ '\n' :: ds else (split ds).2) := by
  -- One token after another is taken off, so the texts get shorter.
  induction hlength : cs.length using Nat.strongRecOn generalizing cs with
  | ind n ih =>
    cases hdrop : cs.dropWhile isSeparator with
    | nil =>
      have hjoined : (cs ++ '\n' :: ds).dropWhile isSeparator = ds.dropWhile isSeparator := by
        rw [List.dropWhile_append, hdrop]
        simp [show isSeparator '\n' = true by decide]
      rw [split_of_nil hdrop]
      cases hds : ds.dropWhile isSeparator with
      | nil =>
        rw [split_of_nil (hjoined.trans hds), split_of_nil hds]
        simp
      | cons c rest =>
        rw [split_of_cons (hjoined.trans hds), split_of_cons hds]
        simp
    | cons c rest =>
      have hlt := scan_length_lt hdrop
      have hjoined : (cs ++ '\n' :: ds).dropWhile isSeparator = c :: (rest ++ '\n' :: ds) := by
        rw [List.dropWhile_append, hdrop]
        rfl
      rw [split_of_cons hdrop] at h ⊢
      have hfirst : ∀ body, (scan c rest).1 = some (.text body) →
          Literal.decodeBody body ≠ none := by
        intro body hbody
        exact h body (by simp [hbody])
      have hothers := ih _ (hlength ▸ hlt) (fun body hbody => h body (by simp [hbody])) rfl
      rw [split_of_cons hjoined, scan_append_newline hfirst, hothers]
      simp

variable {ds : List Char}

/-! ### Literals that are left open -/

/-- A literal ends at a quote. -/
theorem decodeBody_eq_none (h : '\"' ∉ cs) : Literal.decodeBody cs = none := by
  fun_induction Literal.decodeBody cs with
  | case1 => rfl
  | case2 => simp at h
  | case3 c cs ih => simp_all
  | case4 c cs hquote hslash ih => simp_all

theorem mem_of_mem_scanText (h : c ∈ (scanText cs).1) : c ∈ cs := by
  fun_induction scanText cs with
  | case1 | case3 | case4 => simp at h
  | case2 => simp_all
  | case5 d cs hd r ih =>
    simp only [List.mem_cons] at h ⊢
    tauto
  | case6 d cs _ _ _ _ r ih =>
    simp only [List.mem_cons] at h ⊢
    tauto

/-- A literal that has no closing quote in a text has none behind a line feed either, if no quote
comes there. -/
theorem scanText_append_open (hopen : Literal.decodeBody (scanText cs).1 = none)
    (hds : '\"' ∉ ds) : Literal.decodeBody (scanText (cs ++ '\n' :: ds)).1 = none := by
  fun_induction scanText cs with
  | case1 =>
    refine decodeBody_eq_none fun hquote => hds ?_
    simpa using mem_of_mem_scanText hquote
  | case2 => simp [Literal.decodeBody] at hopen
  | case3 => rfl
  | case4 => rfl
  | case5 d cs hd r ih =>
    have hrest : Literal.decodeBody (scanText cs).1 = none := by
      simpa [Literal.decodeBody, r] using hopen
    simp [scanText, Literal.decodeBody, ih hrest]
  | case6 d cs h₁ h₂ h₃ h₄ r ih =>
    have hslash : d ≠ '\\' := ne_slash h₂ h₄
    have hrest : Literal.decodeBody (scanText cs).1 = none := by
      simpa [decodeBody_cons h₁ hslash, r] using hopen
    rw [List.cons_append, scanText_cons h₁ hslash, decodeBody_cons h₁ hslash, ih hrest]
    rfl

theorem eq_quote_of_scan {body : List Char} (h : (scan c cs).1 = some (.text body)) : c = '\"' := by
  unfold scan at h
  split at h
  all_goals first | rfl | cases h | skip
  split at h <;> cases h

/-- Tokens that are the same up to a literal that is open in both. -/
inductive Diverge : List Token → List Token → Prop
  | here {body body' : List Char} (hopen : Literal.decodeBody body = none)
      (hopen' : Literal.decodeBody body' = none) (others others' : List Token) :
      Diverge (.text body :: others) (.text body' :: others')
  | cons (token : Token) {tokens tokens' : List Token} (h : Diverge tokens tokens') :
      Diverge (token :: tokens) (token :: tokens')

theorem Diverge.symm {tokens tokens' : List Token} (h : Diverge tokens tokens') :
    Diverge tokens' tokens := by
  induction h with
  | here hopen hopen' others others' => exact .here hopen' hopen others' others
  | cons token _ ih => exact .cons token ih

/-- In front of a token and with it, where no literal is open, such tokens are the same. -/
theorem Diverge.front {tokens tokens' before after : List Token} {token : Token}
    (h : Diverge tokens tokens') (htokens : tokens = before ++ token :: after)
    (hclosed : ∀ body, .text body ∈ before ++ [token] → Literal.decodeBody body ≠ none) :
    ∃ after', tokens' = before ++ token :: after' := by
  induction h generalizing before with
  | @here body _ hopen _ others _ =>
    have hmem : .text body ∈ before ++ [token] := by cases before <;> cases htokens <;> simp
    exact absurd hopen (hclosed body hmem)
  | @cons first tokens tokens' h ih =>
    cases before with
    | nil =>
      cases htokens
      exact ⟨tokens', rfl⟩
    | cons first before =>
      cases htokens
      obtain ⟨after', rfl⟩ := ih rfl fun body hbody => hclosed body (List.mem_cons_of_mem _ hbody)
      exact ⟨after', rfl⟩

/-- A literal is open in the second of such runs of tokens. -/
theorem Diverge.exists_open {tokens tokens' : List Token} (h : Diverge tokens tokens') :
    ∃ body, .text body ∈ tokens' ∧ Literal.decodeBody body = none := by
  induction h with
  | @here _ body' _ hopen' _ _ => exact ⟨body', List.mem_cons_self .., hopen'⟩
  | cons token _ ih =>
    obtain ⟨body, hbody, hopen⟩ := ih
    exact ⟨body, List.mem_cons_of_mem _ hbody, hopen⟩

variable (cs) in
/-- Behind a line feed another text adds its tokens, unless a literal is open there. -/
theorem split_closed_or_diverge (hds : '\"' ∉ ds) :
    (∀ body, .text body ∈ (split cs).1 → Literal.decodeBody body ≠ none) ∨
      Diverge (split cs).1 (split (cs ++ '\n' :: ds)).1 := by
  -- One token after another is taken off, so the text gets shorter.
  induction hlength : cs.length using Nat.strongRecOn generalizing cs with
  | ind n ih =>
    cases hdrop : cs.dropWhile isSeparator with
    | nil =>
      rw [split_of_nil hdrop]
      exact .inl nofun
    | cons c rest =>
      have hlt := scan_length_lt hdrop
      have hjoined : (cs ++ '\n' :: ds).dropWhile isSeparator = c :: (rest ++ '\n' :: ds) := by
        rw [List.dropWhile_append, hdrop]
        rfl
      rw [split_of_cons hdrop, split_of_cons hjoined]
      by_cases hfirst : ∀ body, (scan c rest).1 = some (.text body) →
          Literal.decodeBody body ≠ none
      · -- The first token ends in front of the line feed.
        rw [scan_append_newline hfirst]
        rcases ih _ (hlength ▸ hlt) (scan c rest).2 rfl with hclosed | hdiverge
        · left
          intro body hbody
          rcases List.mem_append.1 hbody with hbody | hbody
          · exact hfirst body (by simpa using hbody)
          · exact hclosed body hbody
        · right
          cases (scan c rest).1 with
          | none => exact hdiverge
          | some token => exact .cons token hdiverge
      · -- The first token is a literal that is open.
        simp only [not_forall, not_not] at hfirst
        obtain ⟨body, hbody, hopen⟩ := hfirst
        obtain rfl := eq_quote_of_scan hbody
        have hscan : (scanText rest).1 = body := by simpa [scan] using hbody
        exact .inr (.here (hscan ▸ hopen) (scanText_append_open (hscan ▸ hopen) hds) _ _)

/-! ### The ends of texts -/

theorem trailingFault_eq_none_iff {length : Nat} {run : List Char} :
    trailingFault length run = none ↔ run.all isPlainSeparator = true := by
  cases run with
  | nil => simp [trailingFault]
  | cons c run => simp [trailingFault]

theorem exists_strayBlank (length : Nat) {run : List Char}
    (h : run.all isPlainSeparator = false) :
    ∃ position c, trailingFault length run = some (.strayBlank position c) := by
  cases run with
  | nil => cases h
  | cons c run => exact ⟨length - (run.length + 1), c, by simp [trailingFault, h]⟩

end Token

/-- The same error, but for the position and the character that the message about stray separators
shows. -/
inductive Error.Matches : Error → Error → Prop
  | refl (e : Error) : Matches e e
  | strayBlank (position position' : Nat) (c c' : Char) :
      Matches (.malformed (.strayBlank position c)) (.malformed (.strayBlank position' c'))

open Token in
/-- Runs of separators of which both or neither may end a text. -/
theorem trailingFault_rel {run run' : List Char}
    (h : run.all isPlainSeparator = run'.all isPlainSeparator) (length length' : Nat) :
    Option.Rel (fun fault fault' => Error.Matches (.malformed fault) (.malformed fault'))
      (trailingFault length run) (trailingFault length' run') := by
  cases hrun : run.all isPlainSeparator with
  | true =>
    rw [trailingFault_eq_none_iff.2 hrun, trailingFault_eq_none_iff.2 (h.symm.trans hrun)]
    exact .none
  | false =>
    obtain ⟨position, c, hfault⟩ := exists_strayBlank length hrun
    obtain ⟨position', c', hfault'⟩ := exists_strayBlank length' (h.symm.trans hrun)
    rw [hfault, hfault']
    exact .some (.strayBlank position position' c c')

namespace Reader

variable {nesting : Nat} {fault fault' : Option SyntaxFault} {stack : List Pending}
  {tokens : List Token}

/-- Where a text ends in a fault, its reading does so too. -/
theorem fault_eq_none (h : (run nesting fault stack tokens).2 = none) : fault = none := by
  induction tokens generalizing stack with
  | nil =>
    cases fault with
    | none => rfl
    | some fault => cases h
  | cons token tokens ih =>
    simp only [run] at h
    split at h
    · cases h
    · exact ih h

/-- Literals that are read without a fault have their closing quotes. -/
theorem decodeBody_ne_none (h : (run nesting fault stack tokens).2 = none) {body : List Char}
    (hbody : .text body ∈ tokens) : Literal.decodeBody body ≠ none := by
  induction tokens generalizing stack with
  | nil => cases hbody
  | cons token tokens ih =>
    simp only [run] at h
    split at h
    · cases h
    · rename_i stack' form? hpush
      rcases List.mem_cons.1 hbody with rfl | hbody
      · have htoken := takes_of_push hpush
        generalize (stack', form?) = r at htoken
        cases htoken with
        | text hdecode =>
          intro hnone
          simp only [Literal.decode, hnone] at hdecode
          cases hdecode
      · exact ih h hbody

variable (nesting stack tokens) in
/-- What is wrong with the end of a text shows only when its tokens are used up. -/
theorem run_rel (h : Option.Rel (fun fault fault' =>
      Error.Matches (.malformed fault) (.malformed fault')) fault fault') :
    (run nesting fault stack tokens).1 = (run nesting fault' stack tokens).1 ∧
      Option.Rel Error.Matches (run nesting fault stack tokens).2
        (run nesting fault' stack tokens).2 := by
  induction tokens generalizing stack with
  | nil =>
    refine ⟨rfl, ?_⟩
    cases h with
    | some h => exact .some h
    | none =>
      cases stack with
      | nil => exact .none
      | cons pending stack => cases pending <;> exact .some (.refl _)
  | cons token tokens ih =>
    simp only [run]
    split
    · exact ⟨rfl, .some (.refl _)⟩
    · rename_i stack' form? _
      obtain ⟨hforms, herror⟩ := ih stack'
      exact ⟨by rw [hforms], herror⟩

end Reader

open Token in
/-- What stands behind a text that reads without a fault, and a line feed, is read as by itself; but
what is wrong with its end may be reported at another position. -/
theorem Reader.exists_readAll_append {nesting : Nat} {s : String} {forms : List Value}
    (h : readAll nesting s = (forms, none)) (t : String) :
    ∃ fault, Option.Rel (fun fault fault' => Error.Matches (.malformed fault) (.malformed fault'))
        fault (ofText t).2 ∧
      readAll nesting (s ++ "\n" ++ t) =
        (forms ++ (run nesting fault [] (ofText t).1).1,
          (run nesting fault [] (ofText t).1).2) := by
  have hfault : trailingFault s.toList.length (split s.toList).2 = none :=
    fault_eq_none (congrArg Prod.snd h)
  have hclosed : ∀ body, .text body ∈ (split s.toList).1 → Literal.decodeBody body ≠ none :=
    fun body hbody => decodeBody_ne_none (congrArg Prod.snd h) hbody
  have hfirst : run nesting none [] (split s.toList).1 = (forms, none) := by
    rw [← h, ← hfault]
    rfl
  have hsplit := split_append_newline hclosed t.toList
  -- The joined text may end as it should if and only if the second text may.
  have hends : (split (s.toList ++ '\n' :: t.toList)).2.all isPlainSeparator =
      (split t.toList).2.all isPlainSeparator := by
    have hplain := trailingFault_eq_none_iff.1 hfault
    rw [hsplit]
    by_cases hblank : t.toList.dropWhile isSeparator = []
    · have hnewline : isPlainSeparator '\n' = true := by decide
      rw [if_pos hblank, split_of_nil hblank, List.all_append, hplain]
      simp [hnewline]
    · rw [if_neg hblank]
  have htoList : (s ++ "\n" ++ t).toList = s.toList ++ '\n' :: t.toList := by simp
  have htokens : (ofText (s ++ "\n" ++ t)).1 = (split s.toList).1 ++ (split t.toList).1 := by
    simp only [ofText, htoList, hsplit]
  refine ⟨(ofText (s ++ "\n" ++ t)).2, ?_, ?_⟩
  · simp only [ofText, htoList]
    exact trailingFault_rel hends _ _
  · -- The tokens of the first text give its forms, and nothing is left open.
    have htakes : TakesForms [] := trivial
    rw [readAll, htokens, ← resumeAll_nil]
    exact run_append htakes rfl (Nat.le_refl _) hfirst _

/-- Texts that read without a fault read so when they are joined. -/
theorem Reader.readAll_append_of_none {nesting : Nat} {s t : String} {forms forms' : List Value}
    (hs : readAll nesting s = (forms, none)) (ht : readAll nesting t = (forms', none)) :
    readAll nesting (s ++ "\n" ++ t) = (forms ++ forms', none) := by
  obtain ⟨fault, hfault, hjoined⟩ := exists_readAll_append hs t
  obtain ⟨hforms, herror⟩ := run_rel nesting [] (Token.ofText t).1 hfault
  have hrun : run nesting (Token.ofText t).2 [] (Token.ofText t).1 = (forms', none) := ht
  rw [hrun] at hforms herror
  have hnone : (run nesting fault [] (Token.ofText t).1).2 = none := by
    cases hsecond : (run nesting fault [] (Token.ofText t).1).2 with
    | none => rfl
    | some e =>
      rw [hsecond] at herror
      cases herror
  rw [hjoined, hforms, hnone]

/-- **Reading is compositional over texts that are joined with a line feed.** If a text reads
without a fault, then a text that goes on behind it and a line feed reads as its forms, followed by
the forms that what goes on reads as by itself; and there is an error if and only if there is one
then. It is the same error, but that stray separators may be reported at another position. -/
theorem readAll_append_newline (nesting : Nat) (s t : String) (forms : List Value)
    (h : Reader.readAll nesting s = (forms, none)) :
    (Reader.readAll nesting (s ++ "\n" ++ t)).1 = forms ++ (Reader.readAll nesting t).1 ∧
      Option.Rel Error.Matches (Reader.readAll nesting (s ++ "\n" ++ t)).2
        (Reader.readAll nesting t).2 := by
  obtain ⟨fault, hfault, hjoined⟩ := Reader.exists_readAll_append h t
  obtain ⟨hforms, herror⟩ := Reader.run_rel nesting [] (Token.ofText t).1 hfault
  rw [hjoined]
  exact ⟨congrArg (forms ++ ·) hforms, herror⟩

/-- A comment at the end of the first text ends there, and the bracket that the second text leaves
open is reported. -/
theorem readAll_comment_then_open :
    let forms : List Value := [.vector 0 [.symbol "a", .form [.symbol "unquote", .symbol "b"]]]
    Reader.readAll 9 "[a ~b];" = (forms, none) ∧
      (Reader.readAll 9 ("[a ~b];" ++ "\n" ++ "c (")).1 = forms ++ [.symbol "c"] ∧
      Option.Rel Error.Matches (Reader.readAll 9 ("[a ~b];" ++ "\n" ++ "c (")).2
        (some (.malformed (.unclosed ')'))) := by
  intro forms
  have hfirst : Reader.readAll 9 "[a ~b];" = (forms, none) := by decide +kernel
  have hsecond : Reader.readAll 9 "c (" = ([.symbol "c"], some (.malformed (.unclosed ')'))) := by
    decide +kernel
  have hjoined := readAll_append_newline 9 "[a ~b];" "c (" forms hfirst
  rw [hsecond] at hjoined
  exact ⟨hfirst, hjoined⟩

end AtomLisp
