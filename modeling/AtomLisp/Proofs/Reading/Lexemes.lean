import AtomLisp.Proofs.Reading.Joining
import Mathlib.Data.List.TakeWhile

/-! # How a text divides

  Every text divides in one way into separators, comments and the lexemes of tokens, if each of
  these goes on for as long as it can. The lexer finds this division, so it loses nothing. What it
  refuses is an end of the text in separators other than the plain ones.

  * `IsBody`: what may follow the opening quote of a text literal;
  * `Piece`, `Piece.Fits`: comments and tokens, as long as they can be where they stand;
  * `Divides`: a text is pieces with separators around them;
  * `exists_piece`: a piece stands wherever no separator does, `exists_scan_of_fits`: it is what one
    round of the lexer takes;
  * `exists_divides`, `Divides.split_eq`: every text can be divided, and only as the lexer does;
  * `ofText_divides`: the tokens of a text, and the fault at its end.
-/

namespace AtomLisp.Token

/-! ### Literals -/

/-- What may follow the opening quote of a text literal: characters that are neither quotes nor
backslashes, backslashes with a character that is no line feed, and a closing quote at the end if
there is one. -/
inductive IsBody : List Char → Prop
  | unclosed : IsBody []
  | closed : IsBody ['\"']
  | plain {c : Char} {cs : List Char} (hquote : c ≠ '\"') (hslash : c ≠ '\\') (h : IsBody cs) :
    IsBody (c :: cs)
  | escaped {c : Char} {cs : List Char} (hc : c ≠ '\n') (h : IsBody cs) : IsBody ('\\' :: c :: cs)

/-- The body of a literal is as long as it can be: nothing longer that stands in the text can follow
the quote. -/
structure IsLongestBody (body rest : List Char) : Prop where
  isBody  : IsBody body
  longest : ∀ longer, IsBody longer → longer <+: body ++ rest → longer.length ≤ body.length

theorem scanText_fst_append_snd (cs : List Char) : (scanText cs).1 ++ (scanText cs).2 = cs := by
  fun_induction scanText cs with
  | case1 | case2 | case3 | case4 => rfl
  | case5 c cs hc r ih => exact congrArg ('\\' :: c :: ·) ih
  | case6 c cs h₁ h₂ h₃ h₄ r ih => exact congrArg (c :: ·) ih

theorem isBody_scanText (cs : List Char) : IsBody (scanText cs).1 := by
  fun_induction scanText cs with
  | case1 | case3 | case4 => exact .unclosed
  | case2 => exact .closed
  | case5 c cs hc r ih => exact .escaped hc ih
  | case6 c cs h₁ h₂ h₃ h₄ r ih => exact .plain h₁ (ne_slash h₂ h₄) ih

/-- The scanner takes as much as can follow the quote. -/
theorem length_le_scanText {longer cs : List Char} (h : IsBody longer) (hstart : longer <+: cs) :
    longer.length ≤ (scanText cs).1.length := by
  induction h generalizing cs with
  | unclosed => exact Nat.zero_le _
  | closed =>
    obtain ⟨rest, rfl⟩ := hstart
    exact Nat.le_refl 1
  | @plain c longer hquote hslash _ ih =>
    obtain ⟨rest, rfl⟩ := hstart
    rw [List.cons_append, scanText_cons hquote hslash]
    exact Nat.succ_le_succ (ih (List.prefix_append ..))
  | @escaped c longer hc _ ih =>
    obtain ⟨rest, rfl⟩ := hstart
    have hscan : scanText ('\\' :: c :: (longer ++ rest)) =
        ('\\' :: c :: (scanText (longer ++ rest)).1, (scanText (longer ++ rest)).2) := by
      rw [scanText]
      exact hc
    rw [List.cons_append, List.cons_append, hscan]
    exact Nat.succ_le_succ (Nat.succ_le_succ (ih (List.prefix_append ..)))

theorem isLongestBody_scanText (cs : List Char) :
    IsLongestBody (scanText cs).1 (scanText cs).2 where
  isBody := isBody_scanText cs
  longest longer h hstart := by
    rw [scanText_fst_append_snd] at hstart
    exact length_le_scanText h hstart

/-- What is as long as it can be is what the scanner takes. -/
theorem scanText_of_isLongestBody {body rest : List Char} (h : IsLongestBody body rest) :
    scanText (body ++ rest) = (body, rest) := by
  have happend := scanText_fst_append_snd (body ++ rest)
  have hle := length_le_scanText h.isBody (List.prefix_append body rest)
  have hge := h.longest _ (isBody_scanText _) ⟨_, happend⟩
  obtain ⟨hbody, hrest⟩ := List.append_inj happend (Nat.le_antisymm hge hle)
  exact Prod.ext hbody hrest

/-! ### Pieces -/

/-- What a text is made of besides separators. -/
inductive Piece where
  /-- What comes after the semicolon. -/
  | comment (body : List Char)
  | token (t : Token)

namespace Piece

/-- How a piece is written. -/
def lexeme : Piece → List Char
  | comment body => ';' :: body
  | token t => t.lexeme

/-- The token of a piece; a comment is none. -/
def token? : Piece → Option Token
  | comment _ => none
  | token t => some t

/-- In front of `rest` the piece is as long as it can be: a comment goes on to the end of the line,
a word as far as there are characters of words, a literal as far as one can go, and no tilde is
taken for a mark of its own that has an `@` after it. -/
def Fits (rest : List Char) : Piece → Prop
  | comment body => '\n' ∉ body ∧ ∀ c ∈ rest.head?, c = '\n'
  | token (.word cs) => IsWord cs ∧ Boundary rest
  | token (.text body) => IsLongestBody body rest
  | token (.mark .unquote) => rest.head? ≠ some '@'
  | token _ => True

end Piece

/-! ### One round -/

variable {c : Char} {cs rest : List Char}

theorem eq_false_of_head?_dropWhile {p : Char → Bool} :
    ∀ c ∈ (cs.dropWhile p).head?, p c = false := by
  intro c hc
  have hhead := List.head?_dropWhile_not p cs
  rw [hc] at hhead
  simpa using hhead

/-- A character that is neither a separator nor one of words starts a token by itself, a literal or
a comment. -/
theorem eq_of_isDelimiter (hc : isSeparator c = false) (hword : isWordChar c = false) :
    c = '[' ∨ c = ']' ∨ c = '{' ∨ c = '}' ∨ c = '(' ∨ c = ')' ∨ c = '\'' ∨ c = '\"' ∨ c = '\x60' ∨
      c = ';' := by
  have hdelimiter : isDelimiter c = true := by simpa [isWordChar, hc] using hword
  simpa [isDelimiter, or_assoc] using hdelimiter

theorem fits_comment (cs : List Char) :
    (Piece.comment (cs.takeWhile (· != '\n'))).Fits (cs.dropWhile (· != '\n')) := by
  refine ⟨fun hmem => ?_, fun d hd => ?_⟩
  · have hne := List.all_eq_true.1 (List.all_takeWhile (l := cs)) _ hmem
    exact absurd hne (by decide)
  · have heq := eq_false_of_head?_dropWhile d hd
    simpa using heq

/-- Where no separator stands, a piece does. -/
theorem exists_piece (hc : isSeparator c = false) (cs : List Char) :
    ∃ (p : Piece) (rest : List Char), p.lexeme ++ rest = c :: cs ∧ p.Fits rest := by
  cases hword : isWordChar c with
  | true =>
    by_cases htilde : c = '~'
    · subst htilde
      by_cases hat : cs.head? = some '@'
      · obtain ⟨rest, rfl⟩ := List.head?_eq_some_iff.1 hat
        exact ⟨.token (.mark .spliceUnquote), rest, rfl, trivial⟩
      · exact ⟨.token (.mark .unquote), cs, rfl, hat⟩
    · by_cases hat : c = '@'
      · subst hat
        exact ⟨.token (.mark .deref), cs, rfl, trivial⟩
      · exact ⟨.token (.word (c :: cs.takeWhile isWordChar)), cs.dropWhile isWordChar,
          congrArg (c :: ·) List.takeWhile_append_dropWhile,
          isWord_cons hword ⟨htilde, hat⟩ List.all_takeWhile, eq_false_of_head?_dropWhile⟩
  | false =>
    rcases eq_of_isDelimiter hc hword with
      rfl | rfl | rfl | rfl | rfl | rfl | rfl | rfl | rfl | rfl
    · exact ⟨.token (.opener .square), cs, rfl, trivial⟩
    · exact ⟨.token (.closer .square), cs, rfl, trivial⟩
    · exact ⟨.token (.opener .curly), cs, rfl, trivial⟩
    · exact ⟨.token (.closer .curly), cs, rfl, trivial⟩
    · exact ⟨.token (.opener .round), cs, rfl, trivial⟩
    · exact ⟨.token (.closer .round), cs, rfl, trivial⟩
    · exact ⟨.token (.mark .quote), cs, rfl, trivial⟩
    · exact ⟨.token (.text (scanText cs).1), (scanText cs).2,
        congrArg ('\"' :: ·) (scanText_fst_append_snd cs), isLongestBody_scanText cs⟩
    · exact ⟨.token (.mark .quasiquote), cs, rfl, trivial⟩
    · exact ⟨.comment (cs.takeWhile (· != '\n')), cs.dropWhile (· != '\n'),
        congrArg (';' :: ·) List.takeWhile_append_dropWhile, fits_comment cs⟩

/-- What is as long as it can be is what the lexer takes. -/
theorem exists_scan_of_fits {p : Piece} (h : p.Fits rest) :
    ∃ c cs, p.lexeme ++ rest = c :: cs ∧ isSeparator c = false ∧ scan c cs = (p.token?, rest) := by
  cases p with
  | comment body =>
    obtain ⟨hbody, hrest⟩ := h
    refine ⟨';', body ++ rest, rfl, by decide, ?_⟩
    have hall : ∀ d ∈ body, (d != '\n') = true := fun d hd =>
      bne_iff_ne.2 fun heq => hbody (heq ▸ hd)
    show (none, (body ++ rest).dropWhile (· != '\n')) = (none, rest)
    rw [List.dropWhile_append_of_pos hall]
    cases rest with
    | nil => rfl
    | cons d rest =>
      obtain rfl := hrest d rfl
      rfl
  | token t =>
    cases t with
    | word cs =>
      obtain ⟨hword, hboundary⟩ := h
      obtain ⟨c, w, rfl⟩ := List.exists_cons_of_ne_nil hword.nonempty
      obtain ⟨hc, hw⟩ := List.forall_mem_cons.1 hword.chars
      obtain ⟨htilde, hat⟩ := hword.first c rfl
      refine ⟨c, w ++ rest, rfl, isSeparator_eq_false hc, ?_⟩
      rw [scan_word hc htilde hat, takeWhile_append hw hboundary, dropWhile_append hw hboundary]
      rfl
    | text body =>
      refine ⟨'\"', body ++ rest, rfl, by decide, ?_⟩
      show (some (Token.text (scanText (body ++ rest)).1), (scanText (body ++ rest)).2) = _
      rw [scanText_of_isLongestBody h]
      rfl
    | mark m =>
      cases m with
      | unquote =>
        refine ⟨'~', rest, rfl, by decide, ?_⟩
        cases rest with
        | nil => rfl
        | cons d rest => exact scan_tilde (fun hd => h (congrArg some hd)) rest
      | spliceUnquote => exact ⟨'~', '@' :: rest, rfl, by decide, rfl⟩
      | quote => exact ⟨'\'', rest, rfl, by decide, rfl⟩
      | quasiquote => exact ⟨'\x60', rest, rfl, by decide, rfl⟩
      | deref => exact ⟨'@', rest, rfl, by decide, rfl⟩
    | opener b => exact ⟨b.opening, rest, rfl, by cases b <;> decide, by cases b <;> rfl⟩
    | closer b => exact ⟨b.closing, rest, rfl, by cases b <;> decide, by cases b <;> rfl⟩

theorem Piece.Fits.length_lt {p : Piece} (h : p.Fits rest) :
    rest.length < (p.lexeme ++ rest).length := by
  obtain ⟨c, cs, hlexeme, -, hscan⟩ := exists_scan_of_fits h
  have hle := scan_length_le c cs
  rw [hscan] at hle
  rw [hlexeme]
  exact Nat.lt_succ_of_le hle

/-! ### All pieces -/

/-- The text is these pieces, each with separators in front of it and each as long as it can be, and
the separators that come after the last one. -/
inductive Divides : List Char → List Piece → List Char → Prop
  | done {run : List Char} (hrun : ∀ c ∈ run, isSeparator c = true) : Divides run [] run
  | piece {gap rest run : List Char} {p : Piece} {pieces : List Piece}
    (hgap : ∀ c ∈ gap, isSeparator c = true) (hp : p.Fits rest) (hrest : Divides rest pieces run) :
    Divides (gap ++ (p.lexeme ++ rest)) (p :: pieces) run

/-- Every text can be divided. -/
theorem exists_divides (cs : List Char) : ∃ pieces run, Divides cs pieces run := by
  -- One piece after another is taken off, so the texts get shorter.
  induction hlength : cs.length using Nat.strongRecOn generalizing cs with
  | ind n ih =>
    have hgap : ∀ c ∈ cs.takeWhile isSeparator, isSeparator c = true :=
      List.all_eq_true.1 List.all_takeWhile
    have hcs : cs.takeWhile isSeparator ++ cs.dropWhile isSeparator = cs :=
      List.takeWhile_append_dropWhile
    cases hdrop : cs.dropWhile isSeparator with
    | nil => exact ⟨[], cs, .done (List.dropWhile_eq_nil_iff.1 hdrop)⟩
    | cons c others =>
      have hc : isSeparator c = false := eq_false_of_head?_dropWhile c (by rw [hdrop]; rfl)
      obtain ⟨p, rest, hlexeme, hp⟩ := exists_piece hc others
      rw [hdrop, ← hlexeme] at hcs
      have hlt : rest.length < n := by
        have hpiece := hp.length_lt
        rw [← hlength, ← hcs, List.length_append]
        omega
      obtain ⟨pieces, run, hdivides⟩ := ih _ hlt rest rfl
      rw [← hcs]
      exact ⟨p :: pieces, run, .piece hgap hp hdivides⟩

/-- Every division of a text is the one that the lexer finds. -/
theorem Divides.split_eq {pieces : List Piece} {run : List Char} (h : Divides cs pieces run) :
    split cs = (pieces.filterMap Piece.token?, run) := by
  induction h with
  | done hrun => exact split_of_nil (List.dropWhile_eq_nil_iff.2 hrun)
  | @piece gap rest run p pieces hgap hp _ ih =>
    obtain ⟨c, cs, hlexeme, hc, hscan⟩ := exists_scan_of_fits hp
    have hdrop : (gap ++ (p.lexeme ++ rest)).dropWhile isSeparator = c :: cs := by
      rw [List.dropWhile_append_of_pos hgap, hlexeme, List.dropWhile_cons_of_neg (by simp [hc])]
    rw [split_of_cons hdrop, hscan, ih, List.filterMap_cons]
    cases p.token? <;> rfl

theorem Divides.run_suffix {pieces : List Piece} {run : List Char} (h : Divides cs pieces run) :
    run <:+ cs := by
  induction h with
  | done => exact List.suffix_refl _
  | piece _ _ _ ih => exact ih.trans ((List.suffix_append _ _).trans (List.suffix_append _ _))

/-- A piece takes a character at least. -/
theorem Divides.length_le {pieces : List Piece} {run : List Char} (h : Divides cs pieces run) :
    pieces.length + run.length ≤ cs.length := by
  induction h with
  | done => exact Nat.le_of_eq (Nat.zero_add _)
  | @piece gap rest run p pieces _ hp _ ih =>
    have hlt := hp.length_lt
    rw [List.length_append, List.length_cons]
    omega

/-! ### The end of a text -/

/-- The separators that a text may end in. -/
def plainSeparators : List Char := [' ', '\t', '\r', '\n', ',']

theorem isPlainSeparator_iff : isPlainSeparator c = true ↔ c ∈ plainSeparators := by
  simp [isPlainSeparator, plainSeparators, or_assoc]

theorem trailingFault_eq_some_iff {before run : List Char} {fault : SyntaxFault} :
    trailingFault (before ++ run).length run = some fault ↔
      (∃ c ∈ run, c ∉ plainSeparators) ∧
        ∃ first, run.head? = some first ∧ fault = .strayBlank before.length first := by
  cases run with
  | nil => simp [trailingFault]
  | cons first later =>
    have hlength : (before ++ first :: later).length - (first :: later).length = before.length := by
      rw [List.length_append, Nat.add_sub_cancel]
    have hall : (first :: later).all isPlainSeparator = true ↔
        ¬ ∃ c ∈ first :: later, c ∉ plainSeparators := by
      simp only [List.all_eq_true, isPlainSeparator_iff, not_exists, not_and, not_not]
    rw [trailingFault, hlength]
    by_cases hstray : ∃ c ∈ first :: later, c ∉ plainSeparators
    · rw [if_neg fun h => hall.1 h hstray]
      constructor
      · intro h
        cases h
        exact ⟨hstray, first, rfl, rfl⟩
      · rintro ⟨-, c, hc, rfl⟩
        cases hc
        rfl
    · rw [if_pos (hall.2 hstray)]
      constructor
      · intro h
        cases h
      · rintro ⟨h, -⟩
        exact absurd h hstray

/-- **The lexer loses nothing, and fails exactly where it should.** Every text can be divided into
pieces (tokens and comments) in order, with nothing but separators in front of each and at the end,
so that every piece goes on for as long as it can. However it is so divided:

  * the tokens are those that the lexer yields, all of them whether or not the text is refused;
  * the text is refused if and only if the separators behind the last piece are not all blanks,
    tabulators, line ends or commas, and the position that is reported is where they begin;
  * there are no more pieces than characters, and each is a round of the lexer. -/
theorem ofText_divides (s : String) :
    (∃ pieces run, Divides s.toList pieces run) ∧
    ∀ pieces run, Divides s.toList pieces run →
      (ofText s).1 = pieces.filterMap Piece.token? ∧
      (∃ before, s.toList = before ++ run ∧ ∀ fault, (ofText s).2 = some fault ↔
        (∃ c ∈ run, c ∉ plainSeparators) ∧
          ∃ first, run.head? = some first ∧ fault = .strayBlank before.length first) ∧
      pieces.length + run.length ≤ s.toList.length := by
  refine ⟨exists_divides s.toList, fun pieces run hdivides => ?_⟩
  obtain ⟨before, hbefore⟩ := hdivides.run_suffix
  have hsplit := hdivides.split_eq
  refine ⟨?_, ⟨before, hbefore.symm, fun fault => ?_⟩, hdivides.length_le⟩
  · show (split s.toList).1 = _
    rw [hsplit]
  · show trailingFault s.toList.length (split s.toList).2 = some fault ↔ _
    rw [hsplit, ← hbefore]
    exact trailingFault_eq_some_iff

end AtomLisp.Token
