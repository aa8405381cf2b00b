import AtomLisp.Proofs.Reading.Lexemes
import Mathlib.Data.List.DropRight

/-! # Where a literal ends

  The lexer goes through a text literal from the left: a backslash takes the character after it
  along, and the first quote that is not taken along closes the literal. Whether a literal is closed
  can also be told from its end, by counting the backslashes in front of the last quote, and its
  escapes can be replaced after that. For the literals that the lexer yields this is the same.

  * `Literal.Part`, `Literal.written`: what stands between the quotes, and how it is written;
  * `Literal.decodeFromEnd`: reads a literal by looking at its end first;
  * `Token.exists_parts`: the lexer stops at a closing quote, or where nothing can go on;
  * `decode_closed`, `decode_unclosed`, `decodeFromEnd_closed`, `decodeFromEnd_unclosed`: what the
    two readings make of that;
  * `Token.closed_iff_decodes`: both readings, for all literals of a text.
-/

namespace AtomLisp

namespace Literal

/-! ### Parts -/

/-- What stands for one character between the quotes of a literal. -/
inductive Part where
  | plain (c : Char) (hquote : c ≠ '\"') (hslash : c ≠ '\\')
  /-- A backslash and a character. -/
  | escaped (c : Char) (hc : c ≠ '\n')

namespace Part

/-- How a part is written. -/
def written : Part → List Char
  | plain c _ _ => [c]
  | escaped c _ => ['\\', c]

/-- The character that a part stands for. -/
def meaning : Part → Char
  | plain c _ _ => c
  | escaped c _ => unescape c

/-- The part that a character is written as. -/
def ofChar (c : Char) : Part :=
  if hslash : c = '\\' then escaped '\\' (by decide)
  else if hquote : c = '\"' then escaped '\"' (by decide)
  else if c = '\n' then escaped 'n' (by decide)
  else plain c hquote hslash

theorem written_ofChar (c : Char) : (ofChar c).written = encodeChar c := by
  unfold ofChar encodeChar
  split
  · rfl
  · split
    · rfl
    · split <;> rfl

theorem meaning_ofChar (c : Char) : (ofChar c).meaning = c := by
  unfold ofChar
  split
  · next hc => exact hc.symm
  · split
    · next hc => exact hc.symm
    · split
      · next hc => exact hc.symm
      · rfl

end Part

/-- How parts are written, one after another. -/
def written (parts : List Part) : List Char := parts.flatMap Part.written

/-- The characters that parts stand for. -/
def meanings (parts : List Part) : List Char := parts.map Part.meaning

/-- The parts that a text is written as. -/
def partsOf (cs : List Char) : List Part := cs.map Part.ofChar

theorem written_concat (parts : List Part) (p : Part) :
    written (parts ++ [p]) = written parts ++ p.written := by
  simp [written]

theorem written_partsOf (cs : List Char) : written (partsOf cs) = cs.flatMap encodeChar := by
  simp only [written, partsOf, List.flatMap_map, Part.written_ofChar]

theorem meanings_partsOf (cs : List Char) : meanings (partsOf cs) = cs := by
  simp only [meanings, partsOf, List.map_map, Function.comp_def, Part.meaning_ofChar, List.map_id']

/-! ### Decoding from the left -/

/-- Each part is read as the character that it stands for. -/
theorem decodeBody_written (parts : List Part) (cs : List Char) :
    decodeBody (written parts ++ cs) = (decodeBody cs).map (meanings parts ++ ·) := by
  induction parts with
  | nil => cases h : decodeBody cs <;> simp [written, meanings, h]
  | cons p parts ih =>
    have hhead : decodeBody (p.written ++ (written parts ++ cs)) =
        (decodeBody (written parts ++ cs)).map (p.meaning :: ·) := by
      cases p with
      | plain c hquote hslash => exact Token.decodeBody_cons hquote hslash _
      | escaped c hc => simp only [Part.written, List.cons_append, List.nil_append, decodeBody,
          Part.meaning]
    rw [written, List.flatMap_cons, List.append_assoc]
    rw [written] at hhead ih
    rw [hhead, ih, Option.map_map]
    rfl

/-- What is in a literal that is closed. A keyword is refused. -/
def content (cs : List Char) : Except SyntaxFault String :=
  if cs.head? = some Keyword.mark then .error .markedText else .ok (String.ofList cs)

theorem content_ne_unclosed (cs : List Char) : content cs ≠ .error .unclosedText := by
  unfold content
  split <;> simp

theorem decode_closed (parts : List Part) :
    decode (written parts ++ ['\"']) = content (meanings parts) := by
  have hbody : decodeBody (written parts ++ ['\"']) = some (meanings parts) := by
    rw [decodeBody_written]
    exact congrArg some (List.append_nil _)
  rw [decode, hbody]
  rfl

theorem decode_unclosed (parts : List Part) : decode (written parts) = .error .unclosedText := by
  have hbody : decodeBody (written parts) = none := by
    rw [← List.append_nil (written parts), decodeBody_written]
    rfl
  rw [decode, hbody]

/-! ### Decoding from the end -/

/-- Is there a backslash left over, if those at the end are taken in pairs? -/
def endsInEscape (cs : List Char) : Bool := (cs.rtakeWhile (· == '\\')).length % 2 == 1

/-- Replaces every pair of a backslash and a character that is no line feed. -/
def unescapeAll : List Char → List Char
  | [] => []
  | '\\' :: '\n' :: cs => '\\' :: '\n' :: unescapeAll cs
  | '\\' :: c :: cs => unescape c :: unescapeAll cs
  | c :: cs => c :: unescapeAll cs

/-- Reads a literal that is given with all its quotes: first it is checked that there is a closing
quote at its end which is no part of an escape, and then the escapes are replaced. -/
def decodeFromEnd (token : List Char) : Except SyntaxFault String :=
  let inner := token.tail.dropLast
  if token.length < 2 ∨ token.getLast? ≠ some '\"' ∨ endsInEscape inner then
    .error .unclosedText
  else content (unescapeAll inner)

theorem endsInEscape_concat_slash (cs : List Char) :
    endsInEscape (cs ++ ['\\']) = !endsInEscape cs := by
  have hodd : ∀ n : Nat, ((n + 1) % 2 == 1) = !(n % 2 == 1) := by
    intro n
    rcases Nat.mod_two_eq_zero_or_one n with hn | hn
    · simp [Nat.add_mod, hn]
    · simp [Nat.add_mod, hn]
  rw [endsInEscape, List.rtakeWhile_concat_pos _ _ _ (by decide), List.length_append]
  exact hodd _

theorem endsInEscape_concat {c : Char} (hc : c ≠ '\\') (cs : List Char) :
    endsInEscape (cs ++ [c]) = false := by
  rw [endsInEscape, List.rtakeWhile_concat_neg _ _ _ (by simpa using hc)]
  rfl

/-- The backslashes at the end of parts belong together in pairs. -/
theorem endsInEscape_written (parts : List Part) : endsInEscape (written parts) = false := by
  induction parts using List.reverseRecOn with
  | nil => rfl
  | append_singleton parts p ih =>
    rw [written_concat]
    cases p with
    | plain c hquote hslash => exact endsInEscape_concat hslash _
    | escaped c hc =>
      have happend : written parts ++ ['\\', c] = written parts ++ ['\\'] ++ [c] := by simp
      rw [Part.written, happend]
      by_cases hslash : c = '\\'
      · subst hslash
        rw [endsInEscape_concat_slash, endsInEscape_concat_slash, ih]
        rfl
      · exact endsInEscape_concat hslash _

theorem unescapeAll_written (parts : List Part) : unescapeAll (written parts) = meanings parts := by
  induction parts with
  | nil => rfl
  | cons p parts ih =>
    show unescapeAll (p.written ++ written parts) = p.meaning :: meanings parts
    rw [← ih]
    cases p with
    | plain c hquote hslash =>
      rw [Part.written, List.singleton_append, unescapeAll]
      · rfl
      · exact fun _ h => absurd h hslash
      · exact fun _ _ h => absurd h hslash
    | escaped c hc =>
      show unescapeAll ('\\' :: c :: written parts) = _
      rw [unescapeAll]
      · rfl
      · exact hc

theorem decodeFromEnd_closed (parts : List Part) :
    decodeFromEnd ('\"' :: (written parts ++ ['\"'])) = content (meanings parts) := by
  have hlength : ¬ ('\"' :: (written parts ++ ['\"'])).length < 2 := by simp
  have hlast : ('\"' :: (written parts ++ ['\"'])).getLast? = some '\"' := by
    rw [← List.cons_append, List.getLast?_concat]
  have hinner : ('\"' :: (written parts ++ ['\"'])).tail.dropLast = written parts :=
    List.dropLast_concat
  rw [decodeFromEnd, hinner, if_neg, unescapeAll_written]
  rintro (h | h | h)
  · exact hlength h
  · exact h hlast
  · rw [endsInEscape_written] at h
    cases h

theorem decodeFromEnd_unclosed (parts : List Part) :
    decodeFromEnd ('\"' :: written parts) = .error .unclosedText := by
  refine if_pos ?_
  cases parts using List.reverseRecOn with
  | nil => exact .inl (by decide)
  | append_singleton parts p =>
    right
    rw [written_concat]
    cases p with
    | plain c hquote hslash =>
      left
      rw [Part.written, ← List.cons_append, List.getLast?_concat]
      exact fun h => hquote (Option.some.inj h)
    | escaped c hc =>
      have happend : '\"' :: (written parts ++ ['\\', c]) =
          ('\"' :: (written parts ++ ['\\'])) ++ [c] := by simp
      rw [Part.written, happend, List.getLast?_concat]
      by_cases hquote : c = '\"'
      · -- The quote at the end is the second half of an escape.
        right
        show endsInEscape (written parts ++ ['\\'] ++ [c]).dropLast = true
        rw [List.dropLast_concat, endsInEscape_concat_slash, endsInEscape_written]
        rfl
      · exact .inl fun h => hquote (Option.some.inj h)

end Literal

namespace Token

open Literal

/-! ### Where the lexer stops -/

/-- Nothing that a literal could go on with: the end of the text, or a backslash that has no
character after it or the end of the line. -/
inductive Halts : List Char → Prop
  | atEnd : Halts []
  | slashAtEnd : Halts ['\\']
  | slashAtLineEnd (rest : List Char) : Halts ('\\' :: '\n' :: rest)

/-- The lexer takes parts up to a closing quote, or up to where nothing can go on. -/
theorem exists_parts (cs : List Char) :
    ∃ parts, (scanText cs).1 = written parts ++ ['\"'] ∨
      (scanText cs).1 = written parts ∧ Halts (scanText cs).2 := by
  fun_induction scanText cs with
  | case1 => exact ⟨[], .inr ⟨rfl, .atEnd⟩⟩
  | case2 cs => exact ⟨[], .inl rfl⟩
  | case3 => exact ⟨[], .inr ⟨rfl, .slashAtEnd⟩⟩
  | case4 cs => exact ⟨[], .inr ⟨rfl, .slashAtLineEnd cs⟩⟩
  | case5 c cs hc r ih =>
    obtain ⟨parts, hparts⟩ := ih
    refine ⟨.escaped c hc :: parts, hparts.imp (fun h => ?_) fun h => ⟨?_, h.2⟩⟩
    · exact congrArg ('\\' :: c :: ·) h
    · exact congrArg ('\\' :: c :: ·) h.1
  | case6 c cs h₁ h₂ h₃ h₄ r ih =>
    obtain ⟨parts, hparts⟩ := ih
    refine ⟨.plain c h₁ (ne_slash h₂ h₄) :: parts, hparts.imp (fun h => ?_) fun h => ⟨?_, h.2⟩⟩
    · exact congrArg (c :: ·) h
    · exact congrArg (c :: ·) h.1

/-- Every piece stands somewhere in the text, and fits there. -/
theorem Divides.exists_fits {cs run : List Char} {pieces : List Piece} (h : Divides cs pieces run)
    {p : Piece} (hp : p ∈ pieces) :
    ∃ before rest, cs = before ++ (p.lexeme ++ rest) ∧ p.Fits rest := by
  induction h with
  | done => cases hp
  | @piece gap rest run q pieces _ hq _ ih =>
    rcases List.mem_cons.1 hp with rfl | hp
    · exact ⟨gap, rest, rfl, hq⟩
    · obtain ⟨before, later, rfl, hfits⟩ := ih hp
      exact ⟨gap ++ (q.lexeme ++ before), later, by simp, hfits⟩

/-- Every literal stands somewhere in the text, as far as the lexer can go. -/
theorem exists_scanText_of_mem {s : String} {body : List Char} (h : .text body ∈ (ofText s).1) :
    ∃ before rest, s.toList = before ++ '\"' :: (body ++ rest) ∧
      scanText (body ++ rest) = (body, rest) := by
  obtain ⟨pieces, run, hdivides⟩ := exists_divides s.toList
  have htokens : (ofText s).1 = pieces.filterMap Piece.token? := congrArg Prod.fst hdivides.split_eq
  rw [htokens, List.mem_filterMap] at h
  obtain ⟨p, hp, htoken⟩ := h
  cases p with
  | comment => cases htoken
  | token t =>
    cases htoken
    obtain ⟨before, rest, hs, hfits⟩ := hdivides.exists_fits hp
    exact ⟨before, rest, hs, scanText_of_isLongestBody hfits⟩

/-! ### Literals of a text -/

/-- What is written for a text is one literal. -/
theorem ofText_encode (cs : List Char) :
    ofText (String.ofList (encode cs)) = ([.text (written (partsOf cs) ++ ['\"'])], none) := by
  rw [written_partsOf]
  refine Lexes.ofText ?_
  rw [String.toList_ofList]
  exact (spells_literal cs).lexes

/-- **Lexer and decoder agree on where a literal ends.** Every literal that the lexer finds in a
text stands there, and either it is closed: it has parts and a closing quote after them; or it has
parts only, and nothing that stands in the text could go on with it. Moreover:

  * the decoder misses the closing quote if and only if the literal is not closed, and reading then
    stops, wherever it is;
  * a literal that is closed is decoded part by part from the left, and the text is refused if and
    only if it starts with the mark of keywords;
  * to look for the closing quote from the end, and replace the escapes after that, is the same.

And what is written for a text that does not start with the mark is one literal, which is closed and
stands for that text. -/
theorem closed_iff_decodes :
    (∀ (s : String) (body : List Char), .text body ∈ (ofText s).1 →
      (∃ before rest, s.toList = before ++ '\"' :: (body ++ rest) ∧
        ((∃ parts, body = written parts ++ ['\"']) ∨
          (∃ parts, body = written parts) ∧ Halts rest)) ∧
      (decode body ≠ .error .unclosedText ↔ ∃ parts, body = written parts ++ ['\"']) ∧
      (decode body = .error .unclosedText → ∀ nesting stack,
        Reader.push nesting stack (.text body) = .error (.malformed .unclosedText)) ∧
      (∀ parts, body = written parts ++ ['\"'] → decode body =
        if (meanings parts).head? = some Keyword.mark then .error .markedText
        else .ok (String.ofList (meanings parts))) ∧
      decodeFromEnd ('\"' :: body) = decode body) ∧
    (Error.malformed .unclosedText).message? = some "expected '\"', got EOF" ∧
    ∀ cs : List Char, cs.head? ≠ some Keyword.mark → ∃ body,
      ofText (String.ofList (encode cs)) = ([.text body], none) ∧ '\"' :: body = encode cs ∧
        (∃ parts, body = written parts ++ ['\"']) ∧ decode body = .ok (String.ofList cs) := by
  refine ⟨fun s body hbody => ?_, rfl, fun cs hcs => ?_⟩
  · obtain ⟨before, rest, hs, hscan⟩ := exists_scanText_of_mem hbody
    obtain ⟨parts, hparts⟩ := exists_parts (body ++ rest)
    simp only [hscan] at hparts
    have hpush : decode body = .error .unclosedText → ∀ nesting stack,
        Reader.push nesting stack (.text body) = .error (.malformed .unclosedText) := by
      intro hdecode nesting stack
      rw [Reader.push, hdecode]
    have hdecode : ∀ parts, body = written parts ++ ['\"'] →
        decode body = content (meanings parts) := by
      rintro parts rfl
      exact decode_closed parts
    refine ⟨⟨before, rest, hs, ?_⟩, ⟨fun h => ?_, ?_⟩, hpush, hdecode, ?_⟩
    · exact hparts.imp (fun h => ⟨parts, h⟩) fun h => ⟨⟨parts, h.1⟩, h.2⟩
    · rcases hparts with hclosed | ⟨rfl, -⟩
      · exact ⟨parts, hclosed⟩
      · exact absurd (decode_unclosed parts) h
    · rintro ⟨parts, hclosed⟩
      rw [hdecode parts hclosed]
      exact content_ne_unclosed _
    · rcases hparts with hclosed | ⟨hopen, -⟩
      · rw [hdecode parts hclosed, hclosed, decodeFromEnd_closed]
      · rw [hopen, decode_unclosed, decodeFromEnd_unclosed]
  · refine ⟨_, ofText_encode cs, ?_, ⟨_, rfl⟩, ?_⟩
    · rw [written_partsOf]
      rfl
    · rw [decode_closed, meanings_partsOf]
      exact if_neg hcs

/-- In the text `"a\\" "b\"` the first literal ends in a pair of backslashes and is closed, and the
second one is not: its last quote belongs to an escape. The mark of keywords may stand in a text,
but not in front. -/
theorem closed_backslashes :
    let s := "\"a\\\\\" \"b\\\""
    let first := ['a', '\\', '\\', '\"']
    let second := ['b', '\\', '\"']
    .text first ∈ (ofText s).1 ∧ .text second ∈ (ofText s).1 ∧
      decode first = .ok "a\\" ∧ decode second = .error .unclosedText ∧
      decodeFromEnd ('\"' :: second) = .error .unclosedText ∧
      ['a', 'ʞ'].head? ≠ some Keyword.mark ∧
      ∃ body, ofText "\"aʞ\"" = ([.text body], none) ∧ decode body = .ok "aʞ" := by
  intro s first second
  have htokens : (ofText s).1 = [.text first, .text second] := by decide +kernel
  have hfirst : .text first ∈ (ofText s).1 := by
    rw [htokens]
    exact List.mem_cons_self ..
  have hsecond : .text second ∈ (ofText s).1 := by
    rw [htokens]
    exact List.mem_cons_of_mem _ (List.mem_cons_self ..)
  have hdecode := (closed_iff_decodes.1 s first hfirst).2.2.2.1
    [.plain 'a' (by decide) (by decide), .escaped '\\' (by decide)] rfl
  have hend := (closed_iff_decodes.1 s second hsecond).2.2.2.2
  have hopen : decode second = .error .unclosedText := rfl
  have hmark : ['a', 'ʞ'].head? ≠ some Keyword.mark := by decide
  obtain ⟨body, hbody, -, -, htext⟩ := closed_iff_decodes.2.2 ['a', 'ʞ'] hmark
  exact ⟨hfirst, hsecond, hdecode, hopen, hend.trans hopen, hmark, body, hbody, htext⟩

end Token

end AtomLisp
