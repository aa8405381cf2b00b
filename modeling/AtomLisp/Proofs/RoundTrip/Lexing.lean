import AtomLisp.Literal
import AtomLisp.Token.Lexer
import Mathlib.Data.List.Forall2

/-! # Splitting written tokens

  A text that was put together from tokens splits into these tokens again, provided that no word
  runs into what follows it.

  * `Token.Lexes`: a text splits into tokens, with no separators at its end;
  * `Token.Spells`: a piece of text stands for tokens in front of everything that does not go on
    with the last word;
  * `IsWord.spells`, `spells_literal` and `Spells.bracketed` give the pieces of printed values, and
    `spells_intercalate` joins them with blanks.
-/

namespace AtomLisp.Token

/-! ### One token -/

/-- A word as it stands in a text: its characters are those of words, and it does not start like a
quote mark. -/
structure IsWord (cs : List Char) : Prop where
  nonempty : cs ≠ []
  chars    : ∀ c ∈ cs, isWordChar c = true
  first    : ∀ c ∈ cs.head?, c ≠ '~' ∧ c ≠ '@'

/-- A character of words that starts no quote mark, with characters of words after it. -/
theorem isWord_cons {c : Char} {cs : List Char} (hc : isWordChar c = true) (hne : c ≠ '~' ∧ c ≠ '@')
    (hcs : cs.all isWordChar = true) : IsWord (c :: cs) where
  nonempty := List.cons_ne_nil c cs
  chars d hd := by
    rcases List.mem_cons.1 hd with rfl | hd
    · exact hc
    · exact List.all_eq_true.1 hcs d hd
  first d hd := by
    cases hd
    exact hne

theorem isWord_keyword {name : List Char} (h : ∀ c ∈ name, isWordChar c = true) :
    IsWord (':' :: name) :=
  isWord_cons (by decide) (by decide) (List.all_eq_true.2 h)

/-- The text does not go on with a word that stands in front of it. -/
def Boundary (cs : List Char) : Prop := ∀ c ∈ cs.head?, isWordChar c = false

theorem isSeparator_eq_false {c : Char} (h : isWordChar c = true) : isSeparator c = false := by
  simp only [isWordChar, Bool.and_eq_true, Bool.not_eq_true'] at h
  exact h.1

theorem takeWhile_append {w cs : List Char} (hw : ∀ c ∈ w, isWordChar c = true)
    (hcs : Boundary cs) : (w ++ cs).takeWhile isWordChar = w := by
  rw [List.takeWhile_append_of_pos hw]
  cases cs with
  | nil => simp
  | cons c cs => simp [hcs c rfl]

theorem dropWhile_append {w cs : List Char} (hw : ∀ c ∈ w, isWordChar c = true)
    (hcs : Boundary cs) : (w ++ cs).dropWhile isWordChar = cs := by
  rw [List.dropWhile_append_of_pos hw]
  cases cs with
  | nil => rfl
  | cons c cs => simp [hcs c rfl]

/-- A character that starts a word starts no other token. -/
theorem scan_word {c : Char} (h : isWordChar c = true) (h₁ : c ≠ '~') (h₂ : c ≠ '@')
    (cs : List Char) :
    scan c cs = (some (.word (c :: cs.takeWhile isWordChar)), cs.dropWhile isWordChar) := by
  unfold scan
  split
  all_goals first | rfl | contradiction

/-- An escaped character never ends a literal. -/
theorem scanText_encodeChar (c : Char) (cs : List Char) :
    scanText (Literal.encodeChar c ++ cs) =
      (Literal.encodeChar c ++ (scanText cs).1, (scanText cs).2) := by
  unfold Literal.encodeChar
  split
  · simp [scanText]
  · split
    · simp [scanText]
    · split
      · simp [scanText]
      · -- The character is neither a quote nor a backslash.
        rename_i hslash hquote _
        show scanText (c :: cs) = _
        rw [scanText]
        · rfl
        · exact hquote
        · exact fun h => absurd h hslash
        · exact fun _ h => absurd h hslash
        · exact fun _ _ h => absurd h hslash

/-- A literal ends at its closing quote. -/
theorem scanText_encoded (s cs : List Char) :
    scanText (s.flatMap Literal.encodeChar ++ '\"' :: cs) =
      (s.flatMap Literal.encodeChar ++ ['\"'], cs) := by
  induction s with
  | nil => rfl
  | cons c s ih =>
    rw [List.flatMap_cons, List.append_assoc, scanText_encodeChar, ih, List.append_assoc]

/-! ### All tokens -/

/-- The text splits into these tokens, and does not end in separators. -/
def Lexes (cs : List Char) (tokens : List Token) : Prop := split cs = (tokens, [])

namespace Lexes

variable {cs rest : List Char} {tokens : List Token}

theorem nil : Lexes [] [] := by
  unfold Lexes split
  rfl

/-- A token in front of a text. -/
theorem token {c : Char} {t : Token} (hc : isSeparator c = false)
    (hscan : scan c cs = (some t, rest)) (h : Lexes rest tokens) :
    Lexes (c :: cs) (t :: tokens) := by
  have hdrop : (c :: cs).dropWhile isSeparator = c :: cs := by simp [hc]
  unfold Lexes at h ⊢
  rw [split]
  split
  · rename_i hnil
    rw [hdrop] at hnil
    cases hnil
  · rename_i c' rest' hcons
    rw [hdrop] at hcons
    cases hcons
    simp [hscan, h]

/-- A separator in front of a text that does not end in separators. -/
theorem separator {c : Char} (hc : isSeparator c = true) (h : Lexes cs tokens)
    (htokens : tokens ≠ []) : Lexes (c :: cs) tokens := by
  have hdrop : (c :: cs).dropWhile isSeparator = cs.dropWhile isSeparator := by simp [hc]
  unfold Lexes at h ⊢
  rw [split] at h ⊢
  split at h
  · -- There is a token, so the text does not consist of separators.
    cases h
    exact absurd rfl htokens
  · rename_i c' rest' hcons
    split
    · rename_i hnil
      rw [hdrop, hcons] at hnil
      cases hnil
    · rename_i c'' rest'' hcons'
      rw [hdrop, hcons] at hcons'
      cases hcons'
      exact h

theorem ofText {s : String} (h : Lexes s.toList tokens) : ofText s = (tokens, none) := by
  unfold Lexes at h
  simp only [Token.ofText, h]
  rfl

end Lexes

/-! ### Pieces of text -/

/-- The piece of text stands for these tokens, whatever follows that does not go on with a word. -/
def Spells (s : List Char) (tokens : List Token) : Prop :=
  ∀ cs ts, Boundary cs → Lexes cs ts → Lexes (s ++ cs) (tokens ++ ts)

theorem Spells.nil : Spells [] [] := fun _ _ _ h => h

theorem boundary_nil : Boundary [] := nofun

theorem boundary_cons {c : Char} (h : isWordChar c = false) (cs : List Char) :
    Boundary (c :: cs) := by
  intro d hd
  cases hd
  exact h

theorem Spells.lexes {s : List Char} {tokens : List Token} (h : Spells s tokens) :
    Lexes s tokens := by
  have hlexes := h [] [] boundary_nil .nil
  simpa using hlexes

theorem IsWord.spells {w : List Char} (hw : IsWord w) : Spells w [.word w] := by
  intro cs ts hcs h
  obtain ⟨c, w, rfl⟩ := List.exists_cons_of_ne_nil hw.nonempty
  -- The first character decides that it is a word, the others how far it goes.
  have hc := hw.chars c (List.mem_cons_self ..)
  have hrest : ∀ x ∈ w, isWordChar x = true := fun x hx => hw.chars x (List.mem_cons_of_mem c hx)
  obtain ⟨h₁, h₂⟩ := hw.first c rfl
  have hscan : scan c (w ++ cs) = (some (.word (c :: w)), cs) := by
    rw [scan_word hc h₁ h₂, takeWhile_append hrest hcs, dropWhile_append hrest hcs]
  exact Lexes.token (isSeparator_eq_false hc) hscan h

/-- The token of the literal of a text. -/
def literal (s : List Char) : Token := .text (s.flatMap Literal.encodeChar ++ ['\"'])

theorem spells_literal (s : List Char) : Spells (Literal.encode s) [literal s] := by
  intro cs ts _ h
  have hscan : scan '\"' (s.flatMap Literal.encodeChar ++ '\"' :: cs) = (some (literal s), cs) := by
    simp only [scan, scanText_encoded]
    rfl
  have := Lexes.token (by decide) hscan h
  simpa [Literal.encode] using this

/-- Brackets around a piece of text. -/
theorem Spells.bracketed {s : List Char} {tokens : List Token} (h : Spells s tokens)
    (b : Bracket) :
    Spells (b.opening :: s ++ [b.closing]) (.opener b :: tokens ++ [.closer b]) := by
  intro cs ts _ hcs
  have hclose : Lexes (b.closing :: cs) (.closer b :: ts) :=
    Lexes.token (by cases b <;> decide) (by cases b <;> rfl) hcs
  -- A closing bracket ends a word in front of it.
  have hinner := h _ _ (boundary_cons (by cases b <;> decide) cs) hclose
  have hopen : Lexes (b.opening :: (s ++ b.closing :: cs))
      (.opener b :: (tokens ++ .closer b :: ts)) :=
    Lexes.token (by cases b <;> decide) (by cases b <;> rfl) hinner
  simpa using hopen

/-- One piece after another, with a blank between them. -/
theorem Spells.append {s s' : List Char} {tokens tokens' : List Token} (h : Spells s tokens)
    (h' : Spells s' tokens') (hne : tokens' ≠ []) :
    Spells (s ++ ' ' :: s') (tokens ++ tokens') := by
  intro cs ts hb hcs
  have hsep : Lexes (' ' :: (s' ++ cs)) (tokens' ++ ts) :=
    (h' cs ts hb hcs).separator (by decide) (by simp [hne])
  have hlexes := h _ _ (boundary_cons (by decide) _) hsep
  simpa using hlexes

/-- Pieces that are joined with blanks. -/
theorem spells_intercalate {parts : List String} {tokens : List (List Token)}
    (h : List.Forall₂ (fun s ts => Spells s.toList ts ∧ ts ≠ []) parts tokens) :
    Spells (" ".intercalate parts).toList tokens.flatten := by
  induction h with
  | nil => simpa using Spells.nil
  | @cons s ts parts tokens hs hrest ih =>
    cases hrest with
    | nil => simpa using hs.1
    | @cons s' ts' parts' tokens' hs' hrest' =>
      -- The other pieces stand for a token at least, so the blank is not the end of the text.
      have hne : (ts' :: tokens').flatten ≠ [] := by simp [hs'.2]
      have := hs.1.append ih hne
      simpa [String.intercalate_cons_cons] using this

end AtomLisp.Token
