import AtomLisp.Error

/-! # Text literals

  The written form of a text: between double quotes, with a backslash in front of every backslash
  and double quote, and a line feed as `\n`.

  * `Literal.encode` writes a text;
  * `Literal.decode` reads a literal; after a backslash any character may stand, and one that
    needs none stands for itself.
-/

namespace AtomLisp.Literal

/-- The written form of one character. -/
def encodeChar (c : Char) : List Char :=
  if c = '\\' then ['\\', '\\']
  else if c = '\"' then ['\\', '\"']
  else if c = '\n' then ['\\', 'n']
  else [c]

/-- The literal of a text, quotes included. -/
def encode (cs : List Char) : List Char := '\"' :: cs.flatMap encodeChar ++ ['\"']

/-- The character that stands for `c` after a backslash. -/
def unescape (c : Char) : Char := if c = 'n' then '\n' else c

/-- The text in front of the closing quote; `none` when there is no such quote at the end. -/
def decodeBody : List Char → Option (List Char)
  | [] => none
  | ['\"'] => some []
  | '\\' :: c :: cs => (decodeBody cs).map (unescape c :: ·)
  | c :: cs => (decodeBody cs).map (c :: ·)

/-- The text of a literal, given without its opening quote. -/
def decode (body : List Char) : Except SyntaxFault String :=
  match decodeBody body with
  | none => .error .unclosedText
  | some cs => if cs.head? = some Keyword.mark then .error .markedText else .ok (String.ofList cs)

/-- What is written reads back. -/
theorem decodeBody_flatMap_encodeChar (cs : List Char) :
    decodeBody (cs.flatMap encodeChar ++ ['\"']) = some cs := by
  induction cs with
  | nil => rfl
  | cons c cs ih =>
    by_cases h : c = '\\'
    · subst h
      simp [encodeChar, decodeBody, unescape, ih]
    · by_cases h' : c = '\"'
      · subst h'
        simp [encodeChar, decodeBody, unescape, ih]
      · by_cases h'' : c = '\n'
        · subst h''
          simp [encodeChar, decodeBody, unescape, ih]
        · have : ∀ rest, rest ≠ [] → decodeBody (c :: rest) = (decodeBody rest).map (c :: ·) := by
            intro rest hr
            rw [decodeBody] <;> simp_all
          simp [encodeChar, h, h', h'', this, ih]

end AtomLisp.Literal
