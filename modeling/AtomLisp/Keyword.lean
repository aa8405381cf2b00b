/-! # Keywords

  A keyword is a text that starts with the keyword mark, a character that no text literal may start
  with. So a keyword and a text never collide as keys of a hash-map, while keywords are compared and
  stored like any other text.
-/

namespace AtomLisp.Keyword

/-- The character that every keyword starts with. -/
def mark : Char := 'ʞ'

/-- Is the text a keyword? -/
def isKeyword (s : String) : Bool := s.front? == some mark

/-- A keyword is a text whose first character is the mark. -/
theorem isKeyword_eq (s : String) : isKeyword s = (s.toList.head? == some mark) := by
  rw [isKeyword, String.front?_eq]

/-- The keyword of a name; a text that is a keyword already stays as it is. -/
def ofName (name : String) : String :=
  if isKeyword name then name else String.ofList (mark :: name.toList)

/-- The name of a keyword: the text after the mark. -/
def name (s : String) : String := String.ofList (s.toList.drop 1)

theorem isKeyword_ofName (n : String) : isKeyword (ofName n) = true := by
  unfold ofName
  split
  · assumption
  · simp [isKeyword_eq]

/-- Making a keyword of a keyword changes nothing. -/
theorem ofName_ofName (n : String) : ofName (ofName n) = ofName n := by
  rw [ofName, if_pos (isKeyword_ofName n)]

end AtomLisp.Keyword
