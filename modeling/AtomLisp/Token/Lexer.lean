import AtomLisp.Error
import AtomLisp.Text.Blank
import AtomLisp.Token

/-! # Splitting a text into tokens

  Tokens stand between separators (blanks and commas) and comments, which run from a semicolon to
  the end of the line. Each token is as long as it can be.

  * `Token.scan` takes one token or comment off a text that starts with no separator;
  * `Token.split` takes off all of them;
  * `Token.ofText` also says where a text ends in separators that it may not end in.
-/

namespace AtomLisp.Token

/-! ### Classes of characters -/

/-- Blanks and commas separate tokens. -/
def isSeparator (c : Char) : Bool := Text.isBlank c || c == ','

/-- The separators that may end a text. -/
def isPlainSeparator (c : Char) : Bool :=
  c == ' ' || c == '\t' || c == '\r' || c == '\n' || c == ','

/-- The characters that end a word without being separators. -/
def isDelimiter (c : Char) : Bool :=
  c == '[' || c == ']' || c == '{' || c == '}' || c == '(' || c == ')' ||
  c == '\'' || c == '\"' || c == '\x60' || c == ';'

/-- The characters of words. -/
def isWordChar (c : Char) : Bool := !isSeparator c && !isDelimiter c

/-! ### One token -/

/-- Takes the rest of a text literal off, up to its closing quote. A backslash and the character
after it belong together; a backslash at the end of a line or of the text ends the literal. -/
def scanText : List Char → List Char × List Char
  | [] => ([], [])
  | '\"' :: cs => (['\"'], cs)
  | ['\\'] => ([], ['\\'])
  | '\\' :: '\n' :: cs => ([], '\\' :: '\n' :: cs)
  | '\\' :: c :: cs => let r := scanText cs; ('\\' :: c :: r.1, r.2)
  | c :: cs => let r := scanText cs; (c :: r.1, r.2)

/-- Takes a token or a comment off a text that starts with `c`, which is no separator. A comment
is no token. -/
def scan (c : Char) (cs : List Char) : Option Token × List Char :=
  match c with
  | ';' => (none, cs.dropWhile (· != '\n'))
  | '\'' => (some (.mark .quote), cs)
  | '\x60' => (some (.mark .quasiquote), cs)
  | '@' => (some (.mark .deref), cs)
  | '~' =>
    match cs with
    | '@' :: cs => (some (.mark .spliceUnquote), cs)
    | _ => (some (.mark .unquote), cs)
  | '(' => (some (.opener .round), cs)
  | '[' => (some (.opener .square), cs)
  | '{' => (some (.opener .curly), cs)
  | ')' => (some (.closer .round), cs)
  | ']' => (some (.closer .square), cs)
  | '}' => (some (.closer .curly), cs)
  | '\"' => let r := scanText cs; (some (.text r.1), r.2)
  | c => (some (.word (c :: cs.takeWhile isWordChar)), cs.dropWhile isWordChar)

/-! ### All tokens -/

theorem length_dropWhile_le {α : Type} (p : α → Bool) (xs : List α) :
    (xs.dropWhile p).length ≤ xs.length := (List.dropWhile_suffix p).length_le

theorem scanText_length_le (cs : List Char) : (scanText cs).2.length ≤ cs.length := by
  fun_induction scanText cs with
  | case5 c cs _ r ih => exact Nat.le_trans ih (Nat.le_succ_of_le (Nat.le_succ _))
  | case6 => exact Nat.le_succ_of_le (by assumption)
  | _ => simp

theorem scan_length_le (c : Char) (cs : List Char) : (scan c cs).2.length ≤ cs.length := by
  unfold scan
  split <;> try split
  all_goals simp [length_dropWhile_le, scanText_length_le]

theorem scan_length_lt {cs rest : List Char} {c : Char}
    (h : cs.dropWhile isSeparator = c :: rest) : (scan c rest).2.length < cs.length := by
  have h₁ := scan_length_le c rest
  have h₂ := length_dropWhile_le isSeparator cs
  rw [h, List.length_cons] at h₂
  omega

/-- The tokens of a text, and the run of separators that ends it. -/
def split (cs : List Char) : List Token × List Char :=
  match _h : cs.dropWhile isSeparator with
  | [] => ([], cs)
  | c :: rest =>
    let first := scan c rest
    let others := split first.2
    (first.1.toList ++ others.1, others.2)
termination_by cs.length
decreasing_by exact scan_length_lt _h

/-- A text that ends in a run of separators has to end in plain ones. -/
def trailingFault (length : Nat) (run : List Char) : Option SyntaxFault :=
  match run with
  | [] => none
  | c :: _ =>
    if run.all isPlainSeparator then none else some (.strayBlank (length - run.length) c)

/-- The tokens of a text, and what is wrong with the end of the text. -/
def ofText (s : String) : List Token × Option SyntaxFault :=
  let cs := s.toList
  let r := split cs
  (r.1, trailingFault cs.length r.2)

end AtomLisp.Token
