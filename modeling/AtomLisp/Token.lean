/-! # Tokens

  The smallest pieces of a text that mean something: quote marks, brackets, text literals, and the
  words in between. A token keeps the characters that it was written with.
-/

namespace AtomLisp

/-- A kind of bracket. -/
inductive Bracket where
  | round
  | square
  | curly
  deriving DecidableEq, Repr

namespace Bracket

/-- The character that opens. -/
def opening : Bracket → Char
  | round => '('
  | square => '['
  | curly => '{'

/-- The character that closes. -/
def closing : Bracket → Char
  | round => ')'
  | square => ']'
  | curly => '}'

end Bracket

/-- A mark in front of a form, short for a list of a symbol and the form. -/
inductive QuoteMark where
  | quote
  | quasiquote
  | unquote
  | spliceUnquote
  | deref
  deriving DecidableEq, Repr

namespace QuoteMark

/-- How the mark is written. -/
def lexeme : QuoteMark → List Char
  | quote => ['\'']
  | quasiquote => ['\x60']
  | unquote => ['~']
  | spliceUnquote => ['~', '@']
  | deref => ['@']

/-- The symbol that the mark stands for. -/
def symbol : QuoteMark → String
  | quote => "quote"
  | quasiquote => "quasiquote"
  | unquote => "unquote"
  | spliceUnquote => "splice-unquote"
  | deref => "deref"

end QuoteMark

/-- A token. -/
inductive Token where
  | mark (mark : QuoteMark)
  | opener (bracket : Bracket)
  | closer (bracket : Bracket)
  /-- What follows the opening quote of a text literal, with the closing quote if it has one. -/
  | text (body : List Char)
  /-- A number, name or keyword. -/
  | word (cs : List Char)
  deriving DecidableEq, Repr

/-- How a token is written. -/
def Token.lexeme : Token → List Char
  | .mark m => m.lexeme
  | .opener b => [b.opening]
  | .closer b => [b.closing]
  | .text body => '\"' :: body
  | .word cs => cs

end AtomLisp
