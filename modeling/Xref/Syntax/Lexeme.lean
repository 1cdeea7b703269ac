import Xref.Syntax.Kind

/-!
# Lexemes

A lexeme is a token together with the trivia around it: before it everything that no earlier
token took, after it the rest of its line up to and including the newline.
-/

namespace Xref

/-- A piece of text between tokens. -/
structure Trivia where
  kind : TriviaKind
  text : String
  deriving DecidableEq, Repr, Inhabited

/-- The text of several pieces, in order. -/
def Trivia.join (pieces : List Trivia) : String := String.join (pieces.map Trivia.text)

/-- A token with the trivia that belong to it. -/
structure Lexeme where
  kind : TokenKind
  text : String
  leading : List Trivia
  trailing : List Trivia
  deriving DecidableEq, Repr, Inhabited

namespace Lexeme

/-- Everything a lexeme stands for in the source: its trivia and its text. -/
def source (l : Lexeme) : String := Trivia.join l.leading ++ l.text ++ Trivia.join l.trailing

/-- Whether the token has the given kind and text. -/
def is (l : Lexeme) (kind : TokenKind) (text : String) : Bool := l.kind == kind && l.text == text

/-- Whether the token is the given punctuation. -/
def isPunctuation (l : Lexeme) (text : String) : Bool := l.is .punctuation text

/-- Whether the token is the given keyword. -/
def isKeyword (l : Lexeme) (text : String) : Bool := l.is .keyword text

/-- Whether the token is a name. -/
def isIdentifier (l : Lexeme) : Bool := l.kind.isIdentifier

end Lexeme

/-! ## Spellings -/

/-- Opens a block or a record. -/
def openBrace : String := "\x7b"

/-- Closes a block or a record. -/
def closeBrace : String := "\x7d"

/-- The words that the language keeps for itself. -/
def keywords : List String :=
  ["import", "fn", "type", "record", "let", "return", "if", "else", "while"]

/-- The words that are literals. -/
def literalWords : List String := ["true", "false"]

/-- The punctuation that takes two characters. -/
def doublePunctuation : List (Char × Char) :=
  [('-', '>'), ('=', '='), ('!', '='), ('<', '='), ('>', '='), ('&', '&'), ('|', '|')]

/-- The punctuation that takes one character. -/
def singlePunctuation : List Char :=
  ['(', ')', '\x7b', '\x7d', ';', ':', ',', '.', '=', '+', '-', '*', '/', '<', '>', '!']

/-- Whether a name can start with `c`: an ASCII letter or an underscore. -/
def startsWord (c : Char) : Bool := c.isAlpha || c == '_'

/-- Whether a name can go on with `c`: an ASCII letter or digit, or an underscore. -/
def continuesWord (c : Char) : Bool := c.isAlphanum || c == '_'

/-- Whether a text has the form of a name. -/
def isWord (text : String) : Bool :=
  match text.toList with
  | [] => false
  | c :: cs => startsWord c && cs.all continuesWord

/-- The kind of token that a word is. -/
def wordKind (word : String) : TokenKind :=
  if literalWords.contains word then .literal
  else if keywords.contains word then .keyword
  else .identifier

end Xref
