import StubMerge.Text.Position

/-!
# Tokens

A token is a word of the text with its kind and the two points it stands between. Three groups
of kinds matter to everything that reads tokens: those that end a statement, and those that
open or close a bracketed group.
-/

namespace StubMerge

/-- The kinds of tokens. -/
inductive TokenKind where
  | leftParen
  | rightParen
  | leftBracket
  | rightBracket
  | leftBrace
  | rightBrace
  | comma
  | dot
  | colon
  /-- Two colons. -/
  | pathSeparator
  | semicolon
  | equals
  | less
  /-- Two less-than signs. -/
  | shiftLeft
  | star
  | doubleStar
  | ampersand
  | fatArrow
  /-- Any other operator, of one or more characters. -/
  | operator
  | classWord
  | moduleWord
  | defWord
  | endWord
  | selfWord
  | doWord
  /-- An identifier that does not start with a capital, or a global variable. -/
  | name
  /-- An identifier that starts with a capital. -/
  | const
  | instanceVariable
  | symbol
  | string
  | number
  | comment
  | newline
  | unknown
  | eof
deriving DecidableEq, Repr, Inhabited

namespace TokenKind

/-- The kinds that end a statement. -/
def endsStatement : TokenKind → Bool
  | newline | semicolon | eof => true
  | _ => false

/-- The kinds that open a bracketed group. -/
def opensGroup : TokenKind → Bool
  | leftParen | leftBracket | leftBrace => true
  | _ => false

/-- The kinds that close a bracketed group. -/
def closesGroup : TokenKind → Bool
  | rightParen | rightBracket | rightBrace => true
  | _ => false

end TokenKind

/-- A word of a text. -/
structure Token where
  kind : TokenKind
  /-- The characters of the token. -/
  text : String
  /-- The point before the first character. -/
  start : Position
  /-- The point after the last character. -/
  stop : Position
deriving DecidableEq, Repr, Inhabited

end StubMerge
