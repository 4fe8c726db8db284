/-!
# Tokens

A paragraph becomes a list of tokens. Lines end between tokens only: a token's
text is never cut, and what it is decides whether a line has to end behind it.
-/

namespace Refill

inductive Token.Kind where
  /-- Text that is still to be cut into tokens. -/
  | plain
  /-- A word: a run of characters without blanks. -/
  | word
  /-- A code span, or the destination of a link. -/
  | atomic
  /-- A tag that breaks the line. -/
  | lineBreak
  deriving DecidableEq, Repr

/-- A piece of a paragraph. -/
structure Token where
  kind : Token.Kind
  text : List Char
  /-- Whether a blank stands before the piece; a space does then, within a line. -/
  spaced : Bool
  deriving DecidableEq, Repr

namespace Token

def isPlain (token : Token) : Bool :=
  token.kind == .plain

/-- Whether a line ends behind the token. -/
def isLineBreak (token : Token) : Bool :=
  token.kind == .lineBreak

/-- The tokens' fields, kind by kind, each in the order of the tokens. -/
structure Columns where
  texts : List (List Char)
  spaced : List Bool
  plain : List Bool
  lineBreaks : List Bool

def columns (tokens : List Token) : Columns where
  texts := tokens.map text
  spaced := tokens.map spaced
  plain := tokens.map isPlain
  lineBreaks := tokens.map isLineBreak

/-- The token's text, with the space before it if it has one. -/
def spacedText (token : Token) : List Char :=
  if token.spaced then ' ' :: token.text else token.text

/-- The tokens on one line: a space before each spaced token except the first. -/
def join : List Token → List Char
  | [] => []
  | first :: others => first.text ++ others.flatMap spacedText

end Token

end Refill
