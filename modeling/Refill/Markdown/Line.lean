/-!
# Lines of a document

What a line of a Markdown document begins with is decided on the characters that are
left of the document. The functions here measure a front of them: they return its
length, or nothing if there is no such front. A line ends with a line feed, a carriage
return or both, and the end of the document ends it too.
-/

namespace Refill.Markdown

/-- A blank within a line: space, tab, vertical tab or form feed. -/
def isGap (c : Char) : Bool :=
  c == ' ' || c == '\t' || c == '\x0b' || c == '\x0c'

def isLineEnd (c : Char) : Bool :=
  c == '\n' || c == '\r'

/-- A blank of a document: a gap or a line end. -/
def isWhite (c : Char) : Bool :=
  isGap c || isLineEnd c

/-- The ASCII characters that are neither letters nor digits, blanks or controls. -/
def isPunctuation (c : Char) : Bool :=
  ('!' ≤ c && c ≤ '/') || (':' ≤ c && c ≤ '@') || ('[' ≤ c && c ≤ '\x60') || ('{' ≤ c && c ≤ '~')

/-- The length of the longest front whose characters satisfy the predicate. -/
def lengthWhile (holds : Char → Bool) (rest : List Char) : Nat :=
  go 0 rest
where
  /-- The length of the front with what has been counted of it. -/
  go (count : Nat) : List Char → Nat
    | [] => count
    | c :: rest => if holds c then go (count + 1) rest else count

def runLength (c : Char) (rest : List Char) : Nat :=
  lengthWhile (· == c) rest

def lineEnd? : List Char → Option Nat
  | [] => some 0
  | '\r' :: '\n' :: _ => some 2
  | c :: _ => if isLineEnd c then some 1 else none

/-- The length of a line that is blank from here on, with its end. -/
def blankLine? (rest : List Char) : Option Nat :=
  let gap := lengthWhile isGap rest
  (lineEnd? (rest.drop gap)).map (gap + ·)

def isBlankLine (rest : List Char) : Bool :=
  (blankLine? rest).isSome

/-- The line from here on, without its end. -/
def line (rest : List Char) : List Char :=
  rest.takeWhile (!isLineEnd ·)

/-- The length of the line from here on, with its end. -/
def lineLength (rest : List Char) : Nat :=
  let length := lengthWhile (!isLineEnd ·) rest
  length + (lineEnd? (rest.drop length)).getD 0

/-- The length of the text up to the next line feed and with it. In code and HTML no other character
ends a line. -/
def feedLength (rest : List Char) : Nat :=
  let length := lengthWhile (· != '\n') rest
  if (rest.drop length).isEmpty then length else length + 1

def contains (pattern : List Char) : List Char → Bool
  | [] => pattern.isEmpty
  | c :: rest => pattern.isPrefixOf (c :: rest) || contains pattern rest

/-- Whether the text begins with the name, in upper or lower case ASCII letters. -/
def startsWithName (name rest : List Char) : Bool :=
  (rest.take name.length).map Char.toLower == name

end Refill.Markdown
