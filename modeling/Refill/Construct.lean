import Refill.Cursor
import Refill.Text.Alphanumeric
import Refill.Text.Blank
import Refill.Token

/-!
# Constructs

A construct is a part of a paragraph that is more than words: a code span, a link
or a break tag. Each kind has a scanner, which looks at one place of a text and
either finds its construct there or says where to look next. `Scanner.cut` runs a
scanner over a text and cuts it into the constructs and the text between them;
`Cut.tokens` turns that into tokens.

Nothing is lost between the two: a construct holds everything it spans, and the text
between two constructs is kept with its blanks until tokens are made of it.
-/

namespace Refill

open Text

/-- A part of a paragraph that a line may not end in, but for the label of a link. -/
inductive Construct where
  /-- A code span with the punctuation that follows it. -/
  | codeSpan (text : List Char)
  /-- A link: its label with the brackets, the blanks behind those, and its destination with the
  punctuation that follows it. -/
  | link (opener gap destination : List Char)
  | breakTag (text : List Char)
  deriving DecidableEq, Repr

namespace Construct

def source : Construct → List Char
  | codeSpan text => text
  | link opener gap destination => opener ++ gap ++ destination
  | breakTag text => text

/-- The construct's tokens. The label of a link remains to be cut, and its destination is not
spaced, whatever stands in the gap. -/
def tokens (spaced : Bool) : Construct → List Token
  | codeSpan text => [⟨.atomic, text, spaced⟩]
  | link opener _ destination => [⟨.plain, opener, spaced⟩, ⟨.atomic, destination, false⟩]
  | breakTag text => [⟨.lineBreak, text, spaced⟩]

end Construct

/-- Punctuation that sticks to the construct it follows: neither a blank nor a letter or digit, nor
a character that opens a construct. -/
def isTrailing (c : Char) : Bool :=
  !isBlank c && !isAlphanumeric c && c != '`' && c != '[' && c != '<'

/-- A text cut at its constructs. -/
inductive Cut where
  | last (text : List Char)
  | before (text : List Char) (construct : Construct) (later : Cut)

namespace Cut

def source : Cut → List Char
  | last text => text
  | before text construct later => text ++ construct.source ++ later.source

/-- The token of a text between constructs; none if that is blank. -/
def plainToken (text : List Char) : List Token :=
  let trimmed := trim text
  if trimmed.isEmpty then [] else [⟨.plain, trimmed, startsBlank text⟩]

def tokens : Cut → List Token
  | last text => plainToken text
  | before text construct later =>
      plainToken text ++ construct.tokens (endsBlank text) ++ later.tokens

end Cut

/-- What a scanner says about a place: that a construct stands there, or how far to move on. -/
inductive Scanner.Finding (text : List Char) (Memo : Type) where
  | construct (construct : Construct) (next : Cursor text) (memo : Memo)
  | nothing (next : Cursor text) (memo : Memo)

namespace Scanner.Finding

def next {text : List Char} {Memo : Type} : Finding text Memo → Cursor text
  | construct _ next _ => next
  | nothing next _ => next

end Scanner.Finding

/-- A way to find one kind of construct, which may remember something of the text it has seen. -/
structure Scanner where
  Memo : List Char → Type
  initial : ∀ text, Memo text
  look : ∀ {text}, Memo text → Cursor text → Scanner.Finding text (Memo text)
  /-- The next place is further on. -/
  advances : ∀ {text} (memo : Memo text) (cursor : Cursor text), cursor.rest ≠ [] →
    (look memo cursor).next.rest.length < cursor.rest.length

namespace Scanner

/-- Cuts what is left at the cursor, after the text from `first` on in which no construct was
found. -/
def cutFrom (scanner : Scanner) {text : List Char} (memo : scanner.Memo text)
    (first cursor : Cursor text) : Cut :=
  if left : cursor.rest = [] then
    .last (first.textTo cursor)
  else
    have := scanner.advances memo cursor left
    match _finding : scanner.look memo cursor with
    | .construct construct next later =>
        .before (first.textTo cursor) construct (scanner.cutFrom later next next)
    | .nothing next later => scanner.cutFrom later first next
termination_by cursor.rest.length
decreasing_by
  all_goals simpa [_finding, Finding.next] using this

/-- Cuts a text at the constructs the scanner finds, from left to right. -/
def cut (scanner : Scanner) (text : List Char) : Cut :=
  scanner.cutFrom (scanner.initial text) (.start text) (.start text)

def tokens (scanner : Scanner) (text : List Char) : List Token :=
  (scanner.cut text).tokens

end Scanner

end Refill
