/-!
# Blanks

The characters with the White_Space property, and trimming by them. A text is a
list of characters throughout the library: its width is its length.
-/

namespace Refill.Text

/-- A character with the White_Space property. -/
def isBlank (c : Char) : Bool :=
  c == ' ' || ('\t' ≤ c && c ≤ '\r') || c == '\u0085' || c == '\u00a0' || c == '\u1680' ||
    ('\u2000' ≤ c && c ≤ '\u200a') || c == '\u2028' || c == '\u2029' || c == '\u202f' ||
    c == '\u205f' || c == '\u3000'

def trimStart (text : List Char) : List Char :=
  text.dropWhile isBlank

def trimEnd (text : List Char) : List Char :=
  (text.reverse.dropWhile isBlank).reverse

def trim (text : List Char) : List Char :=
  trimEnd (trimStart text)

/-- The blanks that the text ends with. -/
def blankTail (text : List Char) : List Char :=
  (text.reverse.takeWhile isBlank).reverse

theorem trimEnd_append_blankTail (text : List Char) : trimEnd text ++ blankTail text = text := by
  rw [trimEnd, blankTail, ← List.reverse_append, List.takeWhile_append_dropWhile,
    List.reverse_reverse]

def startsBlank (text : List Char) : Bool :=
  text.head?.any isBlank

def endsBlank (text : List Char) : Bool :=
  text.getLast?.any isBlank

/-- The maximal runs of characters that are not blank, in order. -/
def words (text : List Char) : List (List Char) :=
  go [] text
where
  /-- The words of the rest, the characters of the word begun before it given latest first. -/
  go (begun : List Char) : List Char → List (List Char)
    | [] => close begun []
    | c :: rest => if isBlank c then close begun (go [] rest) else go (c :: begun) rest
  /-- Puts the begun word, if there is one, before the later ones. -/
  close (begun : List Char) (later : List (List Char)) : List (List Char) :=
    if begun.isEmpty then later else begun.reverse :: later

end Refill.Text
