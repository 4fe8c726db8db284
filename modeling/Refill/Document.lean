import Refill.Markdown.Document
import Refill.Paragraph

/-!
# Refilling a document

The paragraphs of a document are refilled in place; all else is copied. A paragraph is
left as it is when it stands in a container or table, when one of its lines breaks, or
when it would not be read as a single paragraph afterwards: a word such as `-` may come
to stand at the beginning of a line.
-/

namespace Refill.Document

open Markdown

def paragraphSpan? : Mark → Option Span
  | .paragraph span => some span
  | _ => none

/-- The stretch of a container other than a list, or of a table. -/
def containerSpan? : Mark → Option Span
  | .quote span | .item span | .footnote span | .table span => some span
  | _ => none

def breakOffset? : Mark → Option Nat
  | .hardBreak offset => some offset
  | _ => none

/-- Whether the paragraph with this stretch may be refilled: no container holds it, and no line breaks
in it. -/
def isEligible (containers : List Span) (breaks : List Nat) (span : Span) : Bool :=
  !containers.any (·.encloses span) && !breaks.any span.holds

def isOtherBlock : Mark → Bool
  | .paragraph _ | .item _ | .hardBreak _ => false
  | _ => true

/-- Whether the text is read as one paragraph and no other block. -/
def isSoleParagraph (text : List Char) : Bool :=
  let marks := marks text
  (marks.filterMap paragraphSpan?).length == 1 && !marks.any isOtherBlock

/-- A paragraph refilled, with the blanks that end it; as it is if it would not stay one. -/
def refillParagraph (width : Nat) (text : List Char) : List Char :=
  let filled := Paragraph.fill width (Text.trimEnd text)
  if isSoleParagraph filled then filled ++ Text.blankTail text else text

/-- Edits stretches of a text and copies what lies between them. The text begins behind so many
characters of the document, and the stretches are given in order. -/
def splice (edit : Span → List Char → List Char) : Nat → List Span → List Char → List Char
  | _, [], text => text
  | offset, span :: spans, text =>
      let behind := text.drop (span.start - offset)
      let length := span.stop - span.start
      text.take (span.start - offset) ++ edit span (behind.take length) ++
        splice edit span.stop spans (behind.drop length)

/-- Refills the paragraphs that the marks tell of, where that is possible. -/
def refillMarked (width : Nat) (marks : List Mark) (source : List Char) : List Char :=
  let containers := marks.filterMap containerSpan?
  let breaks := marks.filterMap breakOffset?
  let edit := fun span text =>
    if isEligible containers breaks span then refillParagraph width text else text
  splice edit 0 (marks.filterMap paragraphSpan?) source

/-- Refills the paragraphs of a document, for a width that is not zero. -/
def refill (source : List Char) (width : Nat) : Except WrapError (List Char) :=
  if width = 0 then .error .zeroWidth
  else .ok (refillMarked width (marks source) source)

end Refill.Document
