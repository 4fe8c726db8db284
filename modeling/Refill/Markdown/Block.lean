/-!
# Blocks

The structure of a document, as far as it concerns where its paragraphs are: a tree of
blocks, each with the stretch of the document it covers. `Mark` is an entry of the flat
list that the tree amounts to.
-/

namespace Refill.Markdown

/-- A stretch of a document: the number of characters before it, and before what follows it. -/
structure Span where
  start : Nat
  stop : Nat
  deriving DecidableEq, Repr

namespace Span

def encloses (outer inner : Span) : Bool :=
  outer.start ≤ inner.start && inner.stop ≤ outer.stop

def holds (span : Span) (offset : Nat) : Bool :=
  span.start ≤ offset && offset < span.stop

end Span

/-- A line of a paragraph without its indentation and its end. -/
structure TextLine where
  content : List Char
  /-- Where the blanks or the backslash stand that break the line behind it, if any do. -/
  breakAt : Option Nat

inductive Block where
  | paragraph (span : Span) (lines : List TextLine)
  /-- A heading, with the lines of its text if those are underlined. -/
  | heading (lines : List TextLine)
  | thematicBreak
  | code
  | html
  | table (span : Span)
  | quote (span : Span) (blocks : List Block)
  /-- A list of items; it is tight if no blank line divides their blocks. -/
  | list (tight : Bool) (items : List Block)
  | item (span : Span) (blocks : List Block)
  | footnote (span : Span) (blocks : List Block)

/-- What a reader of a document is told of, in the order of the document. -/
inductive Mark where
  | paragraph (span : Span)
  | heading
  | thematicBreak
  | code
  | html
  | list
  | table (span : Span)
  | quote (span : Span)
  | item (span : Span)
  | footnote (span : Span)
  /-- A place at which a paragraph or heading breaks the line. -/
  | hardBreak (offset : Nat)
  deriving DecidableEq, Repr

end Refill.Markdown
