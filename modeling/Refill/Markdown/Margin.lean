import Refill.Markdown.Line

/-!
# Margins

Block structure is a matter of columns. A margin is a place in a line whose
indentation is being read: a tab reaches up to the next multiple of four columns, and
when only some of a tab's columns are taken, the others are still owed.
-/

namespace Refill.Markdown

/-- A place in a document: what is left of it and the number of characters before it. -/
structure Place where
  offset : Nat
  rest : List Char

def Place.advance (place : Place) (count : Nat) : Place where
  offset := place.offset + count
  rest := place.rest.drop count

/-- A place in the indentation of a line. -/
structure Margin where
  place : Place
  /-- The number of characters since the latest tab, or the beginning of the line. -/
  column : Nat
  /-- The columns of the latest tab that have not been taken. -/
  owed : Nat

namespace Margin

def start (place : Place) : Margin where
  place := place
  column := 0
  owed := 0

def rest (margin : Margin) : List Char :=
  margin.place.rest

/-- Takes up to so many columns of spaces and tabs; gives the number taken. -/
def indent (margin : Margin) (wanted : Nat) : Nat × Margin :=
  let used := min margin.owed wanted
  let (taken, after) := go (wanted - used) margin.place.offset margin.column (margin.owed - used)
    margin.place.rest
  (used + taken, after)
where
  /-- Takes columns from the characters at the place. -/
  go (wanted offset column owed : Nat) : List Char → Nat × Margin
    | [] => (0, ⟨⟨offset, []⟩, column, owed⟩)
    | c :: rest =>
        if wanted = 0 then (0, ⟨⟨offset, c :: rest⟩, column, owed⟩)
        else if c = ' ' then
          let (taken, after) := go (wanted - 1) (offset + 1) (column + 1) owed rest
          (taken + 1, after)
        else if c = '\t' then
          let width := 4 - column % 4
          let used := min width wanted
          let (taken, after) := go (wanted - used) (offset + 1) 0 (width - used) rest
          (taken + used, after)
        else (0, ⟨⟨offset, c :: rest⟩, column, owed⟩)

/-- Takes so many columns, if there are as many; the margin moves on in either case. -/
def indentBy (margin : Margin) (wanted : Nat) : Bool × Margin :=
  let (taken, after) := margin.indent wanted
  (taken == wanted, after)

def skipIndent (margin : Margin) : Margin :=
  let count := lengthWhile (fun c => c == ' ' || c == '\t') margin.rest
  { margin with place := margin.place.advance count, owed := 0 }

def atLineEnd (margin : Margin) : Bool :=
  margin.rest.head?.all isLineEnd

/-- The place behind the next characters, which are neither spaces nor tabs. -/
def pass (margin : Margin) (count : Nat) : Margin :=
  { margin with place := margin.place.advance count, column := margin.column + count }

/-- The margin behind the mark of a block quote, with the column that belongs to it. -/
def quoteMark? (margin : Margin) : Option Margin :=
  if margin.rest.head? = some '>' then some ((margin.pass 1).indent 1).2 else none

end Margin

end Refill.Markdown
