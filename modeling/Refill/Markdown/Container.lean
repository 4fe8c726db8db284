import Refill.Markdown.Html
import Refill.Markdown.Label
import Refill.Markdown.Margin
import Refill.Markdown.Opening

/-!
# Containers

Block quotes, lists with their items, and footnotes hold other blocks. A line goes on
in the containers that are open as far as it begins with their marks or indentation.
What ends a paragraph depends on whether the line goes on in all of them.
-/

namespace Refill.Markdown

/-- A block that holds other blocks, while it is open. -/
inductive Container where
  | quote
  /-- A list, with the character by which its items are known to belong to it. It is tight until a
  blank line divides its blocks. -/
  | list (delimiter : Char) (tight : Bool)
  /-- An item of a list, with the columns by which its lines are indented. -/
  | item (indent : Nat)
  | footnote

namespace Container

/-- The margin behind what the container puts before each of its lines, if the line has that. -/
def enter? (margin : Margin) : Container → Option Margin
  | quote => (margin.indent 3).2.quoteMark?
  | list _ _ => some margin
  | item indent => indented? indent
  | footnote => indented? 4
where
  /-- The margin behind an indentation, which a blank line need not have. -/
  indented? (columns : Nat) : Option Margin :=
    let (enough, after) := margin.indentBy columns
    if enough || after.atLineEnd then some after else none

/-- How many of the containers the line goes on in, from the outermost one, and the margin behind
what they put before it. -/
def enter : List Container → Margin → Nat × Margin
  | [], margin => (0, margin)
  | container :: inner, margin =>
      match container.enter? margin with
      | none => (0, margin)
      | some margin =>
          let (count, margin) := enter inner margin
          (count + 1, margin)

/-- Whether the line at the place goes on in all containers, and the margin behind what they put
before it. -/
def enterAll (containers : List Container) (place : Place) : Bool × Margin :=
  let (count, margin) := enter containers (.start place)
  (count == containers.length, margin)

end Container

/-- Whether the text begins with the label of a footnote and a colon. -/
def footnoteMark? (rest : List Char) : Option (Nat × List Char) :=
  if "[^".toList.isPrefixOf rest then
    match label? (fun _ => none) (rest.drop 2) with
    | none => none
    | some (length, name) =>
        if (rest.drop (2 + length)).head? == some ':' then some (2 + length + 1, name) else none
  else none

/-- Whether an item that opens here may end a paragraph. Outside of a table and within the
containers of the paragraph it must not be empty, and if it is numbered it must be the first. -/
def itemInterrupts (inTable current : Bool) (rest : List Char) : Bool :=
  match itemMark? rest with
  | none => false
  | some mark =>
      let behind := rest.drop mark.length
      let opens := behind.head?.all fun c => c == ' ' || c == '\t' || isLineEnd c
      opens && (!current || inTable || (mark.number.all (· == 1) && !isBlankLine behind))

/-- Whether the line ends a table or a paragraph, tables aside. -/
def interruptsRow (inTable current : Bool) (rest : List Char) : Bool :=
  (lineEnd? rest).isSome || (thematicBreak? rest).isSome || opensHeading rest ||
    (fence? rest).isSome || rest.head? == some '>' || itemInterrupts inTable current rest ||
    (rest.head? == some '<' &&
      ((blockTerminator? (rest.drop 1)).isSome || opensBlockElement (rest.drop 1))) ||
    (footnoteMark? rest).isSome

/-- The pipes of a line that divide cells, each as the number of characters before it. A backslash
takes the pipe behind it out, and does so behind another backslash as well. -/
def bluntPipes (row : List Char) : List Nat :=
  go 0 false row
where
  go (index : Nat) (escaped : Bool) : List Char → List Nat
    | [] => []
    | c :: rest =>
        if c == '|' && !escaped then index :: go (index + 1) false rest
        else go (index + 1) (c == '\\') rest

/-- The pipes of a line that divide cells, each as the number of characters before it. A backslash
takes the punctuation behind it out. -/
def pipes (row : List Char) : List Nat :=
  go 0 row
where
  go (index : Nat) : List Char → List Nat
    | [] => []
    | '\\' :: c :: rest =>
        if isPunctuation c then go (index + 2) rest else go (index + 1) (c :: rest)
    | c :: rest => if c == '|' then index :: go (index + 1) rest else go (index + 1) rest

/-- The place behind the delimiter row that makes a table of the header row at the place, whose
pipes are given. -/
def tableBody? (containers : List Container) (place : Place) (pipes : List Nat) : Option Place :=
  match pipes.getLast? with
  | none => none
  | some lastPipe =>
      let row := line place.rest
      if (place.rest.drop row.length).isEmpty then none
      else
        let (current, margin) :=
          Container.enterAll containers (place.advance (lineLength place.rest))
        if current && delimiterColumns? margin.rest ==
            some (headerColumns row pipes.length lastPipe) then
          some (margin.place.advance (lineLength margin.rest))
        else none

/-- Whether the line at the place ends a paragraph. -/
def interrupts (containers : List Container) (current : Bool) (place : Place) : Bool :=
  interruptsRow false current place.rest ||
    (place.rest.head? == some '|' &&
      (tableBody? containers place (bluntPipes (line place.rest))).isSome)

/-- Whether a paragraph may not go on in the line at the place, or becomes a heading by it. -/
def endsParagraph (containers : List Container) (current : Bool) (place : Place) : Bool :=
  interrupts containers current place || (underline? place.rest).isSome

end Refill.Markdown
