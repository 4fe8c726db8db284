import Refill.Markdown.Definition
import Refill.Markdown.Inline

/-!
# Documents

A document is read block by block. Between two blocks the containers that are open are
known (`Progress`): a line first goes on in those it can, then it may open others, and
what is left of it begins a block that runs over as many lines as belong to it.

Every block takes up at least one character. The functions that read on take a bound on
the number of steps, and the number of characters in the document is one.
-/

namespace Refill.Markdown

/-- A container that is open, with the blocks it holds so far, the latest first. -/
structure Frame where
  container : Container
  start : Nat
  blocks : List Block

def Frame.block (frame : Frame) (stop : Nat) : Block :=
  match frame.container with
  | .quote => .quote ⟨frame.start, stop⟩ frame.blocks.reverse
  | .list _ tight => .list tight frame.blocks.reverse
  | .item _ => .item ⟨frame.start, stop⟩ frame.blocks.reverse
  | .footnote => .footnote ⟨frame.start, stop⟩ frame.blocks.reverse

/-- What is known between two blocks. -/
structure Progress where
  /-- The blocks outside of all containers, the latest first. -/
  blocks : List Block
  /-- The containers that are open, the innermost first. -/
  frames : List Frame
  /-- The end of the line of an item whose mark is all there has been of it. -/
  emptyItem : Option Nat
  afterBlank : Bool
  links : List (List Char)
  footnotes : List (List Char)

namespace Progress

def start : Progress where
  blocks := []
  frames := []
  emptyItem := none
  afterBlank := false
  links := []
  footnotes := []

/-- The containers that are open, the outermost first. -/
def containers (progress : Progress) : List Container :=
  progress.frames.reverse.map Frame.container

def innermost? (progress : Progress) : Option Container :=
  progress.frames.head?.map Frame.container

def add (progress : Progress) (block : Block) : Progress :=
  match progress.frames with
  | [] => { progress with blocks := block :: progress.blocks }
  | frame :: outer =>
      { progress with frames := { frame with blocks := block :: frame.blocks } :: outer }

def enter (progress : Progress) (container : Container) (start : Nat) : Progress :=
  { progress with frames := ⟨container, start, []⟩ :: progress.frames }

def close (progress : Progress) (stop : Nat) : Progress :=
  match progress.frames with
  | [] => progress
  | frame :: outer => { progress with frames := outer }.add (frame.block stop)

def closeMany (progress : Progress) (stop : Nat) : Nat → Progress
  | 0 => progress
  | count + 1 => (progress.close stop).closeMany stop count

/-- Ends an item that is empty up to a blank line: it may not go on. -/
def closeEmptyItem (progress : Progress) : Progress :=
  let closed :=
    match progress.emptyItem, progress.innermost? with
    | some stop, some (.item _) => if progress.afterBlank then progress.close stop else progress
    | _, _ => progress
  { closed with emptyItem := none }

/-- The blank line before divides blocks of the list, if the frames end with one. -/
def loosen : List Frame → List Frame
  | ⟨.list delimiter _, start, blocks⟩ :: outer => ⟨.list delimiter false, start, blocks⟩ :: outer
  | frames => frames

/-- Prepares for a block that is no item: an open list ends, and a blank line before the block
loosens the list it is in. -/
def closeList (progress : Progress) : Progress :=
  let progress := progress.closeEmptyItem
  let progress :=
    match progress.innermost? with
    | some (.list _ _) => progress.close 0
    | _ => progress
  if progress.afterBlank then
    { progress with
      afterBlank := false
      frames :=
        match progress.frames with
        | [] => []
        | inner :: outer => inner :: loosen outer }
  else progress

/-- Prepares for an item: it goes on in the list that is open if that has the delimiter. -/
def enterList (progress : Progress) (delimiter : Char) (start : Nat) : Progress :=
  let progress := progress.closeEmptyItem
  match progress.innermost? with
  | some (.list found _) =>
      if found == delimiter then
        if progress.afterBlank then
          { progress with afterBlank := false, frames := loosen progress.frames }
        else progress
      else newList progress.closeList
  | _ => newList progress.closeList
where
  newList (progress : Progress) : Progress :=
    { progress.enter (.list delimiter true) start with afterBlank := false }

def blankLine (progress : Progress) : Progress :=
  match progress.frames with
  | ⟨.quote, _, _⟩ :: _ => progress
  | ⟨.item indent, start, blocks⟩ :: outer =>
      let indent := if progress.emptyItem.isSome then 0 else indent
      { progress with afterBlank := true, frames := ⟨.item indent, start, blocks⟩ :: outer }
  | _ => { progress with afterBlank := true }

end Progress

/-- The mark of an item at the margin, which is indented by so many columns: the delimiter of its
list, the columns by which its lines are indented, and the margin behind it. -/
def itemStart? (outer : Nat) (margin : Margin) : Option (Char × Nat × Margin) :=
  match itemMark? margin.rest with
  | none => none
  | some mark =>
      if mark.number.isNone && (thematicBreak? margin.rest).isSome then none
      else
        let (spaced, behind) := (margin.pass mark.length).indentBy 1
        if spaced || behind.atLineEnd then
          let indent := outer + mark.length + 1
          let (extra, inner) := behind.indent 4
          if isBlankLine behind.rest || 4 ≤ extra then some (mark.delimiter, indent, behind)
          else some (mark.delimiter, indent + extra, inner)
        else none

/-- What a line is after the containers it opens. -/
inductive LineStart where
  /-- A block begins here, or the rest is blank. -/
  | content (progress : Progress) (margin : Margin)
  /-- An item opens that is empty so far; the next line begins here. -/
  | emptyItem (progress : Progress) (next : Place)

/-- Opens the containers whose marks stand at the margin; `fuel` bounds their number. -/
def openContainers : (fuel : Nat) → Progress → Margin → LineStart
  | 0, progress, margin => .content progress margin
  | fuel + 1, progress, margin =>
      let (outer, inner) := margin.indent 4
      if 4 ≤ outer then .content progress margin
      else
        match footnoteMark? inner.rest with
        | some (length, name) =>
            let progress := progress.closeList
            let progress :=
              match progress.innermost? with
              | some .footnote => progress.close inner.place.offset
              | _ => progress
            let progress := progress.enter .footnote inner.place.offset
            let behind := inner.place.advance length
            openContainers fuel
              { progress with footnotes := foldLabel name :: progress.footnotes }
              (.start (behind.advance (lengthWhile isGap behind.rest)))
        | none =>
            match itemStart? outer inner with
            | some (delimiter, indent, behind) =>
                let start := inner.place.offset - outer
                let progress := (progress.enterList delimiter start).enter (.item indent) start
                match blankLine? behind.rest with
                | some length =>
                    let next := behind.place.advance length
                    .emptyItem { progress with emptyItem := some next.offset } next
                | none => openContainers fuel progress behind
            | none =>
                match inner.quoteMark? with
                | some behind =>
                    openContainers fuel
                      (progress.closeList.enter .quote inner.place.offset) behind
                | none => .content progress margin

/-- The place behind an indented code block, of which a line begins here. -/
def indentedCode (containers : List Container) : (fuel : Nat) → Place → Place
  | 0, place => place
  | fuel + 1, place =>
      let next := place.advance (feedLength place.rest)
      let (current, margin) := Container.enterAll containers next
      let (indented, margin) := margin.indentBy 4
      if current && (indented || margin.atLineEnd) && !margin.rest.isEmpty then
        indentedCode containers fuel margin.place
      else next

/-- The place behind a fenced code block that is indented by so many columns, of which a line or the
closing fence begins here. -/
def fencedCode (containers : List Container) (indent : Nat) (fence : Fence) :
    (fuel : Nat) → Place → Place
  | 0, place => place
  | fuel + 1, place =>
      let (current, margin) := Container.enterAll containers place
      if current then
        let margin := (margin.indent indent).2
        let (indented, closing) := margin.indentBy (4 - indent)
        match if indented then none else fence.close? closing.rest with
        | some length =>
            let behind := closing.place.advance length
            behind.advance ((blankLine? behind.rest).getD 0)
        | none =>
            fencedCode containers indent fence fuel
              (margin.place.advance (feedLength margin.rest))
      else place

/-- The place behind a block of HTML that ends with the line that holds the terminator, of which a
line begins here. -/
def terminatedHtml (containers : List Container) (terminator : List Char) :
    (fuel : Nat) → Place → Place
  | 0, place => place
  | fuel + 1, place =>
      let length := feedLength place.rest
      let next := place.advance length
      let (current, margin) := Container.enterAll containers next
      if current && !contains terminator (place.rest.take length) && !margin.rest.isEmpty then
        terminatedHtml containers terminator fuel margin.place
      else next

/-- The place behind a block of HTML that ends before a blank line, of which a line begins here. -/
def openHtml (containers : List Container) : (fuel : Nat) → Place → Place
  | 0, place => place
  | fuel + 1, place =>
      let next := place.advance (feedLength place.rest)
      let (current, margin) := Container.enterAll containers next
      if current && !isBlankLine margin.rest then openHtml containers fuel margin.place else next

/-- The place behind the rows of a table, of which one may begin here. -/
def tableRows (containers : List Container) : (fuel : Nat) → Place → Place
  | 0, place => place
  | fuel + 1, place =>
      let (current, margin) := Container.enterAll containers place
      let margin := margin.skipIndent
      if current && !interruptsRow true true margin.rest then
        tableRows containers fuel (margin.place.advance (lineLength margin.rest))
      else place

/-- Where the blanks or the backslash stand that break the line, whose content begins at the place
behind so many blanks. -/
def breakPlace? (indent offset : Nat) (content : List Char) : Option Nat :=
  let reversed := content.reverse
  let backslashes := runLength '\\' reversed
  let blanks := lengthWhile isGap reversed
  let blanks := if blanks = content.length then blanks + indent else blanks
  if backslashes % 2 = 1 then some (offset + content.length - 1)
  else if 2 ≤ blanks then some (offset + content.length - blanks)
  else none

structure TextBlock where
  lines : List TextLine
  underlined : Bool
  next : Place

/-- The lines of text from here on, where the content of one begins behind so many blanks. -/
def textBlock (containers : List Container) : (fuel indent : Nat) → Place → TextBlock
  | 0, _, place => ⟨[], false, place⟩
  | fuel + 1, indent, place =>
      let content := line place.rest
      let next := place.advance (lineLength place.rest)
      let (current, margin) := Container.enterAll containers next
      let (indented, margin) := margin.indentBy 4
      match if !indented && current then underline? margin.rest else none with
      | some length => ⟨[⟨content, none⟩], true, margin.place.advance length⟩
      | none =>
          let text := margin.skipIndent
          if (!indented && interrupts containers current margin.place) || text.atLineEnd then
            ⟨[⟨content, none⟩], false, next⟩
          else
            let later :=
              textBlock containers fuel (text.place.offset - next.offset) text.place
            let first := ⟨content, breakPlace? indent place.offset content⟩
            { later with lines := first :: later.lines }

/-- The block that begins at the place, where the line is indented by less than four columns, and
the place behind it. A definition is no block. -/
def leaf (fuel : Nat) (progress : Progress) (indent : Nat) (place : Place) : Progress × Place :=
  let containers := progress.containers
  let rest := place.rest
  let terminator := if rest.head? == some '<' then blockTerminator? (rest.drop 1) else none
  match terminator with
  | some terminator => (progress.add .html, terminatedHtml containers terminator fuel place)
  | none =>
      if rest.head? == some '<' && (opensBlockElement (rest.drop 1) || isLoneTag rest) then
        (progress.add .html, openHtml containers fuel place)
      else
        match thematicBreak? rest with
        | some length => (progress.add .thematicBreak, place.advance length)
        | none =>
            if opensHeading rest then
              (progress.add (.heading []), place.advance (lineLength rest))
            else
              match fence? rest with
              | some fence =>
                  let content := place.advance fence.length
                  (progress.add .code,
                    fencedCode containers indent fence fuel
                      (content.advance (feedLength content.rest)))
              | none =>
                  match definition? containers fuel place with
                  | some (name, next) =>
                      ({ progress with links := foldLabel name :: progress.links }, next)
                  | none => text containers
where
  /-- A table or a paragraph. -/
  text (containers : List Container) : Progress × Place :=
    match tableBody? containers place (pipes (line place.rest)) with
    | some body =>
        let next := tableRows containers fuel body
        (progress.add (.table ⟨place.offset, next.offset⟩), next)
    | none =>
        let text := textBlock containers fuel 0 place
        let block :=
          if text.underlined then .heading text.lines
          else .paragraph ⟨place.offset, text.next.offset⟩ text.lines
        (progress.add block, text.next)

/-- Reads the line at the place, and the lines of the block that begins in it. -/
def readBlock (fuel : Nat) (progress : Progress) (place : Place) : Progress × Place :=
  let (count, margin) := Container.enter progress.containers (.start place)
  let progress := progress.closeMany place.offset (progress.frames.length - count)
  match openContainers fuel progress margin with
  | .emptyItem progress next => (progress, next)
  | .content progress margin =>
      match blankLine? margin.rest with
      | some length => (progress.blankLine, margin.place.advance length)
      | none =>
          let progress := progress.closeList
          let (indent, inner) := margin.indent 4
          if indent = 4 then
            (progress.add .code, indentedCode progress.containers fuel inner.place)
          else leaf fuel progress indent inner.place

/-- Reads all blocks from the place on; `fuel` bounds their number. -/
def readBlocks : (fuel : Nat) → Progress → Place → Progress
  | 0, progress, place => progress.closeMany place.offset progress.frames.length
  | fuel + 1, progress, place =>
      if place.rest.isEmpty then progress.closeMany place.offset progress.frames.length
      else
        let (progress, next) := readBlock fuel progress place
        readBlocks fuel progress next

structure Document where
  blocks : List Block
  definitions : Definitions

def Document.read (text : List Char) : Document :=
  let progress := readBlocks (text.length + 1) .start ⟨0, text⟩
  { blocks := progress.blocks.reverse
    definitions := { links := progress.links, footnotes := progress.footnotes } }

mutual

/-- The marks of a block. The paragraphs of the items of a tight list are no paragraphs by
themselves: they are `hidden`. -/
def Block.marks (definitions : Definitions) (hidden : Bool) : Block → List Mark
  | .paragraph span lines =>
      let breaks := (hardBreaks definitions lines).map .hardBreak
      if hidden then breaks else .paragraph span :: breaks
  | .heading lines => .heading :: (hardBreaks definitions lines).map .hardBreak
  | .thematicBreak => [.thematicBreak]
  | .code => [.code]
  | .html => [.html]
  | .table span => [.table span]
  | .quote span blocks => .quote span :: Block.allMarks definitions false blocks
  | .list tight items => .list :: Block.allMarks definitions tight items
  | .item span blocks => .item span :: Block.allMarks definitions hidden blocks
  | .footnote span blocks => .footnote span :: Block.allMarks definitions false blocks

def Block.allMarks (definitions : Definitions) (hidden : Bool) : List Block → List Mark
  | [] => []
  | block :: blocks =>
      Block.marks definitions hidden block ++ Block.allMarks definitions hidden blocks

end

/-- The marks of a document, in order. -/
def marks (text : List Char) : List Mark :=
  let document := Document.read text
  Block.allMarks document.definitions false document.blocks

end Refill.Markdown
