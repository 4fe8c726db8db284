import Refill.Proofs.Markdown.SeamStep
import Refill.Proofs.Markdown.Shift

/-!
# Resuming a reader

A reader that stands outside of all containers has nothing to close: what it finds from there on is
what a reader finds that begins there, laid behind what has been found before (`Progress.resume`,
`readBlock_resume`). Only offsets differ, by the number of characters that lie between.
-/

namespace Refill.Markdown

/-! ## Blocks at other offsets -/

mutual

def Block.shift (d : Nat) : Block → Block
  | .paragraph span lines => .paragraph (span.move (· + d)) (lines.map (TextLine.shift d))
  | .heading lines => .heading (lines.map (TextLine.shift d))
  | .thematicBreak => .thematicBreak
  | .code => .code
  | .html => .html
  | .table span => .table (span.move (· + d))
  | .quote span blocks => .quote (span.move (· + d)) (Block.shiftAll d blocks)
  | .list tight items => .list tight (Block.shiftAll d items)
  | .item span blocks => .item (span.move (· + d)) (Block.shiftAll d blocks)
  | .footnote span blocks => .footnote (span.move (· + d)) (Block.shiftAll d blocks)

def Block.shiftAll (d : Nat) : List Block → List Block
  | [] => []
  | block :: blocks => Block.shift d block :: Block.shiftAll d blocks

end

variable {d : Nat}

theorem Block.shiftAll_eq (blocks : List Block) : shiftAll d blocks = blocks.map (shift d) := by
  induction blocks with
  | nil => rfl
  | cons block blocks ih => rw [shiftAll, ih, List.map_cons]

theorem hardBreaks_shift (definitions : Definitions) (lines : List TextLine) :
    hardBreaks definitions (lines.map (TextLine.shift d)) =
      (hardBreaks definitions lines).map (· + d) := by
  have among (stretches : List Span) (offset : Nat) (lines : List TextLine) :
      hardBreaks.go stretches offset (lines.map (TextLine.shift d)) =
        (hardBreaks.go stretches offset lines).map (· + d) := by
    induction lines generalizing offset with
    | nil => rfl
    | cons line lines ih =>
      rcases line with ⟨content, breakAt⟩
      simp only [List.map_cons, hardBreaks.go, TextLine.shift, ih]
      rcases breakAt with _ | place
      · rfl
      · dsimp only [Option.map_some]
        split <;> rfl
  have content_eq : (lines.map (TextLine.shift d)).map TextLine.content =
      lines.map TextLine.content := by
    rw [List.map_map]
    rfl
  have whole_eq : (lines.map (TextLine.shift d)).all (·.breakAt.isNone) =
      lines.all (·.breakAt.isNone) := by
    rw [List.all_map]
    congr 1
    funext line
    exact Option.isNone_map
  rw [hardBreaks, hardBreaks, whole_eq, content_eq, among]
  split <;> rfl

mutual

theorem Block.marks_shift (definitions : Definitions) (hidden : Bool) :
    (block : Block) → (block.shift d).marks definitions hidden =
      (block.marks definitions hidden).map (Mark.move (· + d))
  | .paragraph span lines => by
      cases hidden <;>
        simp [Block.shift, Block.marks, hardBreaks_shift, Mark.move, Function.comp_def]
  | .heading lines => by
      simp [Block.shift, Block.marks, hardBreaks_shift, Mark.move, Function.comp_def]
  | .thematicBreak => rfl
  | .code => rfl
  | .html => rfl
  | .table _ => rfl
  | .quote span blocks => by
      simp [Block.shift, Block.marks, Block.allMarks_shift _ _ blocks, Mark.move]
  | .list tight items => by
      simp [Block.shift, Block.marks, Block.allMarks_shift _ _ items, Mark.move]
  | .item span blocks => by
      simp [Block.shift, Block.marks, Block.allMarks_shift _ _ blocks, Mark.move]
  | .footnote span blocks => by
      simp [Block.shift, Block.marks, Block.allMarks_shift _ _ blocks, Mark.move]

theorem Block.allMarks_shift (definitions : Definitions) (hidden : Bool) :
    (blocks : List Block) → Block.allMarks definitions hidden (Block.shiftAll d blocks) =
      (Block.allMarks definitions hidden blocks).map (Mark.move (· + d))
  | [] => rfl
  | block :: blocks => by
      rw [Block.shiftAll, Block.allMarks, Block.allMarks, Block.marks_shift _ _ block,
        Block.allMarks_shift _ _ blocks, List.map_append]

end

/-! ## Progress -/

def Frame.shift (d : Nat) (frame : Frame) : Frame where
  container := frame.container
  start := frame.start + d
  blocks := frame.blocks.map (Block.shift d)

theorem Frame.block_shift (frame : Frame) (stop : Nat) :
    (frame.shift d).block (stop + d) = (frame.block stop).shift d := by
  rcases frame with ⟨container, start, blocks⟩
  cases container <;>
    simp [Frame.block, Frame.shift, Block.shift, Block.shiftAll_eq, Span.move]

namespace Progress

/-- What is known when a reader goes on behind so many characters, outside of all containers, and has
found there what the progress tells. -/
def resume (before : Progress) (d : Nat) (progress : Progress) : Progress where
  blocks := progress.blocks.map (Block.shift d) ++ before.blocks
  frames := progress.frames.map (Frame.shift d)
  emptyItem := progress.emptyItem.map (· + d)
  afterBlank := progress.afterBlank
  links := progress.links ++ before.links
  footnotes := progress.footnotes ++ before.footnotes

variable (before progress : Progress)

@[simp]
theorem containers_resume : (before.resume d progress).containers = progress.containers := by
  simp [containers, resume, Frame.shift, Function.comp_def]

@[simp]
theorem innermost?_resume : (before.resume d progress).innermost? = progress.innermost? := by
  rcases progress with ⟨blocks, frames, emptyItem, afterBlank, links, footnotes⟩
  cases frames <;> rfl

@[simp]
theorem length_frames_resume :
    (before.resume d progress).frames.length = progress.frames.length :=
  List.length_map _

theorem add_resume (block : Block) :
    (before.resume d progress).add (block.shift d) = before.resume d (progress.add block) := by
  rcases progress with ⟨blocks, frames, emptyItem, afterBlank, links, footnotes⟩
  cases frames <;> rfl

theorem enter_resume (container : Container) (start : Nat) :
    (before.resume d progress).enter container (start + d) =
      before.resume d (progress.enter container start) := rfl

theorem close_resume (stop : Nat) :
    (before.resume d progress).close (stop + d) = before.resume d (progress.close stop) := by
  rcases progress with ⟨blocks, frames, emptyItem, afterBlank, links, footnotes⟩
  rcases frames with _ | ⟨frame, outer⟩
  · rfl
  · have closed := add_resume (d := d) before ⟨blocks, outer, emptyItem, afterBlank, links, footnotes⟩
      (frame.block stop)
    rw [← Frame.block_shift] at closed
    exact closed

/-- A list has no end of its own. -/
theorem close_of_list {delimiter : Char} {tight : Bool}
    (inner : progress.innermost? = some (.list delimiter tight)) (stop other : Nat) :
    progress.close stop = progress.close other := by
  rcases progress with ⟨blocks, frames, emptyItem, afterBlank, links, footnotes⟩
  rcases frames with _ | ⟨⟨container, start, inside⟩, outer⟩
  · rfl
  · obtain rfl : container = .list delimiter tight := by simpa [innermost?] using inner
    rfl

theorem closeMany_resume (stop count : Nat) :
    (before.resume d progress).closeMany (stop + d) count =
      before.resume d (progress.closeMany stop count) := by
  induction count generalizing progress with
  | zero => rfl
  | succ count ih => rw [closeMany, closeMany, close_resume, ih]

theorem closeEmptyItem_resume :
    (before.resume d progress).closeEmptyItem = before.resume d progress.closeEmptyItem := by
  have forgets (progress : Progress) :
      { before.resume d progress with emptyItem := none } =
        before.resume d { progress with emptyItem := none } := rfl
  unfold closeEmptyItem
  rw [innermost?_resume]
  rcases inner_eq : progress.innermost? with _ | container
  · cases progress.emptyItem <;> cases (before.resume d progress).emptyItem <;>
      exact forgets progress
  cases container with
  | quote | list | footnote =>
    cases progress.emptyItem <;> cases (before.resume d progress).emptyItem <;>
      exact forgets progress
  | item indent =>
    rcases item_eq : progress.emptyItem with _ | stop
    · have none_eq : (before.resume d progress).emptyItem = none := by rw [resume, item_eq]; rfl
      rw [none_eq]
      exact forgets progress
    · have some_eq : (before.resume d progress).emptyItem = some (stop + d) := by
        rw [resume, item_eq]
        rfl
      have blank_eq : (before.resume d progress).afterBlank = progress.afterBlank := rfl
      rw [some_eq]
      dsimp only
      rw [blank_eq, close_resume]
      cases progress.afterBlank with
      | false => exact forgets progress
      | true => exact forgets (progress.close stop)

theorem loosen_shift (frames : List Frame) :
    loosen (frames.map (Frame.shift d)) = (loosen frames).map (Frame.shift d) := by
  rcases frames with _ | ⟨⟨container, start, blocks⟩, outer⟩
  · rfl
  · cases container <;> rfl

theorem endList_resume :
    (before.resume d progress).endList = before.resume d progress.endList := by
  unfold endList
  rw [innermost?_resume]
  rcases inner : progress.innermost? with _ | container
  · rfl
  cases container with
  | quote | item | footnote => rfl
  | list delimiter tight =>
    have listed : (before.resume d progress).innermost? = some (.list delimiter tight) := by
      rw [innermost?_resume, inner]
    dsimp only
    rw [close_of_list _ listed 0 (0 + d), close_resume]

theorem endBlank_resume :
    (before.resume d progress).endBlank = before.resume d progress.endBlank := by
  rcases progress with ⟨blocks, frames, emptyItem, afterBlank, links, footnotes⟩
  cases afterBlank with
  | false => rfl
  | true =>
    rcases frames with _ | ⟨inner, outer⟩
    · rfl
    · simp [endBlank, resume, loosen_shift]

theorem endFootnote_resume (stop : Nat) :
    (before.resume d progress).endFootnote (stop + d) =
      before.resume d (progress.endFootnote stop) := by
  unfold endFootnote
  rw [innermost?_resume, close_resume]
  rcases progress.innermost? with _ | container
  · rfl
  · cases container <;> rfl

theorem closeList_resume :
    (before.resume d progress).closeList = before.resume d progress.closeList := by
  rw [closeList_eq, closeList_eq, closeEmptyItem_resume, endList_resume, endBlank_resume]

theorem enterList_resume (delimiter : Char) (start : Nat) :
    (before.resume d progress).enterList delimiter (start + d) =
      before.resume d (progress.enterList delimiter start) := by
  unfold enterList
  rw [closeEmptyItem_resume]
  generalize progress.closeEmptyItem = progress
  have opens : enterList.newList delimiter (start + d) (before.resume d progress).closeList =
      before.resume d (enterList.newList delimiter start progress.closeList) := by
    rw [closeList_resume]
    rfl
  dsimp only
  rw [innermost?_resume]
  rcases progress.innermost? with _ | container
  · exact opens
  cases container with
  | quote | item | footnote => exact opens
  | list found tight =>
    dsimp only
    by_cases same : found == delimiter
    · rw [if_pos same, if_pos same]
      rcases progress with ⟨blocks, frames, emptyItem, afterBlank, links, footnotes⟩
      cases afterBlank with
      | false => rfl
      | true => simp [resume, loosen_shift]
    · rw [if_neg same, if_neg same]
      exact opens

theorem openFootnote_resume (name : List Char) (start : Nat) :
    (before.resume d progress).openFootnote name (start + d) =
      before.resume d (progress.openFootnote name start) := by
  unfold openFootnote
  rw [closeList_resume, endFootnote_resume]
  rfl

theorem openItem_resume (delimiter : Char) (indent start : Nat) :
    (before.resume d progress).openItem delimiter indent (start + d) =
      before.resume d (progress.openItem delimiter indent start) := by
  rw [openItem, enterList_resume, enter_resume, openItem]

theorem blankLine_resume :
    (before.resume d progress).blankLine = before.resume d progress.blankLine := by
  rcases progress with ⟨blocks, frames, emptyItem, afterBlank, links, footnotes⟩
  rcases frames with _ | ⟨⟨container, start, inside⟩, outer⟩
  · rfl
  · cases container with
    | quote | list | footnote => rfl
    | item indent => cases emptyItem <;> rfl

end Progress

/-! ## Steps -/

section Steps

variable (before progress : Progress) (fuel : Nat)

theorem leaf_text_resume (place : Place) (containers : List Container) :
    leaf.text fuel (before.resume d progress) (place.shift d) containers =
      (before.resume d (leaf.text fuel progress place containers).1,
        (leaf.text fuel progress place containers).2.shift d) := by
  unfold leaf.text
  rw [Place.rest_shift, tableBody_shift, textBlock_shift d containers fuel (Nat.zero_le _)]
  rcases tableBody? containers place (pipes (line place.rest)) with _ | body
  · dsimp only [Option.map_none, TextBlock.shift]
    rw [← Progress.add_resume]
    cases (textBlock containers fuel 0 place).underlined <;> rfl
  · dsimp only [Option.map_some]
    rw [tableRows_shift, ← Progress.add_resume]
    rfl

theorem leaf_resume (indent : Nat) (place : Place) :
    leaf fuel (before.resume d progress) indent (place.shift d) =
      (before.resume d (leaf fuel progress indent place).1,
        (leaf fuel progress indent place).2.shift d) := by
  have adds (block : Block) (next : Place) :
      ((before.resume d progress).add (block.shift d), next.shift d) =
        (before.resume d (progress.add block), next.shift d) := by
    rw [Progress.add_resume]
  unfold leaf
  dsimp only
  rw [Place.rest_shift, Progress.containers_resume]
  split
  · rw [terminatedHtml_shift]
    exact adds .html _
  split
  · rw [openHtml_shift]
    exact adds .html _
  split
  · rw [Place.advance_shift]
    exact adds .thematicBreak _
  split
  · rw [Place.advance_shift]
    exact adds (.heading []) _
  split
  · rw [Place.advance_shift, Place.rest_shift, Place.advance_shift, fencedCode_shift]
    exact adds .code _
  rw [definition_shift]
  rcases definition? progress.containers fuel place with _ | ⟨name, next⟩
  · exact leaf_text_resume before progress fuel place _
  · rfl

theorem itemStart_shift (outer : Nat) (margin : Margin) :
    itemStart? outer (margin.shift d) =
      (itemStart? outer margin).map fun item => (item.1, item.2.1, item.2.2.shift d) := by
  unfold itemStart?
  simp only [Margin.rest_shift, Margin.pass_shift, Margin.indentBy_shift, Margin.atLineEnd_shift,
    Margin.indent_shift]
  split
  · rfl
  · split
    · rfl
    · split
      · split <;> rfl
      · rfl

def LineStart.resume (before : Progress) (d : Nat) : LineStart → LineStart
  | content progress margin => .content (before.resume d progress) (margin.shift d)
  | emptyItem progress next => .emptyItem (before.resume d progress) (next.shift d)

def Opening.resume (before : Progress) (d : Nat) : Opening → Opening
  | nothing => .nothing
  | emptyItem later next => .emptyItem (before.resume d later) (next.shift d)
  | container later behind => .container (before.resume d later) (behind.shift d)

theorem itemOpening_resume (behind : Margin) :
    itemOpening (before.resume d progress) (behind.shift d) =
      (itemOpening progress behind).resume before d := by
  unfold itemOpening
  rw [Margin.rest_shift, Margin.place_shift]
  rcases blankLine? behind.rest with _ | length
  · rfl
  · dsimp only [Option.elim_some]
    rw [Place.advance_shift]
    rfl

theorem footnoteMargin_shift (place : Place) (length : Nat) :
    footnoteMargin (place.shift d) length = (footnoteMargin place length).shift d := by
  rw [footnoteMargin, Place.advance_shift, Place.rest_shift, Place.advance_shift,
    Margin.start_shift]
  rfl

/-- Behind the first characters of a document no item begins before it. -/
theorem opening_resume {margin : Margin} (later : 3 ≤ margin.place.offset) :
    opening (before.resume d progress) (margin.shift d) =
      (opening progress margin).resume before d := by
  have indented := (margin.before_indent 4).offset_le
  unfold opening
  dsimp only
  rw [Margin.indent_shift]
  dsimp only
  split
  · rfl
  next shallow =>
  have start_eq : (margin.indent 4).2.place.offset + d - (margin.indent 4).1 =
      (margin.indent 4).2.place.offset - (margin.indent 4).1 + d := by omega
  rw [Margin.rest_shift, itemStart_shift, Margin.quoteMark_shift, Margin.place_shift,
    Place.offset_shift, start_eq]
  rcases footnoteMark? (margin.indent 4).2.rest with _ | ⟨length, name⟩
  · rcases itemStart? (margin.indent 4).1 (margin.indent 4).2 with _ | ⟨delimiter, indent, behind⟩
    · rcases (margin.indent 4).2.quoteMark? with _ | behind
      · rfl
      · dsimp only [Option.map_some, Option.map_none, Option.none_or, Option.getD_some]
        rw [Progress.closeList_resume, Progress.enter_resume]
        rfl
    · dsimp only [Option.map_some, Option.map_none, Option.none_or, Option.some_or, Option.getD_some]
      rw [Progress.openItem_resume, itemOpening_resume]
  · dsimp only [Option.map_some, Option.some_or, Option.getD_some]
    rw [Progress.openFootnote_resume, footnoteMargin_shift]
    rfl

theorem openContainers_resume {margin : Margin} (later : 3 ≤ margin.place.offset) :
    openContainers fuel (before.resume d progress) (margin.shift d) =
      (openContainers fuel progress margin).resume before d := by
  induction fuel generalizing progress margin with
  | zero => rfl
  | succ fuel ih =>
    rw [openContainers_succ, openContainers_succ, opening_resume before progress later]
    rcases opened : opening progress margin with _ | ⟨first, next⟩ | ⟨first, behind⟩
    · rfl
    · rfl
    · exact ih first (later.trans (opens_of_container opened).before.offset_le)

theorem lineStart_resume {place : Place} (later : 3 ≤ place.offset) :
    lineStart fuel (before.resume d progress) (place.shift d) =
      (lineStart fuel progress place).resume before d := by
  have entered := (Container.before_enter progress.containers (.start place)).offset_le
  have started : (Margin.start place).place = place := rfl
  unfold lineStart
  rw [Progress.containers_resume, Margin.start_shift, Container.enter_shift]
  dsimp only
  rw [Place.offset_shift, Progress.length_frames_resume, Progress.closeMany_resume]
  apply openContainers_resume
  rw [started] at entered
  omega

/-- A step of a reader behind the first characters of a document is the same in all documents that go
on as this one does. -/
theorem readBlock_resume {place : Place} (later : 3 ≤ place.offset) :
    readBlock fuel (before.resume d progress) (place.shift d) =
      (before.resume d (readBlock fuel progress place).1,
        (readBlock fuel progress place).2.shift d) := by
  rw [readBlock_eq, readBlock_eq, lineStart_resume before progress fuel later]
  rcases lineStart fuel progress place with ⟨opened, margin⟩ | ⟨opened, next⟩
  · dsimp only [LineStart.resume]
    rw [Margin.rest_shift]
    rcases blankLine? margin.rest with _ | length
    · dsimp only
      rw [Margin.indent_shift, Progress.closeList_resume]
      dsimp only
      split
      · rw [Margin.place_shift, Progress.containers_resume, indentedCode_shift,
          ← Progress.add_resume]
        rfl
      · exact leaf_resume before _ fuel _ _
    · dsimp only
      rw [Progress.blankLine_resume, Margin.place_shift, Place.advance_shift]
  · rfl

/-- What a reader finds behind the first characters of a document. -/
theorem readBlocks_resume {place : Place} (later : 3 ≤ place.offset) :
    readBlocks fuel (before.resume d progress) (place.shift d) =
      before.resume d (readBlocks fuel progress place) := by
  induction fuel generalizing progress place with
  | zero =>
    rw [readBlocks, readBlocks, Place.offset_shift, Progress.length_frames_resume,
      Progress.closeMany_resume]
  | succ fuel ih =>
    rw [readBlocks, readBlocks, Place.rest_shift]
    split
    · rw [Place.offset_shift, Progress.length_frames_resume, Progress.closeMany_resume]
    · have further := (adds_readBlock fuel progress place)
      rw [readBlock_resume before progress fuel later]
      dsimp only
      apply ih
      rcases further with ⟨_, _, laid⟩
      exact later.trans laid.before.offset_le

end Steps

end Refill.Markdown
