import Refill.Proofs.Markdown.Places

/-!
# What a reader finds

While a document is read, the blocks found so far are spread over the containers that are open.
Their `parts`, in the order of the document, are the containers that were opened and the blocks
that hold no others. Closing a container changes nothing about them, so a reader only adds parts
(`exists_laid_readBlocks`), and each block among these stands behind the one before it (`Laid`).
-/

namespace Refill.Markdown

/-! ## Parts -/

inductive Part where
  /-- A quote, list or footnote opens. -/
  | group
  | item
  /-- A block that holds no others. -/
  | leaf (block : Block)

def Container.part : Container → Part
  | quote => .group
  | list _ _ => .group
  | item _ => .item
  | footnote => .group

mutual

def Block.parts : Block → List Part
  | .quote _ blocks => .group :: Block.allParts blocks
  | .list _ items => .group :: Block.allParts items
  | .item _ blocks => .item :: Block.allParts blocks
  | .footnote _ blocks => .group :: Block.allParts blocks
  | block => [.leaf block]

def Block.allParts : List Block → List Part
  | [] => []
  | block :: blocks => Block.parts block ++ Block.allParts blocks

end

theorem Block.allParts_eq (blocks : List Block) : allParts blocks = blocks.flatMap parts := by
  induction blocks with
  | nil => rfl
  | cons block blocks ih => rw [allParts, ih, List.flatMap_cons]

def Frame.parts (frame : Frame) : List Part :=
  frame.container.part :: frame.blocks.reverse.flatMap Block.parts

@[simp]
theorem Frame.parts_block (frame : Frame) (stop : Nat) : (frame.block stop).parts = frame.parts := by
  rcases frame with ⟨container, start, blocks⟩
  cases container <;> simp [block, parts, Block.parts, Block.allParts_eq, Container.part]

namespace Progress

/-- The parts found so far. -/
def parts (progress : Progress) : List Part :=
  progress.blocks.reverse.flatMap Block.parts ++ progress.frames.reverse.flatMap Frame.parts

variable (progress : Progress)

@[simp]
theorem parts_add (block : Block) : (progress.add block).parts = progress.parts ++ block.parts := by
  rcases progress with ⟨blocks, frames, emptyItem, afterBlank, links, footnotes⟩
  cases frames <;> simp [add, parts, Frame.parts]

@[simp]
theorem parts_enter (container : Container) (start : Nat) :
    (progress.enter container start).parts = progress.parts ++ [container.part] := by
  simp [enter, parts, Frame.parts]

theorem parts_enterFootnote (start : Nat) (names : List (List Char)) :
    { progress.enter .footnote start with footnotes := names }.parts =
      progress.parts ++ [.group] :=
  parts_enter progress .footnote start

@[simp]
theorem parts_close (stop : Nat) : (progress.close stop).parts = progress.parts := by
  rcases progress with ⟨blocks, frames, emptyItem, afterBlank, links, footnotes⟩
  cases frames with
  | nil => rfl
  | cons frame outer =>
    rw [close, parts_add, Frame.parts_block]
    simp [parts]

@[simp]
theorem parts_closeMany (stop count : Nat) :
    (progress.closeMany stop count).parts = progress.parts := by
  induction count generalizing progress with
  | zero => rfl
  | succ count ih => rw [closeMany, ih, parts_close]

theorem length_frames_close (stop : Nat) :
    (progress.close stop).frames.length = progress.frames.length - 1 := by
  rcases progress with ⟨blocks, frames, emptyItem, afterBlank, links, footnotes⟩
  rcases frames with _ | ⟨frame, _ | ⟨next, outer⟩⟩
  · rfl
  · rfl
  · rfl

theorem frames_closeMany (stop : Nat) :
    (progress.closeMany stop progress.frames.length).frames = [] := by
  generalize count_eq : progress.frames.length = count
  induction count generalizing progress with
  | zero => exact List.eq_nil_of_length_eq_zero count_eq
  | succ count ih =>
    rw [closeMany]
    apply ih
    rw [length_frames_close, count_eq, Nat.add_sub_cancel]

@[simp]
theorem parts_closeEmptyItem : progress.closeEmptyItem.parts = progress.parts := by
  unfold closeEmptyItem
  simp only
  split
  · split
    · exact parts_close progress _
    · rfl
  · rfl

theorem parts_loosen (frames : List Frame) :
    (loosen frames).reverse.flatMap Frame.parts = frames.reverse.flatMap Frame.parts := by
  unfold loosen
  split
  · simp [Frame.parts, Container.part]
  · rfl

/-- The list that is innermost ends, if there is one. -/
def endList (progress : Progress) : Progress :=
  match progress.innermost? with
  | some (.list _ _) => progress.close 0
  | _ => progress

/-- A blank line before loosens the list around what is innermost. -/
def endBlank (progress : Progress) : Progress :=
  if progress.afterBlank then
    { progress with
      afterBlank := false
      frames :=
        match progress.frames with
        | [] => []
        | inner :: outer => inner :: loosen outer }
  else progress

/-- A footnote that is innermost ends where another one begins. -/
def endFootnote (progress : Progress) (stop : Nat) : Progress :=
  match progress.innermost? with
  | some .footnote => progress.close stop
  | _ => progress

/-- A footnote of the name begins: it ends what may not go on before it. -/
def openFootnote (progress : Progress) (name : List Char) (start : Nat) : Progress :=
  { (progress.closeList.endFootnote start).enter .footnote start with
    footnotes := foldLabel name :: (progress.closeList.endFootnote start).footnotes }

/-- An item begins, in the list of its delimiter. -/
def openItem (progress : Progress) (delimiter : Char) (indent start : Nat) : Progress :=
  (progress.enterList delimiter start).enter (.item indent) start

theorem closeList_eq : progress.closeList = progress.closeEmptyItem.endList.endBlank := rfl

@[simp]
theorem parts_endList : progress.endList.parts = progress.parts := by
  unfold endList
  split
  · exact parts_close progress 0
  · rfl

@[simp]
theorem parts_endBlank : progress.endBlank.parts = progress.parts := by
  rcases progress with ⟨blocks, frames, emptyItem, afterBlank, links, footnotes⟩
  unfold endBlank
  split
  · cases frames with
    | nil => rfl
    | cons inner outer => simp [parts, parts_loosen]
  · rfl

@[simp]
theorem parts_closeList : progress.closeList.parts = progress.parts := by
  rw [closeList_eq, parts_endBlank, parts_endList, parts_closeEmptyItem]

theorem parts_endFootnote (stop : Nat) : (progress.endFootnote stop).parts = progress.parts := by
  unfold endFootnote
  split
  · exact parts_close progress stop
  · rfl

theorem parts_openFootnote (name : List Char) (start : Nat) :
    (progress.openFootnote name start).parts = progress.parts ++ [.group] := by
  rw [openFootnote, parts_enterFootnote, parts_endFootnote, parts_closeList]

theorem frames_closeEmptyItem (closed : progress.frames = []) :
    progress.closeEmptyItem.frames = [] := by
  rcases progress with ⟨blocks, frames, emptyItem, afterBlank, links, footnotes⟩
  cases closed
  cases emptyItem <;> rfl

/-- An item goes on in a list, or opens one; outside of all containers it opens one. -/
theorem exists_parts_enterList (delimiter : Char) (start : Nat) :
    ∃ opened : List Part, (∀ part ∈ opened, part = .group) ∧
      (progress.enterList delimiter start).parts = progress.parts ++ opened ∧
        (progress.frames = [] → .group ∈ opened) := by
  have opens (closed : Progress) : ∃ opened : List Part, (∀ part ∈ opened, part = .group) ∧
      (enterList.newList delimiter start closed.closeList).parts = closed.parts ++ opened ∧
        (progress.frames = [] → .group ∈ opened) := by
    refine ⟨[.group], by simp, ?_, by simp⟩
    have entered := parts_enter closed.closeList (.list delimiter true) start
    rw [parts_closeList] at entered
    exact entered
  have outside := progress.frames_closeEmptyItem
  unfold enterList
  simp only
  rw [← parts_closeEmptyItem progress]
  generalize progress.closeEmptyItem = closed at outside ⊢
  split
  · next inner =>
    split
    · refine ⟨[], by simp, ?_, fun empty => ?_⟩
      · split
        · simp [parts, parts_loosen]
        · simp
      · rw [innermost?, outside empty] at inner
        cases inner
    · exact opens closed
  · exact opens closed

@[simp]
theorem parts_blankLine : progress.blankLine.parts = progress.parts := by
  unfold blankLine
  split
  · rfl
  · next frames_eq => simp [parts, frames_eq, Frame.parts, Container.part]
  · rfl

end Progress

end Refill.Markdown
