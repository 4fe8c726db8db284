import Refill.Proofs.Markdown.Run

/-!
# What a step changes

Whatever a step reads, it does to the progress what `Change` lists: blocks are added, containers are
entered and closed, and no more (`change_readNext`). So the containers that are closed end before the
place that is reached (`Ended`), and what lies in a container is covered by it from then on
(`Covers`).
-/

namespace Refill

open Document

namespace Markdown

/-! ## Stretches of containers -/

mutual

/-- The stretches of the containers and tables in a block. -/
def Block.holders : Block → List Span
  | .quote span blocks => span :: Block.allHolders blocks
  | .list _ items => Block.allHolders items
  | .item span blocks => span :: Block.allHolders blocks
  | .footnote span blocks => span :: Block.allHolders blocks
  | .table span => [span]
  | _ => []

def Block.allHolders : List Block → List Span
  | [] => []
  | block :: blocks => Block.holders block ++ Block.allHolders blocks

end

theorem Block.allHolders_eq (blocks : List Block) : allHolders blocks = blocks.flatMap holders := by
  induction blocks with
  | nil => rfl
  | cons block blocks ih => rw [allHolders, ih, List.flatMap_cons]

theorem filterMap_containerSpan_hardBreaks (offsets : List Nat) :
    (offsets.map Mark.hardBreak).filterMap containerSpan? = [] := by
  rw [List.filterMap_map]
  exact List.filterMap_eq_nil_iff.mpr fun _ _ => rfl

mutual

/-- The marks of a block tell of the containers and tables in it. -/
theorem Block.filterMap_marks (definitions : Definitions) (hidden : Bool) :
    (block : Block) → (block.marks definitions hidden).filterMap containerSpan? = block.holders
  | .paragraph _ _ => by
      cases hidden
      · exact filterMap_containerSpan_hardBreaks _
      · exact filterMap_containerSpan_hardBreaks _
  | .heading _ => filterMap_containerSpan_hardBreaks _
  | .thematicBreak => rfl
  | .code => rfl
  | .html => rfl
  | .table _ => rfl
  | .quote span blocks => congrArg (span :: ·) (Block.filterMap_allMarks definitions _ blocks)
  | .list _ items => Block.filterMap_allMarks definitions _ items
  | .item span blocks => congrArg (span :: ·) (Block.filterMap_allMarks definitions _ blocks)
  | .footnote span blocks => congrArg (span :: ·) (Block.filterMap_allMarks definitions _ blocks)

theorem Block.filterMap_allMarks (definitions : Definitions) (hidden : Bool) :
    (blocks : List Block) →
      (Block.allMarks definitions hidden blocks).filterMap containerSpan? = Block.allHolders blocks
  | [] => rfl
  | block :: blocks => by
      rw [Block.allMarks, List.filterMap_append, Block.filterMap_marks definitions hidden block,
        Block.filterMap_allMarks definitions hidden blocks, Block.allHolders]

end

def Container.isList : Container → Bool
  | list _ _ => true
  | _ => false

theorem Frame.holders_block (frame : Frame) (stop : Nat) :
    (frame.block stop).holders = (if frame.container.isList then [] else [⟨frame.start, stop⟩]) ++
      frame.blocks.reverse.flatMap Block.holders := by
  rcases frame with ⟨container, start, blocks⟩
  cases container <;> simp [block, Block.holders, Block.allHolders_eq, Container.isList]

namespace Progress

/-- The stretches of the containers that have been closed and of the tables. -/
def holders (progress : Progress) : List Span :=
  (progress.blocks ++ progress.frames.flatMap Frame.blocks).flatMap Block.holders

/-- The containers that are open, the innermost first: whether each is a list, and where it begins. -/
def openings (progress : Progress) : List (Bool × Nat) :=
  progress.frames.map fun frame => (frame.container.isList, frame.start)

section Holders

variable {progress : Progress} {span : Span}

theorem mem_holders_add {block : Block} :
    span ∈ (progress.add block).holders ↔ span ∈ block.holders ∨ span ∈ progress.holders := by
  rcases progress with ⟨blocks, frames, emptyItem, afterBlank, links, footnotes⟩
  rcases frames with _ | ⟨frame, outer⟩
  · simp [add, holders]
  · simp only [add, holders, List.flatMap_append, List.flatMap_cons, List.mem_append]
    tauto

theorem holders_enter (container : Container) (start : Nat) :
    (progress.enter container start).holders = progress.holders := by
  simp [enter, holders]

theorem openings_add (block : Block) : (progress.add block).openings = progress.openings := by
  rcases progress with ⟨blocks, frames, emptyItem, afterBlank, links, footnotes⟩
  cases frames <;> rfl

theorem openings_enter (container : Container) (start : Nat) :
    (progress.enter container start).openings = (container.isList, start) :: progress.openings :=
  rfl

theorem openings_close (stop : Nat) :
    (progress.close stop).openings = progress.openings.tail := by
  rcases progress with ⟨blocks, frames, emptyItem, afterBlank, links, footnotes⟩
  rcases frames with _ | ⟨frame, outer⟩
  · rfl
  · exact openings_add _

theorem emptyItem_add (block : Block) : (progress.add block).emptyItem = progress.emptyItem := by
  rcases progress with ⟨blocks, frames, emptyItem, afterBlank, links, footnotes⟩
  cases frames <;> rfl

theorem emptyItem_close (stop : Nat) : (progress.close stop).emptyItem = progress.emptyItem := by
  rcases progress with ⟨blocks, frames, emptyItem, afterBlank, links, footnotes⟩
  rcases frames with _ | ⟨frame, outer⟩
  · rfl
  · exact emptyItem_add _

/-- What is closed covers a stretch, if it is no list. -/
theorem mem_holders_close (stop : Nat) :
    span ∈ (progress.close stop).holders ↔
      (∃ start, progress.openings.head? = some (false, start) ∧ span = ⟨start, stop⟩) ∨
        span ∈ progress.holders := by
  rcases progress with ⟨blocks, frames, emptyItem, afterBlank, links, footnotes⟩
  rcases frames with _ | ⟨frame, outer⟩
  · simp [close, openings]
  have inside : span ∈ frame.blocks.reverse.flatMap Block.holders ↔
      span ∈ frame.blocks.flatMap Block.holders := by simp
  have opening : (∃ start, (openings ⟨blocks, frame :: outer, emptyItem, afterBlank, links,
        footnotes⟩).head? = some (false, start) ∧ span = ⟨start, stop⟩) ↔
      frame.container.isList = false ∧ span = ⟨frame.start, stop⟩ := by
    simp [openings]
  rw [opening, close]
  dsimp only
  rw [mem_holders_add, Frame.holders_block, List.mem_append, inside, holders, holders]
  simp only [List.flatMap_append, List.flatMap_cons, List.mem_append]
  cases frame.container.isList
  · simp only [Bool.false_eq_true, if_false, List.mem_singleton, true_and]
    tauto
  · simp only [if_true, List.not_mem_nil, Bool.true_eq_false, false_and, false_or]
    tauto

end Holders

end Progress

/-- Lists hold items, so none of the containers that are open is a list in a list. -/
def Progress.Apart (progress : Progress) : Prop :=
  progress.openings.IsChain fun inner outer => ¬(inner.1 = true ∧ outer.1 = true)

/-- The innermost container is no list. -/
def Progress.NoList (progress : Progress) : Prop :=
  ∀ start, progress.openings.head? ≠ some (true, start)

/-! ## Changes -/

/-- What may be done to the progress while the document is read from the one offset to the other. -/
inductive Change (low high : Nat) (progress : Progress) : Progress → Prop
  | refl : Change low high progress progress
  /-- Nothing about the containers changes but what they tell of their lines. -/
  | same {later last : Progress} (change : Change low high progress later)
      (openings : last.openings = later.openings) (holders : last.holders = later.holders)
      (item : last.emptyItem = later.emptyItem) : Change low high progress last
  | add {later : Progress} (change : Change low high progress later) (block : Block)
      (within : ∀ span ∈ block.holders, span.stop ≤ high) :
      Change low high progress (later.add block)
  | enter {later : Progress} (change : Change low high progress later) (container : Container)
      (start : Nat) (within : start ≤ high) (apart : container.isList → later.NoList) :
      Change low high progress (later.enter container start)
  | close {later : Progress} (change : Change low high progress later) (stop : Nat)
      (behind : low ≤ stop) (within : stop ≤ high) : Change low high progress (later.close stop)
  | closeList {later : Progress} (change : Change low high progress later) {start : Nat}
      (list : later.openings.head? = some (true, start)) (stop : Nat) :
      Change low high progress (later.close stop)
  | closeEmptyItem {later : Progress} (change : Change low high progress later) {stop : Nat}
      (item : later.emptyItem = some stop) : Change low high progress (later.close stop)
  | dropItem {later : Progress} (change : Change low high progress later) :
      Change low high progress { later with emptyItem := none }
  | setItem {later : Progress} (change : Change low high progress later) (stop : Nat)
      (behind : low ≤ stop) (within : stop ≤ high) :
      Change low high progress { later with emptyItem := some stop }

namespace Change

variable {low high : Nat} {progress later last : Progress}

theorem trans (first : Change low high progress later) (second : Change low high later last) :
    Change low high progress last := by
  induction second with
  | refl => exact first
  | same _ openings holders item ih => exact .same ih openings holders item
  | add _ block within ih => exact .add ih block within
  | enter _ container start within apart ih => exact .enter ih container start within apart
  | close _ stop behind within ih => exact .close ih stop behind within
  | closeList _ list stop ih => exact .closeList ih list stop
  | closeEmptyItem _ item ih => exact .closeEmptyItem ih item
  | dropItem _ ih => exact .dropItem ih
  | setItem _ stop behind within ih => exact .setItem ih stop behind within

theorem widen {lower higher : Nat} (change : Change low high progress later) (le : lower ≤ low)
    (ge : high ≤ higher) : Change lower higher progress later := by
  induction change with
  | refl => exact .refl
  | same _ openings holders item ih => exact .same ih openings holders item
  | add _ block within ih => exact .add ih block fun span mem => (within span mem).trans ge
  | enter _ container start within apart ih =>
    exact .enter ih container start (within.trans ge) apart
  | close _ stop behind within ih => exact .close ih stop (le.trans behind) (within.trans ge)
  | closeList _ list stop ih => exact .closeList ih list stop
  | closeEmptyItem _ item ih => exact .closeEmptyItem ih item
  | dropItem _ ih => exact .dropItem ih
  | setItem _ stop behind within ih => exact .setItem ih stop (le.trans behind) (within.trans ge)

end Change

theorem Progress.Apart.of_change {low high : Nat} {progress later : Progress}
    (apart : progress.Apart) (change : Change low high progress later) : later.Apart := by
  have closing {later : Progress} (apart : later.Apart) (stop : Nat) :
      (later.close stop).Apart := by
    rw [Progress.Apart, Progress.openings_close]
    exact List.IsChain.tail apart
  induction change with
  | refl => exact apart
  | same _ openings _ _ ih =>
    rw [Progress.Apart, openings]
    exact ih
  | add _ block _ ih =>
    rw [Progress.Apart, Progress.openings_add]
    exact ih
  | @enter later _ container start _ noList ih =>
    rw [Progress.Apart, Progress.openings_enter]
    unfold Progress.Apart at ih
    unfold Progress.NoList at noList
    rcases openings_eq : later.openings with _ | ⟨opening, others⟩
    · exact .singleton _
    · rw [openings_eq] at ih noList
      refine List.isChain_cons_cons.mpr ⟨?_, ih⟩
      rintro ⟨list, outer⟩
      refine noList list opening.2 ?_
      rw [List.head?_cons, ← outer]
  | close _ stop _ _ ih => exact closing ih stop
  | closeList _ _ stop ih => exact closing ih stop
  | closeEmptyItem _ _ ih => exact closing ih _
  | dropItem _ ih => exact ih
  | setItem _ _ _ _ ih => exact ih

section Changes

variable {low high : Nat} (progress : Progress)

theorem change_closeMany {stop : Nat} (behind : low ≤ stop) (within : stop ≤ high) (count : Nat) :
    Change low high progress (progress.closeMany stop count) := by
  induction count generalizing progress with
  | zero => exact .refl
  | succ count ih => exact (Change.refl.close stop behind within).trans (ih _)

theorem change_closeEmptyItem (low high : Nat) (progress : Progress) :
    Change low high progress progress.closeEmptyItem := by
  unfold Progress.closeEmptyItem
  dsimp only
  split
  · next stop _ item _ =>
    split
    · exact (Change.refl.closeEmptyItem item).dropItem
    · exact Change.refl.dropItem
  · exact Change.refl.dropItem

theorem openings_loosen (frames : List Frame) :
    (Progress.loosen frames).map (fun frame => (frame.container.isList, frame.start)) =
      frames.map fun frame => (frame.container.isList, frame.start) := by
  unfold Progress.loosen
  split <;> rfl

theorem blocks_loosen (frames : List Frame) :
    (Progress.loosen frames).flatMap Frame.blocks = frames.flatMap Frame.blocks := by
  unfold Progress.loosen
  split <;> rfl

theorem openings_of_innermost {delimiter : Char} {tight : Bool}
    (inner : progress.innermost? = some (.list delimiter tight)) :
    ∃ start, progress.openings.head? = some (true, start) := by
  rcases progress with ⟨blocks, frames, emptyItem, afterBlank, links, footnotes⟩
  rcases frames with _ | ⟨⟨container, start, inside⟩, outer⟩
  · cases inner
  · obtain rfl : container = .list delimiter tight := by simpa [Progress.innermost?] using inner
    exact ⟨start, rfl⟩

theorem openings_endBlank : progress.endBlank.openings = progress.openings := by
  rcases progress with ⟨blocks, frames, emptyItem, afterBlank, links, footnotes⟩
  unfold Progress.endBlank
  split
  · rcases frames with _ | ⟨inner, outer⟩
    · rfl
    · simp [Progress.openings, openings_loosen]
  · rfl

theorem holders_endBlank : progress.endBlank.holders = progress.holders := by
  rcases progress with ⟨blocks, frames, emptyItem, afterBlank, links, footnotes⟩
  unfold Progress.endBlank
  split
  · rcases frames with _ | ⟨inner, outer⟩
    · rfl
    · simp [Progress.holders, blocks_loosen]
  · rfl

theorem emptyItem_endBlank : progress.endBlank.emptyItem = progress.emptyItem := by
  unfold Progress.endBlank
  split <;> rfl

theorem change_endList : Change low high progress progress.endList := by
  unfold Progress.endList
  split
  · next inner =>
    rcases openings_of_innermost progress inner with ⟨start, list⟩
    exact Change.refl.closeList list 0
  · exact .refl

theorem change_closeList (low high : Nat) (progress : Progress) :
    Change low high progress progress.closeList := by
  rw [Progress.closeList_eq]
  refine ((change_closeEmptyItem low high progress).trans (change_endList _)).same ?_ ?_ ?_
  · exact openings_endBlank _
  · exact holders_endBlank _
  · exact emptyItem_endBlank _

variable {progress} in
/-- Where lists are apart, the innermost container is no list behind one that has been closed. -/
theorem noList_closeList (apart : progress.Apart) : progress.closeList.NoList := by
  have closed : progress.closeEmptyItem.Apart :=
    apart.of_change (change_closeEmptyItem 0 0 progress)
  rw [Progress.closeList_eq, Progress.NoList, openings_endBlank]
  generalize progress.closeEmptyItem = progress at closed ⊢
  unfold Progress.endList
  split
  · next inner =>
    intro start
    rcases openings_of_innermost progress inner with ⟨first, list⟩
    rw [Progress.openings_close]
    unfold Progress.Apart at closed
    rcases openings_eq : progress.openings with _ | ⟨opening, _ | ⟨next, others⟩⟩
    · simp
    · simp
    · rw [openings_eq] at closed list
      have neither := (List.isChain_cons_cons.mp closed).1
      obtain rfl : opening = (true, first) := by simpa using list
      intro other
      obtain rfl : next = (true, start) := by simpa using other
      exact neither ⟨rfl, rfl⟩
  · next noList =>
    intro start list
    rcases progress with ⟨blocks, frames, emptyItem, afterBlank, links, footnotes⟩
    rcases frames with _ | ⟨⟨container, begun, inside⟩, outer⟩
    · cases list
    · cases container with
      | list delimiter tight => exact noList delimiter tight rfl
      | quote | item | footnote => simp [Progress.openings, Container.isList] at list

theorem change_enterList (delimiter : Char) {start : Nat} (within : start ≤ high)
    (apart : progress.Apart) : Change low high progress (progress.enterList delimiter start) := by
  have closed : progress.closeEmptyItem.Apart :=
    apart.of_change (change_closeEmptyItem 0 0 progress)
  refine (change_closeEmptyItem _ _ progress).trans ?_
  unfold Progress.enterList
  generalize progress.closeEmptyItem = progress at closed ⊢
  have opens : Change low high progress
      (Progress.enterList.newList delimiter start progress.closeList) :=
    ((change_closeList _ _ progress).enter _ start within fun _ => noList_closeList closed).same
      rfl rfl rfl
  dsimp only
  split
  · split
    · split
      · refine Change.refl.same ?_ ?_ rfl
        · exact openings_loosen progress.frames
        · simp [Progress.holders, blocks_loosen]
      · exact .refl
    · exact opens
  · exact opens

theorem change_blankLine : Change low high progress progress.blankLine := by
  rcases progress with ⟨blocks, frames, emptyItem, afterBlank, links, footnotes⟩
  rcases frames with _ | ⟨⟨container, start, inside⟩, outer⟩
  · exact Change.refl.same rfl rfl rfl
  · cases container <;> exact Change.refl.same rfl rfl rfl

end Changes

section Steps

variable {low high fuel : Nat} {progress : Progress} {place : Place} {margin : Margin}

theorem before_openContainers (fuel : Nat) (progress : Progress) (margin : Margin) :
    margin.place.Before (openContainers fuel progress margin).place := by
  rcases adds_openContainers fuel progress margin with ⟨_, _, laid⟩
  exact laid.before

theorem change_endFootnote {stop : Nat} (behind : low ≤ stop) (within : stop ≤ high) :
    Change low high progress (progress.endFootnote stop) := by
  unfold Progress.endFootnote
  split
  · exact Change.refl.close _ behind within
  · exact .refl

theorem change_openFootnote (name : List Char) {start : Nat} (behind : low ≤ start)
    (within : start ≤ high) : Change low high progress (progress.openFootnote name start) := by
  refine ((change_closeList _ _ progress).trans (change_endFootnote behind within)).trans ?_
  exact (Change.refl.enter .footnote start within (by simp [Container.isList])).same rfl rfl rfl

theorem change_openItem (apart : progress.Apart) (delimiter : Char) (indent : Nat) {start : Nat}
    (within : start ≤ high) : Change low high progress (progress.openItem delimiter indent start) :=
  (change_enterList progress delimiter within apart).enter _ start within (by simp [Container.isList])

theorem change_container (apart : progress.Apart) {later : Progress} {behind : Margin}
    (opened : opening progress margin = .container later behind)
    (low_le : low ≤ margin.place.offset) (within : behind.place.offset ≤ high) :
    Change low high progress later := by
  have indented := (margin.before_indent 4).offset_le
  have marked := marked_opening progress margin
  rw [opened] at marked
  cases marked with
  | @footnote length name mark =>
    have reached := (((margin.indent 4).2.place.before_advance length).advance
      (lengthWhile isGap ((margin.indent 4).2.place.advance length).rest)).offset_le.trans within
    exact change_openFootnote name (by omega) reached
  | item item =>
    have passed := (before_itemStart item).offset_le
    exact change_openItem apart _ _ (by omega)
  | quote mark =>
    have passed := (Margin.before_quoteMark mark).offset_le
    exact (change_closeList _ _ progress).enter .quote _ (by omega) (by simp [Container.isList])

theorem change_emptyItem (apart : progress.Apart) {later : Progress} {next : Place}
    (opened : opening progress margin = .emptyItem later next)
    (low_le : low ≤ margin.place.offset) (within : next.offset ≤ high) :
    Change low high progress later := by
  have indented := (margin.before_indent 4).offset_le
  have marked := marked_opening progress margin
  rw [opened] at marked
  cases marked with
  | @emptyItem _ _ length behind item =>
    have passed := (before_itemStart item).offset_le
    have reached := (behind.place.before_advance length).offset_le
    exact (change_openItem apart _ _ (by omega)).setItem _ (by omega) within

theorem change_openContainers (apart : progress.Apart) (behind : low ≤ margin.place.offset)
    (within : (openContainers fuel progress margin).place.offset ≤ high) :
    Change low high progress (openContainers fuel progress margin).progress := by
  induction fuel generalizing progress margin with
  | zero => exact .refl
  | succ fuel ih =>
    rw [openContainers_succ] at within ⊢
    rcases opened : opening progress margin with _ | ⟨later, next⟩ | ⟨later, inner⟩
    · exact .refl
    · rw [opened] at within
      exact change_emptyItem apart opened behind within
    · rw [opened] at within
      have passed := (opens_of_container opened).before.offset_le
      have reached := (before_openContainers fuel later inner).offset_le
      have change := change_container apart opened behind (reached.trans within)
      exact change.trans (ih (apart.of_change change) (behind.trans passed) within)

theorem change_lineStart (apart : progress.Apart)
    (within : (lineStart fuel progress place).place.offset ≤ high) :
    Change place.offset high progress (lineStart fuel progress place).progress := by
  have entered := (Container.before_enter progress.containers (.start place)).offset_le
  have started : (Margin.start place).place = place := rfl
  rw [started] at entered
  have reached := (before_openContainers fuel _ _).offset_le.trans within
  have closed := change_closeMany progress (Nat.le_refl _) (entered.trans reached)
    (progress.frames.length - (Container.enter progress.containers (.start place)).1)
  exact closed.trans (change_openContainers (apart.of_change closed) entered within)

theorem change_leaf (indent : Nat) :
    Change low (leaf fuel progress indent place).2.offset progress
      (leaf fuel progress indent place).1 := by
  have adds (block : Block) (high : Nat) (plain : block.holders = []) :
      Change low high progress (progress.add block) :=
    Change.refl.add block (by simp [plain])
  unfold leaf
  dsimp only
  split
  · exact adds _ _ rfl
  split
  · exact adds _ _ rfl
  split
  · exact adds _ _ rfl
  split
  · exact adds _ _ rfl
  split
  · exact adds _ _ rfl
  split
  · exact Change.refl.same rfl rfl rfl
  unfold leaf.text
  dsimp only
  split
  · refine Change.refl.add _ fun span mem => ?_
    rw [List.mem_singleton.mp mem]
  · split
    · exact adds _ _ rfl
    · exact adds _ _ rfl

/-- A step changes what it may, between the places. -/
theorem change_readNext (apart : progress.Apart) (place : Place) :
    Change place.offset (readNext progress place).2.offset progress (readNext progress place).1 := by
  have behind := (before_lineStart_readNext progress place).offset_le
  have opened := change_lineStart apart behind
  unfold readNext at opened ⊢
  rw [readBlock_eq] at opened ⊢
  rcases start : lineStart place.rest.length progress place with ⟨later, margin⟩ | ⟨later, next⟩
  · rw [start] at opened
    dsimp only [LineStart.progress] at opened ⊢
    rcases blank : blankLine? margin.rest with _ | length
    · rw [blank] at opened
      dsimp only at opened ⊢
      split
      · next code =>
        rw [if_pos code] at opened
        exact (opened.trans (change_closeList _ _ later)).add _ (by simp [Block.holders])
      · next shallow =>
        rw [if_neg shallow] at opened
        exact (opened.trans (change_closeList _ _ later)).trans (change_leaf _)
    · rw [blank] at opened
      exact opened.trans (change_blankLine later)
  · rw [start] at opened
    exact opened

theorem Reads.change {later : Progress} {next : Place} (reads : Reads progress place later next)
    (apart : progress.Apart) : Change place.offset next.offset progress later := by
  induction reads with
  | refl => exact .refl
  | @step progress later place next _ reads ih =>
    have passed := (before_readNext progress place).offset_le
    have first := change_readNext apart place
    exact (first.widen (Nat.le_refl _) reads.before.offset_le).trans
      ((ih (apart.of_change first)).widen passed (Nat.le_refl _))

end Steps

/-! ## What changes keep -/

/-- All containers begin before the offset, and those that are closed end before it. -/
structure Ended (high : Nat) (progress : Progress) : Prop where
  open_le : ∀ opening ∈ progress.openings, opening.2 ≤ high
  closed_le : ∀ span ∈ progress.holders, span.stop ≤ high
  item_le : ∀ stop, progress.emptyItem = some stop → stop ≤ high

/-- A container holds the stretch, whether it has been closed or not. -/
structure Covers (inner : Span) (progress : Progress) : Prop where
  outer : (∃ start, (false, start) ∈ progress.openings ∧ start ≤ inner.start) ∨
    ∃ outer ∈ progress.holders, outer.encloses inner
  item : ∀ stop, progress.emptyItem = some stop → inner.stop ≤ stop

theorem Ended.close {high : Nat} {progress : Progress} (ended : Ended high progress) (stop : Nat)
    (within : (∃ start, progress.openings.head? = some (false, start)) → stop ≤ high) :
    Ended high (progress.close stop) where
  open_le := by
    intro opening mem
    rw [Progress.openings_close] at mem
    exact ended.open_le opening (List.mem_of_mem_tail mem)
  closed_le := by
    intro span mem
    rcases (Progress.mem_holders_close stop).mp mem with ⟨start, list, rfl⟩ | mem
    · exact within ⟨start, list⟩
    · exact ended.closed_le span mem
  item_le := by
    intro found item
    rw [Progress.emptyItem_close] at item
    exact ended.item_le found item

theorem Ended.of_change {low high : Nat} {progress later : Progress}
    (change : Change low high progress later) (ended : Ended high progress) : Ended high later := by
  induction change with
  | refl => exact ended
  | same _ openings holders item ih =>
    exact ⟨openings ▸ ih.open_le, holders ▸ ih.closed_le, item ▸ ih.item_le⟩
  | add _ block within ih =>
    refine ⟨?_, fun span mem => ?_, ?_⟩
    · rw [Progress.openings_add]
      exact ih.open_le
    · rcases Progress.mem_holders_add.mp mem with mem | mem
      · exact within span mem
      · exact ih.closed_le span mem
    · rw [Progress.emptyItem_add]
      exact ih.item_le
  | enter _ container start within _ ih =>
    refine ⟨fun opening mem => ?_, ?_, ih.item_le⟩
    · rcases List.mem_cons.mp mem with rfl | mem
      · exact within
      · exact ih.open_le opening mem
    · rw [Progress.holders_enter]
      exact ih.closed_le
  | close _ stop _ within ih => exact ih.close stop fun _ => within
  | closeList _ list stop ih =>
    refine ih.close stop fun ⟨start, other⟩ => ?_
    rw [list] at other
    cases other
  | closeEmptyItem _ item ih => exact ih.close _ fun _ => ih.item_le _ item
  | dropItem _ ih => exact ⟨ih.open_le, ih.closed_le, by simp⟩
  | setItem _ stop _ within ih =>
    refine ⟨ih.open_le, ih.closed_le, fun found item => ?_⟩
    cases item
    exact within

/-- The innermost container that ends behind a stretch it is open around goes on to enclose it. -/
theorem Covers.close {inner : Span} {progress : Progress} (covers : Covers inner progress)
    (stop : Nat)
    (within : (∃ start, progress.openings.head? = some (false, start)) → inner.stop ≤ stop) :
    Covers inner (progress.close stop) where
  outer := by
    rcases covers.outer with ⟨start, mem, le⟩ | ⟨outer, mem, encloses⟩
    · rcases openings_eq : progress.openings with _ | ⟨first, others⟩
      · rw [openings_eq] at mem
        cases mem
      rw [openings_eq] at mem within
      rcases List.mem_cons.mp mem with rfl | mem
      · right
        refine ⟨⟨start, stop⟩, ?_, ?_⟩
        · apply (Progress.mem_holders_close stop).mpr
          left
          exact ⟨start, by rw [openings_eq, List.head?_cons], rfl⟩
        · simpa [Span.encloses] using And.intro le (within ⟨start, rfl⟩)
      · left
        refine ⟨start, ?_, le⟩
        rw [Progress.openings_close, openings_eq]
        exact mem
    · right
      exact ⟨outer, (Progress.mem_holders_close stop).mpr (Or.inr mem), encloses⟩
  item := by
    intro found item
    rw [Progress.emptyItem_close] at item
    exact covers.item found item

theorem Covers.of_change {low high : Nat} {inner : Span} {progress later : Progress}
    (change : Change low high progress later) (behind : inner.stop ≤ low)
    (covers : Covers inner progress) : Covers inner later := by
  induction change with
  | refl => exact covers
  | same _ openings holders item ih =>
    refine ⟨?_, item ▸ ih.item⟩
    rw [openings, holders]
    exact ih.outer
  | add _ block _ ih =>
    refine ⟨?_, ?_⟩
    · rw [Progress.openings_add]
      refine ih.outer.imp id ?_
      rintro ⟨outer, mem, encloses⟩
      exact ⟨outer, Progress.mem_holders_add.mpr (Or.inr mem), encloses⟩
    · rw [Progress.emptyItem_add]
      exact ih.item
  | enter _ container start _ _ ih =>
    refine ⟨?_, ih.item⟩
    rw [Progress.holders_enter]
    refine ih.outer.imp ?_ id
    rintro ⟨start, mem, le⟩
    exact ⟨start, List.mem_cons_of_mem _ mem, le⟩
  | close _ stop lower _ ih => exact ih.close stop fun _ => behind.trans lower
  | closeList _ list stop ih =>
    refine ih.close stop fun ⟨start, other⟩ => ?_
    rw [list] at other
    cases other
  | closeEmptyItem _ item ih => exact ih.close _ fun _ => ih.item _ item
  | dropItem _ ih => exact ⟨ih.outer, by simp⟩
  | setItem _ stop lower _ ih =>
    refine ⟨ih.outer, fun found item => ?_⟩
    cases item
    exact behind.trans lower

end Markdown

end Refill
