import Refill.Proofs.Markdown.Lines
import Refill.Proofs.Markdown.Parts

/-!
# Reading a document

What a line opens, what begins in it and what the reader goes on over there are told by `opening`,
`LeafStep` and `BlockStep`. Reading a block adds the parts that open before it and the block itself,
which stands between the place where the reader was and the place where it goes on
(`adds_readBlock`). Along a document this lays the blocks one behind the other (`exists_laid_read`).
-/

namespace Refill.Markdown

/-! ## Blocks in their places -/

def Block.span? : Block → Option Span
  | .paragraph span _ => some span
  | _ => none

/-- The lines of a paragraph or heading. -/
def Block.lines : Block → List TextLine
  | .paragraph _ lines => lines
  | .heading lines => lines
  | _ => []

/-- The block is read from the place up to the next one. -/
structure Block.Stands (place next : Place) (block : Block) : Prop where
  before : place.Before next
  span : ∀ span, block.span? = some span → span = ⟨place.offset, next.offset⟩ ∧
    place.rest ≠ [] ∧ next.offset ≤ place.offset + place.rest.length
  lines : ∀ line ∈ block.lines, line.breakAt ≠ none → ¬Unbroken place.rest
  breaks : ∀ line ∈ block.lines, ∀ offset, line.breakAt = some offset →
    place.offset ≤ offset ∧ offset < next.offset

/-- The parts are read from the place up to the next one, in order. -/
inductive Laid : Place → Place → List Part → Prop
  | nil {place next : Place} (before : place.Before next) : Laid place next []
  | opens {place next : Place} {part : Part} {parts : List Part}
      (opened : part = .group ∨ part = .item) (later : Laid place next parts) :
      Laid place next (part :: parts)
  | leaf {place start stop next : Place} {block : Block} {parts : List Part}
      (before : place.Before start) (stands : block.Stands start stop)
      (later : Laid stop next parts) : Laid place next (.leaf block :: parts)

namespace Laid

variable {place start next last : Place} {parts others : List Part} {block : Block}

theorem before (laid : Laid place next parts) : place.Before next := by
  induction laid with
  | nil before => exact before
  | opens _ _ ih => exact ih
  | leaf before stands _ ih => exact (before.trans stands.before).trans ih

theorem from_earlier (before : place.Before start) (laid : Laid start next parts) :
    Laid place next parts := by
  induction laid with
  | nil later => exact .nil (before.trans later)
  | opens opened _ ih => exact .opens opened (ih before)
  | leaf later stands rest => exact .leaf (before.trans later) stands rest

theorem append (first : Laid place next parts) (second : Laid next last others) :
    Laid place last (parts ++ others) := by
  induction first with
  | nil before => exact second.from_earlier before
  | opens opened _ ih => exact .opens opened (ih second)
  | leaf before stands _ ih => exact .leaf before stands (ih second)

theorem of_opened (before : place.Before next) (opened : ∀ part ∈ parts, part = .group ∨ part = .item) :
    Laid place next parts := by
  induction parts with
  | nil => exact .nil before
  | cons part parts ih =>
    rw [List.forall_mem_cons] at opened
    exact .opens opened.1 (ih opened.2)

theorem of_block (parts_eq : block.parts = [.leaf block]) (stands : block.Stands place next) :
    Laid place next block.parts := by
  rw [parts_eq]
  exact .leaf (.refl place) stands (.nil (.refl next))

end Laid

theorem Block.Stands.of_plain {place next : Place} {block : Block} (before : place.Before next)
    (span_eq : block.span? = none) (lines_eq : block.lines = []) : block.Stands place next where
  before := before
  span := by simp [span_eq]
  lines := by simp [lines_eq]
  breaks := by simp [lines_eq]

/-- What a reader adds that goes from one place to another. -/
def Adds (progress : Progress) (place : Place) (result : Progress × Place) : Prop :=
  ∃ added, result.1.parts = progress.parts ++ added ∧ Laid place result.2 added

namespace Adds

variable {progress later : Progress} {place next last : Place} {block : Block}

theorem nothing (same : later.parts = progress.parts) (before : place.Before next) :
    Adds progress place (later, next) :=
  ⟨[], by simp [same], .nil before⟩

theorem add (parts_eq : block.parts = [.leaf block]) (stands : block.Stands place next) :
    Adds progress place (progress.add block, next) :=
  ⟨block.parts, progress.parts_add block, .of_block parts_eq stands⟩

theorem trans {result : Progress × Place} (first : Adds progress place (later, next))
    (second : Adds later next result) : Adds progress place result := by
  rcases first with ⟨added, parts_eq, laid⟩
  rcases second with ⟨more, more_eq, later⟩
  exact ⟨added ++ more, by rw [more_eq, parts_eq, List.append_assoc], laid.append later⟩

end Adds

/-! ## Blocks without containers -/

/-- What begins in a line that is indented by less than four columns. -/
inductive LeafStep (fuel : Nat) (progress : Progress) (place : Place) : Progress × Place → Prop
  /-- A block without lines of text. -/
  | other {block : Block} {next : Place} (before : place.Before next)
      (parts_eq : block.parts = [.leaf block]) (span_eq : block.span? = none)
      (lines_eq : block.lines = []) : LeafStep fuel progress place (progress.add block, next)
  | definition {name : List Char} {next : Place}
      (found : definition? progress.containers fuel place = some (name, next)) :
      LeafStep fuel progress place
        ({ progress with links := foldLabel name :: progress.links }, next)
  | heading {text : TextBlock} (text_eq : textBlock progress.containers fuel 0 place = text) :
      LeafStep fuel progress place (progress.add (.heading text.lines), text.next)
  | paragraph {text : TextBlock} (text_eq : textBlock progress.containers fuel 0 place = text)
      (plain : text.underlined = false) :
      LeafStep fuel progress place
        (progress.add (.paragraph ⟨place.offset, text.next.offset⟩ text.lines), text.next)

section Leaf

variable {fuel : Nat} {progress : Progress} {place : Place}

theorem leafStep_text :
    LeafStep fuel progress place (leaf.text fuel progress place progress.containers) := by
  unfold leaf.text
  simp only
  split
  · next body table =>
    have before := (before_tableBody progress.containers table).trans
      (before_tableRows progress.containers fuel body)
    exact .other before rfl rfl rfl
  · split
    · exact .heading rfl
    · next plain => exact .paragraph rfl (by simpa using plain)

theorem leafStep (fuel : Nat) (progress : Progress) (indent : Nat) (place : Place) :
    LeafStep fuel progress place (leaf fuel progress indent place) := by
  unfold leaf
  simp only
  split
  · exact .other (before_terminatedHtml ..) rfl rfl rfl
  · split
    · exact .other (before_openHtml ..) rfl rfl rfl
    · split
      · exact .other (place.before_advance _) rfl rfl rfl
      · split
        · exact .other (place.before_advance _) rfl rfl rfl
        · split
          · next fence _ =>
            have content := (place.before_advance fence.length).advance
              (feedLength (place.advance fence.length).rest)
            exact .other (content.trans (before_fencedCode ..)) rfl rfl rfl
          · split
            · next found => exact .definition found
            · exact leafStep_text

theorem adds_leaf (indent : Nat) (left : place.rest ≠ []) :
    Adds progress place (leaf fuel progress indent place) := by
  have step := leafStep fuel progress indent place
  generalize leaf fuel progress indent place = result at step ⊢
  cases step with
  | other before parts_eq span_eq lines_eq =>
    exact .add parts_eq (.of_plain before span_eq lines_eq)
  | definition found =>
    exact .nothing rfl ((place.before_advance 1).trans (before_definition found))
  | heading text_eq =>
    subst text_eq
    exact .add rfl ⟨before_textBlock .., by simp [Block.span?], not_unbroken_textBlock (Or.inl rfl),
      breakAt_textBlock (Nat.zero_le _)⟩
  | paragraph text_eq plain =>
    subst text_eq
    refine .add rfl ⟨before_textBlock .., ?_, not_unbroken_textBlock (Or.inl rfl),
      breakAt_textBlock (Nat.zero_le _)⟩
    intro span span_eq
    cases span_eq
    exact ⟨rfl, left, next_textBlock_le plain⟩

end Leaf

/-! ## Containers that open -/

/-- The progress behind the containers that open. -/
def LineStart.progress : LineStart → Progress
  | content progress _ => progress
  | emptyItem progress _ => progress

/-- The place at which what the line holds is read, behind the containers that open. -/
def LineStart.place : LineStart → Place
  | content _ margin => margin.place
  | emptyItem _ next => next

/-- Containers open between the places, and nothing else is found. Outside of all containers one of
them is no item. -/
structure Opens (progress : Progress) (place : Place) (later : Progress) (next : Place) : Prop where
  before : place.Before next
  parts : ∃ opened : List Part, (∀ part ∈ opened, part = .group ∨ part = .item) ∧
    later.parts = progress.parts ++ opened ∧ (progress.frames = [] → .group ∈ opened)

/-- What the mark at a margin opens: nothing, an item that is empty so far, or a container behind
whose mark the line goes on. -/
inductive Opening
  | nothing
  | emptyItem (later : Progress) (next : Place)
  | container (later : Progress) (behind : Margin)

/-- The margin behind the mark of a footnote, which has so many characters. -/
def footnoteMargin (place : Place) (length : Nat) : Margin :=
  .start ((place.advance length).advance (lengthWhile isGap (place.advance length).rest))

def itemOpening (later : Progress) (behind : Margin) : Opening :=
  (blankLine? behind.rest).elim (.container later behind) fun length =>
    .emptyItem { later with emptyItem := some (behind.place.advance length).offset }
      (behind.place.advance length)

/-- The container that opens at a margin, of which `openContainers` opens one after the other. -/
def opening (progress : Progress) (margin : Margin) : Opening :=
  let outer := (margin.indent 4).1
  let inner := (margin.indent 4).2
  let footnote := (footnoteMark? inner.rest).map fun mark =>
    Opening.container (progress.openFootnote mark.2 inner.place.offset)
      (footnoteMargin inner.place mark.1)
  let item := (itemStart? outer inner).map fun item =>
    itemOpening (progress.openItem item.1 item.2.1 (inner.place.offset - outer)) item.2.2
  let quote := inner.quoteMark?.map fun behind =>
    Opening.container (progress.closeList.enter .quote inner.place.offset) behind
  if 4 ≤ outer then .nothing else ((footnote.or item).or quote).getD .nothing

def Opening.line (fuel : Nat) (progress : Progress) (margin : Margin) : Opening → LineStart
  | nothing => .content progress margin
  | emptyItem later next => .emptyItem later next
  | container later behind => openContainers fuel later behind

/-- What is found at a margin where the container opens. -/
inductive Marked (progress : Progress) (margin : Margin) : Opening → Prop
  | deep (deep : 4 ≤ (margin.indent 4).1) : Marked progress margin .nothing
  | plain (unmarked : footnoteMark? (margin.indent 4).2.rest = none)
      (noItem : itemStart? (margin.indent 4).1 (margin.indent 4).2 = none)
      (noQuote : (margin.indent 4).2.quoteMark? = none) : Marked progress margin .nothing
  | footnote {length : Nat} {name : List Char}
      (mark : footnoteMark? (margin.indent 4).2.rest = some (length, name)) :
      Marked progress margin (.container
        (progress.openFootnote name (margin.indent 4).2.place.offset)
        (footnoteMargin (margin.indent 4).2.place length))
  | item {delimiter : Char} {indent : Nat} {behind : Margin}
      (item : itemStart? (margin.indent 4).1 (margin.indent 4).2 = some (delimiter, indent, behind))
      (filled : blankLine? behind.rest = none) :
      Marked progress margin (.container
        (progress.openItem delimiter indent
          ((margin.indent 4).2.place.offset - (margin.indent 4).1)) behind)
  | emptyItem {delimiter : Char} {indent length : Nat} {behind : Margin}
      (item : itemStart? (margin.indent 4).1 (margin.indent 4).2 = some (delimiter, indent, behind))
      (blank : blankLine? behind.rest = some length) :
      Marked progress margin (.emptyItem
        { progress.openItem delimiter indent
            ((margin.indent 4).2.place.offset - (margin.indent 4).1) with
          emptyItem := some (behind.place.advance length).offset }
        (behind.place.advance length))
  | quote {behind : Margin} (mark : (margin.indent 4).2.quoteMark? = some behind) :
      Marked progress margin (.container
        (progress.closeList.enter .quote (margin.indent 4).2.place.offset) behind)

section Open

variable {progress later : Progress} {place next : Place}

theorem Opens.of_group (before : place.Before next)
    (parts_eq : later.parts = progress.parts ++ [.group]) : Opens progress place later next :=
  ⟨before, [.group], by simp, parts_eq, by simp⟩

theorem Opens.of_item (delimiter : Char) (indent start : Nat) (before : place.Before next)
    (parts_eq : later.parts = (progress.openItem delimiter indent start).parts) :
    Opens progress place later next := by
  rcases progress.exists_parts_enterList delimiter start with ⟨listed, groups, listed_eq, outside⟩
  refine ⟨before, listed ++ [.item], ?_, ?_, fun closed => List.mem_append_left _ (outside closed)⟩
  · intro part mem
    rcases List.mem_append.mp mem with mem | mem
    · exact Or.inl (groups part mem)
    · exact Or.inr (List.mem_singleton.mp mem)
  · rw [parts_eq, Progress.openItem, Progress.parts_enter, listed_eq, List.append_assoc]
    rfl

theorem Opens.adds (opens : Opens progress place later next) : Adds progress place (later, next) := by
  rcases opens.parts with ⟨opened, opening, parts_eq, _⟩
  exact ⟨opened, parts_eq, .of_opened opens.before opening⟩

theorem Opens.group_mem (opens : Opens progress place later next) (closed : progress.frames = []) :
    .group ∈ later.parts := by
  rcases opens.parts with ⟨opened, _, parts_eq, outside⟩
  rw [parts_eq]
  exact List.mem_append_right _ (outside closed)

variable {margin behind : Margin}

theorem openContainers_succ (fuel : Nat) (progress : Progress) (margin : Margin) :
    openContainers (fuel + 1) progress margin =
      (opening progress margin).line fuel progress margin := by
  unfold openContainers opening
  dsimp only
  split
  · rfl
  rcases footnoteMark? (margin.indent 4).2.rest with _ | ⟨length, name⟩
  · rcases itemStart? (margin.indent 4).1 (margin.indent 4).2 with _ | ⟨delimiter, indent, behind⟩
    · rcases (margin.indent 4).2.quoteMark? with _ | behind <;> rfl
    · dsimp only [Option.map_some, Option.map_none, Option.none_or, Option.some_or, itemOpening,
        Option.getD_some]
      rcases blankLine? behind.rest with _ | length <;> rfl
  · rfl

theorem marked_opening (progress : Progress) (margin : Margin) :
    Marked progress margin (opening progress margin) := by
  unfold opening
  dsimp only
  split
  · next deep => exact .deep deep
  rcases mark : footnoteMark? (margin.indent 4).2.rest with _ | ⟨length, name⟩
  · rcases item : itemStart? (margin.indent 4).1 (margin.indent 4).2 with
      _ | ⟨delimiter, indent, behind⟩
    · rcases quote : (margin.indent 4).2.quoteMark? with _ | behind
      · exact .plain mark item quote
      · exact .quote quote
    · dsimp only [Option.map_some, Option.map_none, Option.none_or, Option.some_or, itemOpening,
        Option.getD_some]
      rcases blank : blankLine? behind.rest with _ | length
      · exact .item item blank
      · exact .emptyItem item blank
  · exact .footnote mark

theorem opens_of_emptyItem (opened : opening progress margin = .emptyItem later next) :
    Opens progress margin.place later next := by
  have indented := margin.before_indent 4
  have marked := marked_opening progress margin
  rw [opened] at marked
  cases marked with
  | emptyItem item =>
    exact .of_item _ _ _ ((indented.trans (before_itemStart item)).advance _) rfl

theorem opens_of_container (opened : opening progress margin = .container later behind) :
    Opens progress margin.place later behind.place := by
  have indented := margin.before_indent 4
  have marked := marked_opening progress margin
  rw [opened] at marked
  cases marked with
  | footnote =>
    exact .of_group ((indented.advance _).advance _) (progress.parts_openFootnote _ _)
  | item item => exact .of_item _ _ _ (indented.trans (before_itemStart item)) rfl
  | quote mark =>
    refine .of_group (indented.trans (Margin.before_quoteMark mark)) ?_
    rw [Progress.parts_enter, Progress.parts_closeList]
    rfl

/-- A line that opens containers adds them, and its content stands behind their marks. -/
theorem adds_openContainers (fuel : Nat) (progress : Progress) (margin : Margin) :
    Adds progress margin.place ((openContainers fuel progress margin).progress,
      (openContainers fuel progress margin).place) := by
  induction fuel generalizing progress margin with
  | zero => exact .nothing rfl (.refl _)
  | succ fuel ih =>
    rw [openContainers_succ]
    rcases opened : opening progress margin with _ | ⟨later, next⟩ | ⟨later, behind⟩
    · exact .nothing rfl (.refl _)
    · exact (opens_of_emptyItem opened).adds
    · exact (opens_of_container opened).adds.trans (ih _ _)

/-- Outside of all containers a line opens some, or a block begins in it. -/
theorem openContainers_cases (fuel : Nat) (closed : progress.frames = []) (margin : Margin) :
    openContainers fuel progress margin = .content progress margin ∨
      .group ∈ (openContainers fuel progress margin).progress.parts := by
  cases fuel with
  | zero => exact Or.inl rfl
  | succ fuel =>
    rw [openContainers_succ]
    rcases opened : opening progress margin with _ | ⟨later, next⟩ | ⟨later, behind⟩
    · exact Or.inl rfl
    · exact Or.inr ((opens_of_emptyItem opened).group_mem closed)
    · rcases adds_openContainers fuel later behind with ⟨added, parts_eq, _⟩
      right
      dsimp only [Opening.line]
      rw [parts_eq]
      exact List.mem_append_left added ((opens_of_container opened).group_mem closed)

end Open

/-! ## Blocks -/

/-- The line at a place, behind the containers it goes on in and those it opens. -/
def lineStart (fuel : Nat) (progress : Progress) (place : Place) : LineStart :=
  let (count, margin) := Container.enter progress.containers (.start place)
  openContainers fuel (progress.closeMany place.offset (progress.frames.length - count)) margin

/-- What the reader goes on over at a place. -/
inductive BlockStep (fuel : Nat) (progress : Progress) (place : Place) : Progress × Place → Prop
  | emptyItem {later : Progress} {next : Place}
      (line_eq : lineStart fuel progress place = .emptyItem later next) :
      BlockStep fuel progress place (later, next)
  | blank {later : Progress} {margin : Margin} {length : Nat}
      (line_eq : lineStart fuel progress place = .content later margin)
      (blank : blankLine? margin.rest = some length) :
      BlockStep fuel progress place (later.blankLine, margin.place.advance length)
  | code {later : Progress} {margin : Margin} {next : Place}
      (line_eq : lineStart fuel progress place = .content later margin)
      (before : (margin.indent 4).2.place.Before next) :
      BlockStep fuel progress place (later.closeList.add .code, next)
  | leaf {later : Progress} {margin : Margin}
      (line_eq : lineStart fuel progress place = .content later margin)
      (filled : blankLine? margin.rest = none) :
      BlockStep fuel progress place
        (leaf fuel later.closeList (margin.indent 4).1 (margin.indent 4).2.place)

theorem blockStep (fuel : Nat) (progress : Progress) (place : Place) :
    BlockStep fuel progress place (readBlock fuel progress place) := by
  unfold readBlock
  simp only
  split
  · next line_eq => exact .emptyItem line_eq
  · next line_eq =>
    split
    · next blank => exact .blank line_eq blank
    · next filled =>
      split
      · exact .code line_eq (before_indentedCode ..)
      · exact .leaf line_eq filled

theorem adds_lineStart (fuel : Nat) (progress : Progress) (place : Place) :
    Adds progress place
      ((lineStart fuel progress place).progress, (lineStart fuel progress place).place) := by
  have entered : Adds progress place
      (progress.closeMany place.offset
        (progress.frames.length - (Container.enter progress.containers (.start place)).1),
        (Container.enter progress.containers (.start place)).2.place) :=
    .nothing (by simp) (Container.before_enter ..)
  exact entered.trans (adds_openContainers fuel _ _)

/-- Behind the containers that a line opens, reading a block adds that block. -/
theorem adds_behind_lineStart (fuel : Nat) (progress : Progress) (place : Place) :
    Adds (lineStart fuel progress place).progress (lineStart fuel progress place).place
      (readBlock fuel progress place) := by
  have step := blockStep fuel progress place
  generalize readBlock fuel progress place = result at step ⊢
  cases step with
  | emptyItem line_eq =>
    rw [line_eq]
    exact .nothing rfl (.refl _)
  | @blank later margin length line_eq =>
    rw [line_eq]
    exact .nothing (by simp [LineStart.progress]) (margin.place.before_advance length)
  | @code later margin next line_eq before =>
    have listed : Adds later margin.place (later.closeList, (margin.indent 4).2.place) :=
      .nothing (by simp) (margin.before_indent 4)
    rw [line_eq]
    exact listed.trans (.add rfl (.of_plain before rfl rfl))
  | @leaf later margin line_eq filled =>
    have listed : Adds later margin.place (later.closeList, (margin.indent 4).2.place) :=
      .nothing (by simp) (margin.before_indent 4)
    rw [line_eq]
    exact listed.trans (adds_leaf _ (rest_indent_ne_nil filled 4))

/-- Reading a block adds it and what opens before it. -/
theorem adds_readBlock (fuel : Nat) (progress : Progress) (place : Place) :
    Adds progress place (readBlock fuel progress place) :=
  (adds_lineStart fuel progress place).trans (adds_behind_lineStart fuel progress place)

/-- A run of the reader lays the blocks it adds one behind the other. -/
theorem exists_laid_readBlocks (fuel : Nat) (progress : Progress) (place : Place) :
    ∃ added next, (readBlocks fuel progress place).parts = progress.parts ++ added ∧
      Laid place next added := by
  induction fuel generalizing progress place with
  | zero => exact ⟨[], place, by simp [readBlocks], .nil (.refl place)⟩
  | succ fuel ih =>
    unfold readBlocks
    split
    · exact ⟨[], place, by simp, .nil (.refl place)⟩
    · rcases adds_readBlock fuel progress place with ⟨added, parts_eq, laid⟩
      rcases ih (readBlock fuel progress place).1 (readBlock fuel progress place).2 with
        ⟨more, next, more_eq, later⟩
      exact ⟨added ++ more, next, by rw [more_eq, parts_eq, List.append_assoc], laid.append later⟩

theorem frames_readBlocks (fuel : Nat) (progress : Progress) (place : Place) :
    (readBlocks fuel progress place).frames = [] := by
  induction fuel generalizing progress place with
  | zero => exact progress.frames_closeMany place.offset
  | succ fuel ih =>
    unfold readBlocks
    split
    · exact progress.frames_closeMany place.offset
    · exact ih _ _

/-- The blocks of a document stand one behind the other in it. -/
theorem exists_laid_read (text : List Char) :
    ∃ next, Laid ⟨0, text⟩ next ((Document.read text).blocks.flatMap Block.parts) := by
  rcases exists_laid_readBlocks (text.length + 1) .start ⟨0, text⟩ with
    ⟨added, next, parts_eq, laid⟩
  refine ⟨next, ?_⟩
  have closed := frames_readBlocks (text.length + 1) .start ⟨0, text⟩
  rw [Progress.parts, closed] at parts_eq
  have read_eq : (Document.read text).blocks.flatMap Block.parts = added := by
    simpa [Document.read, Progress.parts, Progress.start] using parts_eq
  rwa [read_eq]

end Refill.Markdown
