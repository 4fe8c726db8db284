import Refill.Proofs.Document.Splice
import Refill.Proofs.Markdown.Reading

/-!
# Reading from another offset

Offsets are counted and nothing else is done with them. So a block that is read from another offset
on ends as many characters further, and the lines in it break there (`textBlock_shift`).
-/

namespace Refill.Markdown

def Place.shift (d : Nat) (place : Place) : Place :=
  { place with offset := place.offset + d }

def Margin.shift (d : Nat) (margin : Margin) : Margin :=
  { margin with place := margin.place.shift d }

variable (d : Nat)

/-! ## Margins -/

namespace Place

@[simp]
theorem rest_shift (place : Place) : (place.shift d).rest = place.rest := rfl

@[simp]
theorem offset_shift (place : Place) : (place.shift d).offset = place.offset + d := rfl

@[simp]
theorem advance_shift (place : Place) (count : Nat) :
    (place.shift d).advance count = (place.advance count).shift d := by
  simp [shift, advance, Nat.add_right_comm]

end Place

namespace Margin

@[simp]
theorem rest_shift (margin : Margin) : (margin.shift d).rest = margin.rest := rfl

@[simp]
theorem place_shift (margin : Margin) : (margin.shift d).place = margin.place.shift d := rfl

@[simp]
theorem start_shift (place : Place) : start (place.shift d) = (start place).shift d := rfl

theorem go_shift (wanted offset column owed : Nat) (rest : List Char) :
    indent.go wanted (offset + d) column owed rest =
      ((indent.go wanted offset column owed rest).1,
        (indent.go wanted offset column owed rest).2.shift d) := by
  fun_induction indent.go wanted offset column owed rest with
  | case1 => rfl
  | case2 => simp [indent.go, shift, Place.shift]
  | case3 wanted offset column owed rest left taken after go_eq ih =>
    rw [go_eq] at ih
    rw [indent.go, if_neg left, if_pos rfl, Nat.add_right_comm, ih]
  | case4 wanted offset column owed rest left width used taken after go_eq no_space ih =>
    rw [go_eq] at ih
    rw [indent.go, if_neg left, if_neg no_space, if_pos rfl, Nat.add_right_comm]
    simp only [used, width] at ih
    simp only [ih, used, width]
  | case5 wanted offset column owed c rest left no_space no_tab =>
    simp [indent.go, shift, Place.shift, left, no_space, no_tab]

@[simp]
theorem indent_shift (margin : Margin) (wanted : Nat) :
    (margin.shift d).indent wanted = ((margin.indent wanted).1, (margin.indent wanted).2.shift d) := by
  simp only [indent, shift, Place.shift, go_shift]

@[simp]
theorem indentBy_shift (margin : Margin) (wanted : Nat) :
    (margin.shift d).indentBy wanted =
      ((margin.indentBy wanted).1, (margin.indentBy wanted).2.shift d) := by
  simp only [indentBy, indent_shift]

@[simp]
theorem skipIndent_shift (margin : Margin) :
    (margin.shift d).skipIndent = margin.skipIndent.shift d := by
  simp only [skipIndent, rest_shift, place_shift, Place.advance_shift]
  rfl

@[simp]
theorem atLineEnd_shift (margin : Margin) : (margin.shift d).atLineEnd = margin.atLineEnd := rfl

@[simp]
theorem pass_shift (margin : Margin) (count : Nat) :
    (margin.shift d).pass count = (margin.pass count).shift d := by
  simp only [pass, Place.advance_shift, shift]

@[simp]
theorem quoteMark_shift (margin : Margin) :
    (margin.shift d).quoteMark? = margin.quoteMark?.map (shift d) := by
  unfold quoteMark?
  rw [rest_shift, pass_shift, indent_shift]
  split <;> rfl

end Margin

/-! ## Containers -/

namespace Container

theorem indented_shift (margin : Margin) (columns : Nat) :
    enter?.indented? (margin.shift d) columns =
      (enter?.indented? margin columns).map (Margin.shift d) := by
  simp only [enter?.indented?, Margin.indentBy_shift, Margin.atLineEnd_shift]
  split <;> rfl

theorem enter?_shift (margin : Margin) (container : Container) :
    container.enter? (margin.shift d) = (container.enter? margin).map (Margin.shift d) := by
  cases container with
  | quote => simp only [enter?, Margin.indent_shift, Margin.quoteMark_shift]
  | list delimiter tight => rfl
  | item indent => exact indented_shift d margin indent
  | footnote => exact indented_shift d margin 4

@[simp]
theorem enter_shift (containers : List Container) (margin : Margin) :
    enter containers (margin.shift d) =
      ((enter containers margin).1, (enter containers margin).2.shift d) := by
  induction containers generalizing margin with
  | nil => rfl
  | cons container inner ih =>
    rw [enter, enter, enter?_shift]
    rcases container.enter? margin with _ | behind
    · rfl
    · simp only [Option.map_some, ih]

@[simp]
theorem enterAll_shift (containers : List Container) (place : Place) :
    enterAll containers (place.shift d) =
      ((enterAll containers place).1, (enterAll containers place).2.shift d) := by
  simp only [enterAll, Margin.start_shift, enter_shift]

end Container

/-! ## Paragraphs and definitions -/

section Definition

variable (containers : List Container)

@[simp]
theorem tableBody_shift (place : Place) (pipes : List Nat) :
    tableBody? containers (place.shift d) pipes =
      (tableBody? containers place pipes).map (Place.shift d) := by
  unfold tableBody?
  simp only [Place.rest_shift, Place.advance_shift, Container.enterAll_shift, Margin.rest_shift,
    Margin.place_shift]
  split
  · rfl
  · split
    · rfl
    · split <;> rfl

@[simp]
theorem interrupts_shift (current : Bool) (place : Place) :
    interrupts containers current (place.shift d) = interrupts containers current place := by
  simp only [interrupts, Place.rest_shift, tableBody_shift, Option.isSome_map]

@[simp]
theorem endsParagraph_shift (current : Bool) (place : Place) :
    endsParagraph containers current (place.shift d) = endsParagraph containers current place := by
  simp only [endsParagraph, Place.rest_shift, interrupts_shift]

@[simp]
theorem continuation_shift (place : Place) :
    continuation? containers (place.shift d) =
      (continuation? containers place).map (Margin.shift d) := by
  simp only [continuation?, Container.enterAll_shift, Margin.indentBy_shift, Margin.place_shift,
    endsParagraph_shift]
  split <;> rfl

def DefinitionGap.shift (gap : DefinitionGap) : DefinitionGap :=
  { gap with behind := gap.behind.shift d }

@[simp]
theorem definitionGap_shift (place : Place) :
    definitionGap? containers (place.shift d) =
      (definitionGap? containers place).map (DefinitionGap.shift d) := by
  unfold definitionGap?
  simp only [Place.rest_shift, Place.advance_shift, continuation_shift]
  split
  · rfl
  · next length _ =>
    rcases continuation? containers _ with _ | margin
    · rfl
    · simp only [Option.map_some, Margin.rest_shift, Margin.place_shift, Place.advance_shift,
        Place.rest_shift]
      split <;> rfl

theorem title_go_shift (close : Char) (fuel : Nat) (place : Place) :
    definitionTitle?.go containers close fuel (place.shift d) =
      (definitionTitle?.go containers close fuel place).map (Place.shift d) := by
  induction fuel generalizing place with
  | zero => rfl
  | succ fuel ih =>
    rw [definitionTitle?.go.eq_def, definitionTitle?.go.eq_def containers close (fuel + 1) place]
    simp only [Place.rest_shift, Place.advance_shift, continuation_shift]
    split
    · rfl
    · exact ih _
    · split
      · rfl
      · split
        · rcases continuation? containers _ with _ | margin
          · rfl
          · simp only [Option.map_some, Margin.skipIndent_shift, Margin.atLineEnd_shift,
              Margin.place_shift]
            split
            · rfl
            · exact ih _
        · exact ih _

@[simp]
theorem definitionTitle_shift (fuel : Nat) (place : Place) :
    definitionTitle? containers fuel (place.shift d) =
      (definitionTitle? containers fuel place).map (Place.shift d) := by
  unfold definitionTitle?
  rw [Place.rest_shift]
  split
  · rfl
  · rw [Place.advance_shift]
    exact title_go_shift d containers _ fuel _

@[simp]
theorem definitionBody_shift (fuel : Nat) (place : Place) :
    definitionBody? containers fuel (place.shift d) =
      (definitionBody? containers fuel place).map (Place.shift d) := by
  unfold definitionBody?
  rw [definitionGap_shift]
  rcases definitionGap? containers place with _ | gap
  · rfl
  simp only [Option.map_some, DefinitionGap.shift, Place.rest_shift]
  split
  · rfl
  · rfl
  · next length _ _ =>
    rw [Place.advance_shift]
    generalize gap.behind.advance length = bare
    rw [definitionGap_shift]
    rcases definitionGap? containers bare with _ | after
    · rfl
    have same : (after.behind.offset + d == bare.offset + d) =
        (after.behind.offset == bare.offset) := by
      rw [Bool.eq_iff_iff, beq_iff_eq, beq_iff_eq, Nat.add_right_cancel_iff]
    simp only [Option.map_some, DefinitionGap.shift, Place.offset_shift, definitionTitle_shift, same]
    by_cases unmoved : after.behind.offset == bare.offset
    · rw [if_pos unmoved, if_pos unmoved]
      rfl
    · rw [if_neg unmoved, if_neg unmoved]
      rcases definitionTitle? containers fuel after.behind with _ | titled
      · cases after.broken <;> rfl
      · by_cases closes : isBlankLine titled.rest
        · simp [closes]
        · cases after.broken <;> simp [closes]

@[simp]
theorem definition_shift (fuel : Nat) (place : Place) :
    definition? containers fuel (place.shift d) =
      (definition? containers fuel place).map fun found => (found.1, found.2.shift d) := by
  unfold definition?
  simp only [Place.rest_shift, Place.advance_shift, definitionBody_shift]
  split
  · split
    · rfl
    · next length name _ =>
      split
      · rcases definitionBody? containers fuel (place.advance (1 + length + 1)) with _ | behind
        · rfl
        · simp only [Option.map_some, Place.rest_shift, Place.advance_shift]
      · rfl
  · rfl

end Definition

/-! ## Blocks of several lines -/

section Lines

variable (containers : List Container)

@[simp]
theorem indentedCode_shift (fuel : Nat) (place : Place) :
    indentedCode containers fuel (place.shift d) =
      (indentedCode containers fuel place).shift d := by
  induction fuel generalizing place with
  | zero => rfl
  | succ fuel ih =>
    unfold indentedCode
    simp only [Place.rest_shift, Place.advance_shift, Container.enterAll_shift,
      Margin.indentBy_shift, Margin.atLineEnd_shift, Margin.rest_shift, Margin.place_shift, ih]
    split <;> rfl

@[simp]
theorem fencedCode_shift (indent : Nat) (fence : Fence) (fuel : Nat) (place : Place) :
    fencedCode containers indent fence fuel (place.shift d) =
      (fencedCode containers indent fence fuel place).shift d := by
  induction fuel generalizing place with
  | zero => rfl
  | succ fuel ih =>
    unfold fencedCode
    simp only [Place.rest_shift, Place.advance_shift, Container.enterAll_shift, Margin.indent_shift,
      Margin.indentBy_shift, Margin.rest_shift, Margin.place_shift, ih]
    split
    · split <;> rfl
    · rfl

@[simp]
theorem terminatedHtml_shift (terminator : List Char) (fuel : Nat) (place : Place) :
    terminatedHtml containers terminator fuel (place.shift d) =
      (terminatedHtml containers terminator fuel place).shift d := by
  induction fuel generalizing place with
  | zero => rfl
  | succ fuel ih =>
    unfold terminatedHtml
    simp only [Place.rest_shift, Place.advance_shift, Container.enterAll_shift, Margin.rest_shift,
      Margin.place_shift, ih]
    split <;> rfl

@[simp]
theorem openHtml_shift (fuel : Nat) (place : Place) :
    openHtml containers fuel (place.shift d) = (openHtml containers fuel place).shift d := by
  induction fuel generalizing place with
  | zero => rfl
  | succ fuel ih =>
    unfold openHtml
    simp only [Place.rest_shift, Place.advance_shift, Container.enterAll_shift, Margin.rest_shift,
      Margin.place_shift, ih]
    split <;> rfl

@[simp]
theorem tableRows_shift (fuel : Nat) (place : Place) :
    tableRows containers fuel (place.shift d) = (tableRows containers fuel place).shift d := by
  induction fuel generalizing place with
  | zero => rfl
  | succ fuel ih =>
    unfold tableRows
    simp only [Place.advance_shift, Container.enterAll_shift, Margin.skipIndent_shift,
      Margin.rest_shift, Margin.place_shift, ih]
    split <;> rfl

def TextLine.shift (line : TextLine) : TextLine :=
  { line with breakAt := line.breakAt.map (· + d) }

def TextBlock.shift (text : TextBlock) : TextBlock where
  lines := text.lines.map (TextLine.shift d)
  underlined := text.underlined
  next := text.next.shift d

theorem lengthWhile_le (holds : Char → Bool) (rest : List Char) :
    lengthWhile holds rest ≤ rest.length := by
  rw [lengthWhile_eq]
  exact (List.takeWhile_prefix _).length_le

/-- Where a line breaks is counted from its own beginning, so long as its indentation is part of the
document. -/
theorem breakPlace_shift {indent offset : Nat} (le : indent ≤ offset) (content : List Char) :
    breakPlace? indent (offset + d) content = (breakPlace? indent offset content).map (· + d) := by
  have blanks_le : lengthWhile isGap content.reverse ≤ content.length := by
    simpa using lengthWhile_le isGap content.reverse
  unfold breakPlace?
  dsimp only
  generalize lengthWhile isGap content.reverse = blanks at blanks_le ⊢
  have within : (if blanks = content.length then blanks + indent else blanks) ≤
      offset + content.length := by
    split <;> omega
  generalize (if blanks = content.length then blanks + indent else blanks) = reach at within ⊢
  split
  · next odd =>
    have filled : 1 ≤ content.length := by
      rcases content with _ | ⟨c, content⟩
      · simp [runLength, lengthWhile, lengthWhile.go] at odd
      · exact Nat.le_add_left 1 _
    rw [Option.map_some, Option.some.injEq]
    omega
  · split
    · rw [Option.map_some, Option.some.injEq]
      omega
    · rfl

theorem textBlock_shift (fuel : Nat) {indent : Nat} {place : Place} (le : indent ≤ place.offset) :
    textBlock containers fuel indent (place.shift d) =
      (textBlock containers fuel indent place).shift d := by
  induction fuel generalizing indent place with
  | zero => rfl
  | succ fuel ih =>
    unfold textBlock
    simp only [Place.rest_shift, Place.advance_shift, Container.enterAll_shift,
      Margin.indentBy_shift, Margin.rest_shift, Margin.place_shift, Margin.skipIndent_shift,
      Margin.atLineEnd_shift, interrupts_shift, Place.offset_shift, Nat.add_sub_add_right]
    split
    · rfl
    · split
      · rfl
      · rw [ih (Nat.sub_le _ _), breakPlace_shift d le]
        rfl

end Lines

end Refill.Markdown
