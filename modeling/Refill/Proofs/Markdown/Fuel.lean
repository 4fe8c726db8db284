import Refill.Proofs.Markdown.SeamStep
import Refill.Proofs.Markdown.Sole

/-!
# Bounds on the number of steps

The functions that read on take a bound on the number of their steps. Each step takes up a
character at least, so any two bounds give the same that are no less than the number of characters
left (`readBlock_fuel`, `readBlocks_fuel`).
-/

namespace Refill.Markdown

/-! ## Places at the end of a document -/

theorem Place.length_advance_lt {place : Place} {count : Nat} (left : place.rest ≠ [])
    (positive : 0 < count) : (place.advance count).rest.length < place.rest.length := by
  have some_left := List.length_pos_iff.mpr left
  rw [rest_advance, List.length_drop]
  omega

theorem Place.Before.length_le {place later : Place} (before : place.Before later) :
    later.rest.length ≤ place.rest.length :=
  before.rest_suffix.length_le

theorem Margin.place_indent_nil {margin : Margin} (ended : margin.rest = []) (wanted : Nat) :
    (margin.indent wanted).2.place = margin.place := by
  rcases margin.exists_indentation wanted with ⟨passed, _, rest_eq, offset_eq⟩
  have ended' : margin.place.rest = [] := ended
  rw [ended', eq_comm, List.append_eq_nil_iff] at rest_eq
  rcases rest_eq with ⟨rfl, rest_eq⟩
  generalize (margin.indent wanted).2.place = place at rest_eq offset_eq ⊢
  rcases place with ⟨offset, rest⟩
  generalize margin.place = start at ended' offset_eq ⊢
  rcases start with ⟨start, whole⟩
  simp_all

theorem Container.place_indented_nil {margin behind : Margin} {columns : Nat}
    (ended : margin.rest = []) (enters : enter?.indented? margin columns = some behind) :
    behind.place = margin.place := by
  unfold enter?.indented? at enters
  dsimp only at enters
  split at enters
  · cases enters
    exact Margin.place_indent_nil ended columns
  · cases enters

theorem Container.place_enter?_nil {margin behind : Margin} {container : Container}
    (ended : margin.rest = []) (enters : container.enter? margin = some behind) :
    behind.place = margin.place := by
  cases container with
  | quote =>
    rw [enter?, Margin.quoteMark?, Margin.rest, Margin.place_indent_nil ended, ← Margin.rest,
      ended] at enters
    cases enters
  | list delimiter tight =>
    cases enters
    rfl
  | item indent => exact place_indented_nil ended enters
  | footnote => exact place_indented_nil ended enters

theorem Container.place_enter_nil (containers : List Container) {margin : Margin}
    (ended : margin.rest = []) : (enter containers margin).2.place = margin.place := by
  fun_induction enter containers margin with
  | case1 => rfl
  | case2 => rfl
  | case3 margin container inner behind enters count last enter_eq ih =>
    rw [enter_eq] at ih
    have same := place_enter?_nil ended enters
    rw [← same]
    apply ih
    rw [Margin.rest, same]
    exact ended

theorem Container.place_enterAll_nil (containers : List Container) {place : Place}
    (ended : place.rest = []) : (enterAll containers place).2.place = place :=
  place_enter_nil containers ended

/-! ## Blocks of several lines -/

section Lines

variable {containers : List Container} {fuel other : Nat} {place : Place}

theorem advance_feedLength_nil (ended : place.rest = []) :
    place.advance (feedLength place.rest) = place := by
  rcases place with ⟨offset, rest⟩
  obtain rfl : rest = [] := ended
  rfl

theorem indentedCode_nil (ended : place.rest = []) (fuel : Nat) :
    indentedCode containers fuel place = place := by
  rcases fuel with _ | fuel
  · rfl
  · unfold indentedCode
    dsimp only
    rw [advance_feedLength_nil ended]
    have entered := Container.place_enterAll_nil containers ended
    have ended' : (Container.enterAll containers place).2.rest = [] := by rw [Margin.rest, entered, ended]
    have indented := Margin.place_indent_nil ended' 4
    have empty : ((Container.enterAll containers place).2.indentBy 4).2.rest = [] := by
      rw [Margin.rest, Margin.indentBy, indented, entered, ended]
    rw [empty]
    simp

theorem indentedCode_fuel (enough : place.rest.length ≤ fuel) (more : place.rest.length ≤ other) :
    indentedCode containers fuel place = indentedCode containers other place := by
  induction fuel generalizing other place with
  | zero =>
    have ended := List.eq_nil_of_length_eq_zero (Nat.le_zero.mp enough)
    rw [indentedCode_nil ended, indentedCode_nil ended]
  | succ fuel ih =>
    by_cases left : place.rest = []
    · rw [indentedCode_nil left, indentedCode_nil left]
    rcases other with _ | other
    · exact absurd (List.eq_nil_of_length_eq_zero (Nat.le_zero.mp more)) left
    have passed := Place.length_advance_lt left (feedLength_pos left)
    have entered := (Container.before_enterAll containers
      (place.advance (feedLength place.rest))).length_le
    have indented := ((Container.enterAll containers
      (place.advance (feedLength place.rest))).2.before_indentBy 4).length_le
    unfold indentedCode
    dsimp only
    split
    · apply ih <;> omega
    · rfl

theorem fencedCode_nil {indent : Nat} {fence : Fence} (ended : place.rest = []) (fuel : Nat) :
    fencedCode containers indent fence fuel place = place := by
  induction fuel with
  | zero => rfl
  | succ fuel ih =>
    unfold fencedCode
    dsimp only
    have entered := Container.place_enterAll_nil containers ended
    have ended' : (Container.enterAll containers place).2.rest = [] := by
      rw [Margin.rest, entered, ended]
    have indented := Margin.place_indent_nil ended' indent
    generalize Container.enterAll containers place = reached at *
    split
    · have empty : (reached.2.indent indent).2.rest = [] := by rw [Margin.rest, indented, entered, ended]
      have closing := Margin.place_indent_nil empty (4 - indent)
      generalize (reached.2.indent indent).2 = margin at *
      have closing' : (margin.indentBy (4 - indent)).2.place = place := by
        rw [Margin.indentBy, closing, indented, entered]
      generalize margin.indentBy (4 - indent) = behind at *
      split
      · next length closes =>
        have length_eq : length = 0 := by
          split at closes
          · cases closes
          · rw [Margin.rest, closing', ended] at closes
            cases closes
            rfl
        rw [closing', length_eq]
        rcases place with ⟨offset, rest⟩
        obtain rfl : rest = [] := ended
        rfl
      · have same : margin.place = place := by rw [indented, entered]
        rw [Margin.rest, same, advance_feedLength_nil ended]
        exact ih
    · rfl

theorem fencedCode_fuel {indent : Nat} {fence : Fence} (enough : place.rest.length ≤ fuel)
    (more : place.rest.length ≤ other) :
    fencedCode containers indent fence fuel place =
      fencedCode containers indent fence other place := by
  induction fuel generalizing other place with
  | zero =>
    have ended := List.eq_nil_of_length_eq_zero (Nat.le_zero.mp enough)
    rw [fencedCode_nil ended, fencedCode_nil ended]
  | succ fuel ih =>
    by_cases left : place.rest = []
    · rw [fencedCode_nil left, fencedCode_nil left]
    rcases other with _ | other
    · exact absurd (List.eq_nil_of_length_eq_zero (Nat.le_zero.mp more)) left
    have some_left := List.length_pos_iff.mpr left
    have entered := (Container.before_enterAll containers place).length_le
    have indented := ((Container.enterAll containers place).2.before_indent indent).length_le
    unfold fencedCode
    dsimp only
    generalize Container.enterAll containers place = reached at *
    split
    · generalize (reached.2.indent indent).2 = margin at *
      have passed : (margin.place.advance (feedLength margin.rest)).rest.length <
          place.rest.length := by
        by_cases empty : margin.place.rest = []
        · rw [Place.rest_advance, empty, List.drop_nil]
          exact some_left
        · have shorter : (margin.place.advance (feedLength margin.rest)).rest.length <
              margin.place.rest.length := Place.length_advance_lt empty (feedLength_pos empty)
          omega
      have same : fencedCode containers indent fence fuel
            (margin.place.advance (feedLength margin.rest)) =
          fencedCode containers indent fence other
            (margin.place.advance (feedLength margin.rest)) := ih (by omega) (by omega)
      rw [same]
    · rfl

theorem terminatedHtml_nil {terminator : List Char} (ended : place.rest = []) (fuel : Nat) :
    terminatedHtml containers terminator fuel place = place := by
  rcases fuel with _ | fuel
  · rfl
  · unfold terminatedHtml
    dsimp only
    rw [advance_feedLength_nil ended, Margin.rest, Container.place_enterAll_nil containers ended,
      ended]
    simp

theorem terminatedHtml_fuel {terminator : List Char} (enough : place.rest.length ≤ fuel)
    (more : place.rest.length ≤ other) :
    terminatedHtml containers terminator fuel place =
      terminatedHtml containers terminator other place := by
  induction fuel generalizing other place with
  | zero =>
    have ended := List.eq_nil_of_length_eq_zero (Nat.le_zero.mp enough)
    rw [terminatedHtml_nil ended, terminatedHtml_nil ended]
  | succ fuel ih =>
    by_cases left : place.rest = []
    · rw [terminatedHtml_nil left, terminatedHtml_nil left]
    rcases other with _ | other
    · exact absurd (List.eq_nil_of_length_eq_zero (Nat.le_zero.mp more)) left
    have passed := Place.length_advance_lt left (feedLength_pos left)
    have entered := (Container.before_enterAll containers
      (place.advance (feedLength place.rest))).length_le
    unfold terminatedHtml
    dsimp only
    split
    · apply ih <;> omega
    · rfl

theorem openHtml_nil (ended : place.rest = []) (fuel : Nat) :
    openHtml containers fuel place = place := by
  rcases fuel with _ | fuel
  · rfl
  · unfold openHtml
    dsimp only
    have blank : isBlankLine [] = true := rfl
    rw [advance_feedLength_nil ended, Margin.rest, Container.place_enterAll_nil containers ended,
      ended, blank]
    simp

theorem openHtml_fuel (enough : place.rest.length ≤ fuel) (more : place.rest.length ≤ other) :
    openHtml containers fuel place = openHtml containers other place := by
  induction fuel generalizing other place with
  | zero =>
    have ended := List.eq_nil_of_length_eq_zero (Nat.le_zero.mp enough)
    rw [openHtml_nil ended, openHtml_nil ended]
  | succ fuel ih =>
    by_cases left : place.rest = []
    · rw [openHtml_nil left, openHtml_nil left]
    rcases other with _ | other
    · exact absurd (List.eq_nil_of_length_eq_zero (Nat.le_zero.mp more)) left
    have passed := Place.length_advance_lt left (feedLength_pos left)
    have entered := (Container.before_enterAll containers
      (place.advance (feedLength place.rest))).length_le
    unfold openHtml
    dsimp only
    split
    · apply ih <;> omega
    · rfl

theorem left_of_row {rest : List Char} (row : interruptsRow true true rest = false) : rest ≠ [] := by
  rintro rfl
  exact absurd row (by decide)

theorem tableRows_nil (ended : place.rest = []) (fuel : Nat) :
    tableRows containers fuel place = place := by
  rcases fuel with _ | fuel
  · rfl
  · unfold tableRows
    dsimp only
    split
    · next row =>
      rw [Bool.and_eq_true, Bool.not_eq_true'] at row
      have skipped := (Margin.before_skipIndent (Container.enterAll containers place).2).rest_suffix
      rw [Container.place_enterAll_nil containers ended, ended, List.suffix_nil] at skipped
      exact absurd skipped (left_of_row row.2)
    · rfl

theorem tableRows_fuel (enough : place.rest.length ≤ fuel) (more : place.rest.length ≤ other) :
    tableRows containers fuel place = tableRows containers other place := by
  induction fuel generalizing other place with
  | zero =>
    have ended := List.eq_nil_of_length_eq_zero (Nat.le_zero.mp enough)
    rw [tableRows_nil ended, tableRows_nil ended]
  | succ fuel ih =>
    rcases other with _ | other
    · have ended := List.eq_nil_of_length_eq_zero (Nat.le_zero.mp more)
      rw [tableRows_nil ended, tableRows_nil ended]
    have entered := (Container.before_enterAll containers place).length_le
    have skipped := (Margin.before_skipIndent (Container.enterAll containers place).2).length_le
    unfold tableRows
    dsimp only
    split
    · next row =>
      rw [Bool.and_eq_true, Bool.not_eq_true'] at row
      have left := left_of_row row.2
      have passed := Place.length_advance_lt left (lineLength_pos left)
      apply ih <;> unfold Margin.rest at * <;> omega
    · rfl

theorem textBlock_fuel {indent : Nat} (left : place.rest ≠ []) (enough : place.rest.length ≤ fuel)
    (more : place.rest.length ≤ other) :
    textBlock containers fuel indent place = textBlock containers other indent place := by
  induction fuel generalizing other indent place with
  | zero => exact absurd (List.eq_nil_of_length_eq_zero (Nat.le_zero.mp enough)) left
  | succ fuel ih =>
    rcases other with _ | other
    · exact absurd (List.eq_nil_of_length_eq_zero (Nat.le_zero.mp more)) left
    have passed := Place.length_advance_lt left (lineLength_pos left)
    have entered := (Container.before_enterAll containers
      (place.advance (lineLength place.rest))).length_le
    have indented := ((Container.enterAll containers
      (place.advance (lineLength place.rest))).2.before_indentBy 4).length_le
    have skipped := (Margin.before_skipIndent ((Container.enterAll containers
      (place.advance (lineLength place.rest))).2.indentBy 4).2).length_le
    unfold textBlock
    dsimp only
    split
    · rfl
    split
    · rfl
    · next goesOn =>
      simp only [Bool.or_eq_true, not_or, Bool.not_eq_true] at goesOn
      rcases Margin.exists_of_not_atLineEnd goesOn.2 with ⟨c, behind, rest_eq, _⟩
      have same (indent : Nat) : textBlock containers fuel indent
            ((Container.enterAll containers
              (place.advance (lineLength place.rest))).2.indentBy 4).2.skipIndent.place =
          textBlock containers other indent
            ((Container.enterAll containers
              (place.advance (lineLength place.rest))).2.indentBy 4).2.skipIndent.place :=
        ih (by simp [rest_eq]) (by omega) (by omega)
      rw [same]

end Lines

/-! ## Definitions -/

section Definition

variable {containers : List Container} {fuel other : Nat} {place : Place}

theorem title_go_nil {close : Char} (ended : place.rest = []) (fuel : Nat) :
    definitionTitle?.go containers close fuel place = none := by
  rcases place with ⟨offset, rest⟩
  obtain rfl : rest = [] := ended
  cases fuel <;> rfl

theorem title_go_fuel {close : Char} (enough : place.rest.length ≤ fuel)
    (more : place.rest.length ≤ other) :
    definitionTitle?.go containers close fuel place =
      definitionTitle?.go containers close other place := by
  induction fuel generalizing other place with
  | zero =>
    have ended := List.eq_nil_of_length_eq_zero (Nat.le_zero.mp enough)
    rw [title_go_nil ended, title_go_nil ended]
  | succ fuel ih =>
    rcases other with _ | other
    · have ended := List.eq_nil_of_length_eq_zero (Nat.le_zero.mp more)
      rw [title_go_nil ended, title_go_nil ended]
    rcases chars : place.rest with _ | ⟨c, rest⟩
    · rw [title_go_nil chars, title_go_nil chars]
    have left : place.rest ≠ [] := by simp [chars]
    have once := Place.length_advance_lt left Nat.zero_lt_one
    by_cases escapes : c = '\\' ∧ rest ≠ []
    · rcases escapes with ⟨rfl, nonempty⟩
      rcases List.exists_cons_of_ne_nil nonempty with ⟨escaped, behind, rfl⟩
      have twice := Place.length_advance_lt left Nat.zero_lt_two
      rw [title_go_escape containers chars, title_go_escape containers chars]
      apply ih <;> omega
    · rw [not_and_not_right] at escapes
      rw [title_go_cons containers chars escapes, title_go_cons containers chars escapes]
      split
      · rfl
      split
      · next ends =>
        rcases Option.isSome_iff_exists.mp (show (lineEnd? place.rest).isSome by
          rw [isSome_lineEnd, chars]
          exact ends) with ⟨length, length_eq⟩
        have positive := lineLength_pos left
        rw [lineLength_of_lineEnd length_eq] at positive
        have passed := Place.length_advance_lt left positive
        rw [length_eq, Option.getD_some]
        rcases found : continuation? containers (place.advance length) with _ | margin
        · rfl
        · have continued := (before_continuation found).length_le
          have skipped := margin.before_skipIndent.length_le
          rw [Option.bind_some, Option.bind_some]
          split
          · rfl
          · apply ih <;> omega
      · apply ih <;> omega

theorem definitionTitle_fuel (enough : place.rest.length ≤ fuel)
    (more : place.rest.length ≤ other) :
    definitionTitle? containers fuel place = definitionTitle? containers other place := by
  unfold definitionTitle?
  split
  · rfl
  · have once := (place.before_advance 1).length_le
    apply title_go_fuel <;> omega

theorem definitionEnd_fuel (enough : place.rest.length ≤ fuel) (more : place.rest.length ≤ other) :
    definitionEnd? containers fuel place = definitionEnd? containers other place := by
  unfold definitionEnd?
  rcases found : definitionGap? containers place with _ | gap
  · rfl
  · have before := (before_definitionGap found).length_le
    have same : definitionTitle? containers fuel gap.behind =
        definitionTitle? containers other gap.behind :=
      definitionTitle_fuel (by omega) (by omega)
    dsimp only
    rw [same]

theorem definitionBody_fuel (enough : place.rest.length ≤ fuel)
    (more : place.rest.length ≤ other) :
    definitionBody? containers fuel place = definitionBody? containers other place := by
  rw [definitionBody_eq, definitionBody_eq]
  rcases found : definitionGap? containers place with _ | gap
  · rfl
  rw [Option.bind_some, Option.bind_some]
  congr 1
  funext length
  have before := ((before_definitionGap found).advance length).length_le
  have same : definitionEnd? containers fuel (gap.behind.advance length) =
      definitionEnd? containers other (gap.behind.advance length) :=
    definitionEnd_fuel (by omega) (by omega)
  rw [same]

theorem definition_fuel (enough : place.rest.length ≤ fuel) (more : place.rest.length ≤ other) :
    definition? containers fuel place = definition? containers other place := by
  unfold definition?
  have same (length : Nat) : definitionBody? containers fuel (place.advance (1 + length + 1)) =
      definitionBody? containers other (place.advance (1 + length + 1)) := by
    have before := (place.before_advance (1 + length + 1)).length_le
    apply definitionBody_fuel <;> omega
  simp only [same]

end Definition

/-! ## Steps -/

section Steps

variable {fuel other : Nat} {progress : Progress} {place : Place} {margin : Margin}

theorem further_itemStart {outer indent : Nat} {behind : Margin} {delimiter : Char}
    (item : itemStart? outer margin = some (delimiter, indent, behind)) :
    behind.rest.length < margin.rest.length ∧ margin.place.offset < behind.place.offset := by
  unfold itemStart? at item
  rcases found : itemMark? margin.rest with _ | mark
  · simp [found] at item
  rcases itemMark_length_le found with ⟨positive, within⟩
  have passed : (margin.pass mark.length).place = margin.place.advance mark.length := rfl
  have before := Margin.before_indentBy (margin.pass mark.length) 1
  have further := before.offset_le
  have shorter := before.length_le
  have deeper := Margin.before_indent ((margin.pass mark.length).indentBy 1).2 4
  rw [passed, Place.offset_advance] at further
  rw [passed, Place.rest_advance, List.length_drop] at shorter
  rw [found] at item
  dsimp only at item
  unfold Margin.rest at within ⊢
  split at item
  · cases item
  split at item
  · split at item
    · cases item
      constructor <;> omega
    · cases item
      have := deeper.offset_le
      have := deeper.length_le
      constructor <;> omega
  · cases item

theorem further_quoteMark {behind : Margin} (mark : margin.quoteMark? = some behind) :
    behind.rest.length < margin.rest.length := by
  unfold Margin.quoteMark? at mark
  split at mark
  · next starts =>
    cases mark
    have left : margin.place.rest ≠ [] := by
      intro empty
      rw [Margin.rest, empty] at starts
      cases starts
    have once := Place.length_advance_lt left Nat.zero_lt_one
    have shorter := (Margin.before_indent (margin.pass 1) 1).length_le
    exact Nat.lt_of_le_of_lt shorter once
  · cases mark

theorem footnoteMark_pos {rest name : List Char} {length : Nat}
    (mark : footnoteMark? rest = some (length, name)) : rest ≠ [] ∧ 0 < length := by
  unfold footnoteMark? at mark
  split at mark
  · next starts =>
    constructor
    · rintro rfl
      cases starts
    · split at mark
      · cases mark
      · split at mark
        · cases mark
          exact Nat.succ_pos _
        · cases mark
  · cases mark

/-- The mark of a container is passed over where the container opens. -/
theorem length_container_lt {later : Progress} {behind : Margin}
    (opened : opening progress margin = .container later behind) :
    behind.rest.length < (margin.indent 4).2.rest.length := by
  have marked := marked_opening progress margin
  rw [opened] at marked
  cases marked with
  | @footnote length name mark =>
    rcases footnoteMark_pos mark with ⟨left, positive⟩
    have skipped := (((margin.indent 4).2.place.advance length).before_advance
      (lengthWhile isGap ((margin.indent 4).2.place.advance length).rest)).length_le
    exact Nat.lt_of_le_of_lt skipped (Place.length_advance_lt left positive)
  | item item => exact (further_itemStart item).1
  | quote mark => exact further_quoteMark mark

theorem further_emptyOpening {later : Progress} {next : Place}
    (opened : opening progress margin = .emptyItem later next) :
    next.rest.length < (margin.indent 4).2.rest.length ∧
      (margin.indent 4).2.place.offset < next.offset := by
  have marked := marked_opening progress margin
  rw [opened] at marked
  cases marked with
  | @emptyItem _ _ length behind item =>
    rcases further_itemStart item with ⟨less, greater⟩
    have passed := behind.place.before_advance length
    have := passed.length_le
    have := passed.offset_le
    unfold Margin.rest at *
    constructor <;> omega

theorem opening_nil (ended : margin.rest = []) (progress : Progress) :
    opening progress margin = .nothing := by
  have none {count : Nat} (shorter : count < (margin.indent 4).2.rest.length) : False := by
    rw [Margin.rest, Margin.place_indent_nil ended, ← Margin.rest, ended] at shorter
    exact Nat.not_lt_zero _ shorter
  rcases opened : opening progress margin with _ | ⟨later, next⟩ | ⟨later, behind⟩
  · rfl
  · exact (none (further_emptyOpening opened).1).elim
  · exact (none (length_container_lt opened)).elim

theorem openContainers_nil (ended : margin.rest = []) (fuel : Nat) (progress : Progress) :
    openContainers fuel progress margin = .content progress margin := by
  cases fuel with
  | zero => rfl
  | succ fuel => rw [openContainers_succ, opening_nil ended, Opening.line]

theorem openContainers_fuel (enough : margin.rest.length ≤ fuel)
    (more : margin.rest.length ≤ other) :
    openContainers fuel progress margin = openContainers other progress margin := by
  induction fuel generalizing other progress margin with
  | zero =>
    have ended := List.eq_nil_of_length_eq_zero (Nat.le_zero.mp enough)
    rw [openContainers_nil ended, openContainers_nil ended]
  | succ fuel ih =>
    rcases other with _ | other
    · have ended := List.eq_nil_of_length_eq_zero (Nat.le_zero.mp more)
      rw [openContainers_nil ended, openContainers_nil ended]
    rw [openContainers_succ, openContainers_succ]
    rcases opened : opening progress margin with _ | ⟨later, next⟩ | ⟨later, behind⟩
    · rfl
    · rfl
    · have shorter := length_container_lt opened
      have indented : (margin.indent 4).2.rest.length ≤ margin.rest.length :=
        (margin.before_indent 4).length_le
      dsimp only [Opening.line]
      apply ih <;> omega

theorem lineStart_fuel (enough : place.rest.length ≤ fuel) (more : place.rest.length ≤ other) :
    lineStart fuel progress place = lineStart other progress place := by
  have entered : (Container.enter progress.containers (.start place)).2.rest.length ≤
      place.rest.length := (Container.before_enter progress.containers (.start place)).length_le
  unfold lineStart
  apply openContainers_fuel <;> omega

theorem leaf_fuel (indent : Nat) (left : place.rest ≠ []) (enough : place.rest.length ≤ fuel)
    (more : place.rest.length ≤ other) :
    leaf fuel progress indent place = leaf other progress indent place := by
  have code (fence : Fence) := ((place.before_advance fence.length).advance
    (feedLength (place.advance fence.length).rest)).length_le
  have codes (fence : Fence) : fencedCode progress.containers indent fence fuel
        ((place.advance fence.length).advance (feedLength (place.advance fence.length).rest)) =
      fencedCode progress.containers indent fence other
        ((place.advance fence.length).advance (feedLength (place.advance fence.length).rest)) :=
    fencedCode_fuel ((code fence).trans enough) ((code fence).trans more)
  have texts : leaf.text fuel progress place progress.containers =
      leaf.text other progress place progress.containers := by
    unfold leaf.text
    dsimp only
    rw [textBlock_fuel left enough more]
    split
    · next body table =>
      have before := (before_tableBody progress.containers table).length_le
      rw [tableRows_fuel (before.trans enough) (before.trans more)]
    · rfl
  unfold leaf
  dsimp only
  rw [texts, definition_fuel enough more, openHtml_fuel enough more]
  simp only [codes, terminatedHtml_fuel enough more]

theorem readBlock_fuel (enough : place.rest.length ≤ fuel) (more : place.rest.length ≤ other) :
    readBlock fuel progress place = readBlock other progress place := by
  have reached := adds_lineStart fuel progress place
  rw [readBlock_eq, readBlock_eq, ← lineStart_fuel enough more]
  rcases start : lineStart fuel progress place with ⟨later, margin⟩ | ⟨later, next⟩
  · rw [start] at reached
    rcases reached with ⟨_, _, laid⟩
    have indented : (margin.indent 4).2.place.rest.length ≤ place.rest.length :=
      (laid.before.trans (margin.before_indent 4)).length_le
    dsimp only
    rcases blank : blankLine? margin.rest with _ | length
    · dsimp only
      rw [indentedCode_fuel (indented.trans enough) (indented.trans more),
        leaf_fuel _ (rest_indent_ne_nil blank 4) (indented.trans enough) (indented.trans more)]
    · rfl
  · rfl

end Steps

/-! ## Runs -/

section Runs

variable {fuel other : Nat} {progress : Progress} {place : Place}

theorem further_emptyItem {margin : Margin} {later : Progress} {next : Place}
    (line : openContainers fuel progress margin = .emptyItem later next) :
    next.rest.length < margin.rest.length ∧ margin.place.offset < next.offset := by
  induction fuel generalizing progress margin with
  | zero => cases line
  | succ fuel ih =>
    have indented := margin.before_indent 4
    have shorter : (margin.indent 4).2.rest.length ≤ margin.rest.length := indented.length_le
    have further := indented.offset_le
    rw [openContainers_succ] at line
    rcases opened : opening progress margin with _ | ⟨first, stop⟩ | ⟨first, behind⟩
    · rw [opened] at line
      cases line
    · rw [opened] at line
      cases line
      have passed := further_emptyOpening opened
      constructor <;> omega
    · rw [opened] at line
      have := ih line
      have := length_container_lt opened
      have := (opens_of_container opened).before.offset_le
      constructor <;> omega

theorem before_openHtml_succ (containers : List Container) (fuel : Nat) (place : Place) :
    (place.advance (feedLength place.rest)).Before (openHtml containers (fuel + 1) place) := by
  unfold openHtml
  dsimp only
  split
  · exact (Container.before_enterAll containers _).trans (before_openHtml containers fuel _)
  · exact .refl _

theorem before_textBlock_succ (containers : List Container) (fuel indent : Nat) (place : Place) :
    (place.advance (lineLength place.rest)).Before
      (textBlock containers (fuel + 1) indent place).next := by
  have indented := (Container.before_enterAll containers
    (place.advance (lineLength place.rest))).trans (Margin.before_indentBy _ 4)
  unfold textBlock
  dsimp only
  split
  · exact indented.advance _
  · split
    · exact .refl _
    · exact (indented.trans (Margin.before_skipIndent _)).trans (before_textBlock ..)

theorem before_tableBody_line {containers : List Container} {body : Place} {pipes : List Nat}
    (table : tableBody? containers place pipes = some body) :
    (place.advance (lineLength place.rest)).Before body := by
  unfold tableBody? at table
  split at table
  · cases table
  · dsimp only at table
    split at table
    · cases table
    · split at table
      · cases table
        exact (Container.before_enterAll containers _).advance _
      · cases table

theorem fence_length_pos {rest : List Char} {fence : Fence} (opens : fence? rest = some fence) :
    0 < fence.length := by
  unfold fence? at opens
  split at opens
  · cases opens
  · dsimp only at opens
    split at opens
    · next both =>
      cases opens
      rw [Bool.and_eq_true, decide_eq_true_iff] at both
      exact Nat.lt_of_lt_of_le (by decide) both.2
    · cases opens

/-- A leaf takes up a character at least. -/
theorem further_leaf (indent : Nat) (left : place.rest ≠ []) (enough : place.rest.length ≤ fuel) :
    (leaf fuel progress indent place).2.rest.length < place.rest.length := by
  rcases fuel with _ | fuel
  · exact absurd (List.eq_nil_of_length_eq_zero (Nat.le_zero.mp enough)) left
  have fed := Place.length_advance_lt left (feedLength_pos left)
  have lined := Place.length_advance_lt left (lineLength_pos left)
  unfold leaf
  dsimp only
  split
  · exact Nat.lt_of_le_of_lt (before_terminatedHtml_succ _ _ fuel place).length_le fed
  split
  · exact Nat.lt_of_le_of_lt (before_openHtml_succ _ fuel place).length_le fed
  split
  · next rule =>
    rw [thematicBreak_eq_some rule]
    exact lined
  split
  · exact lined
  split
  · next fence opens =>
    have opened := Place.length_advance_lt left (fence_length_pos opens)
    have behind := ((place.advance fence.length).before_advance
      (feedLength (place.advance fence.length).rest)).trans
        (before_fencedCode progress.containers indent fence (fuel + 1) _)
    exact Nat.lt_of_le_of_lt behind.length_le opened
  split
  · next found =>
    have once := Place.length_advance_lt left Nat.zero_lt_one
    exact Nat.lt_of_le_of_lt (before_definition found).length_le once
  · unfold leaf.text
    dsimp only
    split
    · next table =>
      have behind := (before_tableBody_line table).trans
        (before_tableRows progress.containers (fuel + 1) _)
      exact Nat.lt_of_le_of_lt behind.length_le lined
    · exact Nat.lt_of_le_of_lt (before_textBlock_succ _ fuel 0 place).length_le lined

/-- Reading a block takes up a character at least. -/
theorem further_readBlock (left : place.rest ≠ []) (enough : place.rest.length ≤ fuel) :
    (readBlock fuel progress place).2.rest.length < place.rest.length := by
  have entered := (Container.before_enter progress.containers (.start place)).length_le
  have started : (Margin.start place).place = place := rfl
  have reached := adds_lineStart fuel progress place
  rw [started] at entered
  rw [readBlock_eq]
  rcases start : lineStart fuel progress place with ⟨later, margin⟩ | ⟨later, next⟩
  · rw [start] at reached
    rcases reached with ⟨_, _, laid⟩
    have shorter := laid.before.length_le
    have positive := List.length_pos_iff.mpr left
    dsimp only [LineStart.place] at shorter ⊢
    rcases blank : blankLine? margin.rest with _ | length
    · have indented := (margin.before_indent 4).length_le
      have inside := rest_indent_ne_nil blank 4
      dsimp only
      split
      · rcases fuel with _ | fuel
        · omega
        have fed := Place.length_advance_lt inside (feedLength_pos inside)
        have passed := (before_indentedCode_succ later.closeList.containers fuel
          (margin.indent 4).2.place).length_le
        dsimp only
        omega
      · have passed : (leaf fuel later.closeList (margin.indent 4).1
            (margin.indent 4).2.place).2.rest.length < (margin.indent 4).2.place.rest.length :=
          further_leaf _ inside (by omega)
        omega
    · dsimp only
      by_cases empty : margin.place.rest = []
      · rwa [Place.rest_advance, empty, List.drop_nil]
      · have passed := Place.length_advance_lt empty ((skips_blankLine blank).2 empty)
        omega
  · rw [lineStart] at start
    have passed := (further_emptyItem start).1
    exact Nat.lt_of_lt_of_le passed entered

theorem readBlocks_fuel (enough : place.rest.length < fuel) (more : place.rest.length < other) :
    readBlocks fuel progress place = readBlocks other progress place := by
  induction fuel generalizing other progress place with
  | zero => exact absurd enough (Nat.not_lt_zero _)
  | succ fuel ih =>
    rcases other with _ | other
    · exact absurd more (Nat.not_lt_zero _)
    rw [readBlocks, readBlocks]
    split
    · rfl
    · next left =>
      have left : place.rest ≠ [] := by simpa using left
      have passed : (readBlock fuel progress place).2.rest.length < place.rest.length :=
        further_readBlock left (by omega)
      have same : readBlock other progress place = readBlock fuel progress place :=
        readBlock_fuel (by omega) (by omega)
      rw [same]
      dsimp only
      apply ih <;> omega

end Runs

end Refill.Markdown
