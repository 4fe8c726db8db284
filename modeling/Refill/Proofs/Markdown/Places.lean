import Mathlib.Data.List.Basic
import Refill.Markdown.Document

/-!
# Places in a document

A document is read forwards: from a place, every reader goes on to a later place in the same
document (`Place.Before`). Here this is told of the readers of margins, containers, definitions
and lines.
-/

namespace Refill.Markdown

/-! ## Earlier and later places -/

/-- The later place is reached by passing over so many characters, perhaps none. -/
def Place.Before (place later : Place) : Prop :=
  ∃ count, later = place.advance count

namespace Place

variable {place later last : Place}

@[simp]
theorem offset_advance (place : Place) (count : Nat) :
    (place.advance count).offset = place.offset + count := rfl

@[simp]
theorem rest_advance (place : Place) (count : Nat) :
    (place.advance count).rest = place.rest.drop count := rfl

theorem advance_advance (place : Place) (count more : Nat) :
    (place.advance count).advance more = place.advance (count + more) := by
  simp [advance, Nat.add_assoc]

theorem before_advance (place : Place) (count : Nat) : place.Before (place.advance count) :=
  ⟨count, rfl⟩

namespace Before

theorem refl (place : Place) : place.Before place :=
  ⟨0, by simp [advance]⟩

theorem trans (first : place.Before later) (second : later.Before last) : place.Before last := by
  rcases first with ⟨count, rfl⟩
  rcases second with ⟨more, rfl⟩
  exact ⟨count + more, advance_advance place count more⟩

theorem advance (before : place.Before later) (count : Nat) :
    place.Before (later.advance count) :=
  before.trans (later.before_advance count)

theorem offset_le (before : place.Before later) : place.offset ≤ later.offset := by
  rcases before with ⟨count, rfl⟩
  exact Nat.le_add_right place.offset count

theorem rest_eq (before : place.Before later) :
    later.rest = place.rest.drop (later.offset - place.offset) := by
  rcases before with ⟨count, rfl⟩
  simp

theorem rest_suffix (before : place.Before later) : later.rest <:+ place.rest := by
  rcases before with ⟨count, rfl⟩
  exact List.drop_suffix count place.rest

theorem rest_ne_nil (before : place.Before later) (left : later.rest ≠ []) : place.rest ≠ [] := by
  intro empty
  have suffix := before.rest_suffix
  rw [empty, List.suffix_nil] at suffix
  exact left suffix

/-- A place before the end of the document tells where that is. -/
theorem offset_add_length (before : place.Before later) (left : later.rest ≠ []) :
    later.offset + later.rest.length = place.offset + place.rest.length := by
  rcases before with ⟨count, rfl⟩
  rw [rest_advance, ne_eq, List.drop_eq_nil_iff, Nat.not_le] at left
  rw [offset_advance, rest_advance, List.length_drop]
  omega

theorem length_lt (before : place.Before later) (further : place.offset < later.offset)
    (left : place.rest ≠ []) : later.rest.length < place.rest.length := by
  rcases before with ⟨count, rfl⟩
  have positive := List.length_pos_iff.mpr left
  rw [offset_advance] at further
  rw [rest_advance, List.length_drop]
  omega

end Before

end Place

/-! ## Margins -/

namespace Margin

theorem exists_indentation_go (wanted offset column owed : Nat) (rest : List Char) :
    ∃ passed, (∀ c ∈ passed, c = ' ' ∨ c = '\t') ∧
      rest = passed ++ (indent.go wanted offset column owed rest).2.place.rest ∧
        (indent.go wanted offset column owed rest).2.place.offset = offset + passed.length := by
  fun_induction indent.go wanted offset column owed rest with
  | case1 => exact ⟨[], by simp, rfl, rfl⟩
  | case2 => exact ⟨[], by simp, rfl, rfl⟩
  | case3 wanted offset column owed rest _ taken after go_eq ih =>
    rw [go_eq] at ih
    rcases ih with ⟨passed, blank, rest_eq, offset_eq⟩
    refine ⟨' ' :: passed, by simpa using blank, congrArg (' ' :: ·) rest_eq, ?_⟩
    rw [offset_eq, List.length_cons]
    omega
  | case4 wanted offset column owed rest _ width used taken after go_eq _ ih =>
    rw [go_eq] at ih
    rcases ih with ⟨passed, blank, rest_eq, offset_eq⟩
    refine ⟨'\t' :: passed, by simpa using blank, congrArg ('\t' :: ·) rest_eq, ?_⟩
    rw [offset_eq, List.length_cons]
    omega
  | case5 => exact ⟨[], by simp, rfl, rfl⟩

/-- Indentation is made of spaces and tabs. -/
theorem exists_indentation (margin : Margin) (wanted : Nat) :
    ∃ passed, (∀ c ∈ passed, c = ' ' ∨ c = '\t') ∧
      margin.place.rest = passed ++ (margin.indent wanted).2.place.rest ∧
        (margin.indent wanted).2.place.offset = margin.place.offset + passed.length :=
  exists_indentation_go ..

theorem before_indent (margin : Margin) (wanted : Nat) :
    margin.place.Before (margin.indent wanted).2.place := by
  rcases margin.exists_indentation wanted with ⟨passed, _, rest_eq, offset_eq⟩
  refine ⟨passed.length, ?_⟩
  rw [Place.advance, rest_eq, List.drop_left, ← offset_eq]

theorem before_indentBy (margin : Margin) (wanted : Nat) :
    margin.place.Before (margin.indentBy wanted).2.place :=
  margin.before_indent wanted

theorem before_skipIndent (margin : Margin) : margin.place.Before margin.skipIndent.place :=
  margin.place.before_advance _

theorem before_pass (margin : Margin) (count : Nat) :
    margin.place.Before (margin.pass count).place :=
  margin.place.before_advance count

theorem before_quoteMark {margin behind : Margin} (mark : margin.quoteMark? = some behind) :
    margin.place.Before behind.place := by
  unfold quoteMark? at mark
  split at mark
  · cases mark
    exact (margin.before_pass 1).trans (before_indent _ 1)
  · cases mark

end Margin

/-! ## Containers -/

namespace Container

theorem before_indented {margin behind : Margin} {columns : Nat}
    (enters : enter?.indented? margin columns = some behind) :
    margin.place.Before behind.place := by
  unfold enter?.indented? at enters
  simp only at enters
  split at enters
  · cases enters
    exact margin.before_indentBy columns
  · cases enters

theorem before_enter? {margin behind : Margin} {container : Container}
    (enters : container.enter? margin = some behind) : margin.place.Before behind.place := by
  cases container with
  | quote => exact (margin.before_indent 3).trans (Margin.before_quoteMark enters)
  | list delimiter tight =>
    cases enters
    exact .refl _
  | item indent => exact before_indented enters
  | footnote => exact before_indented enters

theorem before_enter (containers : List Container) (margin : Margin) :
    margin.place.Before (enter containers margin).2.place := by
  fun_induction enter containers margin with
  | case1 => exact .refl _
  | case2 => exact .refl _
  | case3 margin container inner behind enters count last enter_eq ih =>
    rw [enter_eq] at ih
    exact (before_enter? enters).trans ih

theorem before_enterAll (containers : List Container) (place : Place) :
    place.Before (enterAll containers place).2.place :=
  before_enter containers (.start place)

end Container

/-! ## Definitions of links -/

section Definition

variable {containers : List Container} {place : Place}

theorem before_continuation {margin : Margin}
    (continues : continuation? containers place = some margin) : place.Before margin.place := by
  unfold continuation? at continues
  simp only at continues
  split at continues
  · cases continues
  · cases continues
    exact (Container.before_enterAll containers place).trans (Margin.before_indentBy _ 4)

theorem before_definitionGap {gap : DefinitionGap}
    (gap_eq : definitionGap? containers place = some gap) : place.Before gap.behind := by
  unfold definitionGap? at gap_eq
  simp only at gap_eq
  have blanks := place.before_advance (lengthWhile isGap place.rest)
  split at gap_eq
  · cases gap_eq
    exact blanks
  · next length _ =>
    split at gap_eq
    · cases gap_eq
    · next margin continues =>
      have broken := (blanks.advance length).trans (before_continuation continues)
      split at gap_eq
      · cases gap_eq
      · cases gap_eq
        exact broken.advance _

theorem before_definitionTitle_go {close : Char} {fuel : Nat} {behind : Place}
    (title : definitionTitle?.go containers close fuel place = some behind) :
    place.Before behind := by
  fun_induction definitionTitle?.go containers close fuel place with
  | case1 => cases title
  | case2 => cases title
  | case3 fuel place c rest rest_eq ih => exact (place.before_advance 2).trans (ih title)
  | case4 fuel place c rest rest_eq _ closes =>
    cases title
    exact place.before_advance 1
  | case5 => cases title
  | case6 => cases title
  | case7 fuel place c rest rest_eq _ other ends margin continues skipped atEnd ih =>
    have continued := (place.before_advance _).trans (before_continuation continues)
    exact (continued.trans margin.before_skipIndent).trans (ih title)
  | case8 fuel place c rest rest_eq _ other inner ih =>
    exact (place.before_advance 1).trans (ih title)

theorem before_definitionTitle {fuel : Nat} {behind : Place}
    (title : definitionTitle? containers fuel place = some behind) : place.Before behind := by
  unfold definitionTitle? at title
  split at title
  · cases title
  · exact (place.before_advance 1).trans (before_definitionTitle_go title)

theorem before_definitionBody {fuel : Nat} {behind : Place}
    (body : definitionBody? containers fuel place = some behind) : place.Before behind := by
  unfold definitionBody? at body
  split at body
  · cases body
  · next gap gap_eq =>
    split at body
    · cases body
    · cases body
    · next length _ _ =>
      have bare := (before_definitionGap gap_eq).advance length
      simp only at body
      split at body
      · cases body
        exact bare
      · next after after_eq =>
        have behindGap := bare.trans (before_definitionGap after_eq)
        split at body
        · cases body
        · split at body
          · next titled title =>
            split at body
            · cases body
              exact behindGap.trans (before_definitionTitle title)
            · split at body
              · cases body
                exact bare
              · cases body
          · split at body
            · cases body
              exact bare
            · cases body

/-- A definition goes on beyond the bracket that it begins with. -/
theorem before_definition {fuel : Nat} {name : List Char} {next : Place}
    (definition : definition? containers fuel place = some (name, next)) :
    (place.advance 1).Before next := by
  unfold definition? at definition
  split at definition
  · split at definition
    · cases definition
    · next length label _ =>
      split at definition
      · split at definition
        · cases definition
        · next behind body =>
          cases definition
          have label : (place.advance 1).Before (place.advance (1 + length + 1)) := by
            rw [Nat.add_assoc, ← Place.advance_advance]
            exact Place.before_advance _ _
          exact (label.trans (before_definitionBody body)).advance _
      · cases definition
  · cases definition

/-- A label ends with a closing bracket. -/
theorem exists_of_label_go {lineBreak : List Char → Option Nat} {scan : LabelScan}
    {rest name : List Char} {length : Nat}
    (label : label?.go lineBreak scan rest = some (length, name)) :
    ∃ inside behind, rest = inside ++ ']' :: behind ∧
      length = scan.length + inside.length + 1 := by
  have passed {before : Nat} {rest : List Char} (step : List Char)
      (later : ∃ inside behind, rest = inside ++ ']' :: behind ∧
        length = before + step.length + inside.length + 1) :
      ∃ inside behind, step ++ rest = inside ++ ']' :: behind ∧
        length = before + inside.length + 1 := by
    rcases later with ⟨inside, behind, rfl, length_eq⟩
    refine ⟨step ++ inside, behind, by rw [List.append_assoc], ?_⟩
    rw [length_eq, List.length_append, Nat.add_assoc]
    omega
  fun_induction label?.go lineBreak scan rest with
  | case1 => cases label
  | case2 scan c rest _ ih => exact passed [c] (ih label)
  | case3 => cases label
  | case4 scan c rest _ _ close =>
    cases label
    exact ⟨[], rest, by simpa using close, rfl⟩
  | case5 => cases label
  | case6 => cases label
  | case7 scan c _ _ _ _ escaped rest ih => exact passed [c, escaped] (ih label)
  | case8 => cases label
  | case9 => cases label
  | case10 scan c rest _ _ _ _ _ _ _ _ _ _ ih => exact passed [c] (ih label)
  | case11 scan c rest _ _ _ _ _ _ ih => exact passed [c] (ih label)
  | case12 scan c rest _ _ _ _ _ _ ih => exact passed [c] (ih label)

/-- A definition has a colon behind its label. -/
theorem colon_of_definition {fuel : Nat} {name : List Char} {next : Place}
    (definition : definition? containers fuel place = some (name, next)) :
    "]:".toList <:+: place.rest := by
  unfold definition? at definition
  split at definition
  · split at definition
    · cases definition
    · next length label label_eq =>
      split at definition
      · next colon =>
        rcases exists_of_label_go label_eq with ⟨inside, behind, rest_eq, length_eq⟩
        have closed : inside.length + 1 = length := by rw [length_eq, LabelScan.start, Nat.zero_add]
        rw [← List.drop_drop, rest_eq, ← closed, ← List.drop_drop, List.drop_left] at colon
        rcases behind with _ | ⟨mark, behind⟩
        · cases colon
        have mark_eq : mark = ':' := by simpa using colon
        refine ⟨place.rest.take 1 ++ inside, behind, ?_⟩
        conv_rhs => rw [← List.take_append_drop 1 place.rest, rest_eq, mark_eq]
        simp
      · cases definition
  · cases definition

end Definition

/-! ## Blocks -/

theorem before_itemStart {outer indent : Nat} {margin behind : Margin} {delimiter : Char}
    (item : itemStart? outer margin = some (delimiter, indent, behind)) :
    margin.place.Before behind.place := by
  unfold itemStart? at item
  split at item
  · cases item
  · next mark _ =>
    split at item
    · cases item
    · simp only at item
      have spaced := (margin.before_pass mark.length).trans (Margin.before_indentBy _ 1)
      split at item
      · split at item
        · cases item
          exact spaced
        · cases item
          exact spaced.trans (Margin.before_indent _ 4)
      · cases item

section Lines

variable (containers : List Container)

theorem before_indentedCode (fuel : Nat) (place : Place) :
    place.Before (indentedCode containers fuel place) := by
  induction fuel generalizing place with
  | zero => exact .refl _
  | succ fuel ih =>
    unfold indentedCode
    simp only
    have passed := place.before_advance (feedLength place.rest)
    split
    · have entered := passed.trans (Container.before_enterAll containers _)
      exact (entered.trans (Margin.before_indentBy _ 4)).trans (ih _)
    · exact passed

theorem before_fencedCode (indent : Nat) (fence : Fence) (fuel : Nat) (place : Place) :
    place.Before (fencedCode containers indent fence fuel place) := by
  induction fuel generalizing place with
  | zero => exact .refl _
  | succ fuel ih =>
    unfold fencedCode
    simp only
    split
    · have indented := (Container.before_enterAll containers place).trans
        (Margin.before_indent _ indent)
      split
      · next length _ =>
        have closing := indented.trans (Margin.before_indentBy _ (4 - indent))
        exact (closing.advance length).advance _
      · exact (indented.advance _).trans (ih _)
    · exact .refl _

theorem before_terminatedHtml (terminator : List Char) (fuel : Nat) (place : Place) :
    place.Before (terminatedHtml containers terminator fuel place) := by
  induction fuel generalizing place with
  | zero => exact .refl _
  | succ fuel ih =>
    unfold terminatedHtml
    simp only
    have passed := place.before_advance (feedLength place.rest)
    split
    · exact (passed.trans (Container.before_enterAll containers _)).trans (ih _)
    · exact passed

theorem before_openHtml (fuel : Nat) (place : Place) :
    place.Before (openHtml containers fuel place) := by
  induction fuel generalizing place with
  | zero => exact .refl _
  | succ fuel ih =>
    unfold openHtml
    simp only
    have passed := place.before_advance (feedLength place.rest)
    split
    · exact (passed.trans (Container.before_enterAll containers _)).trans (ih _)
    · exact passed

theorem before_tableBody {place body : Place} {pipes : List Nat}
    (table : tableBody? containers place pipes = some body) : place.Before body := by
  unfold tableBody? at table
  split at table
  · cases table
  · simp only at table
    split at table
    · cases table
    · split at table
      · cases table
        have entered := (place.before_advance (lineLength place.rest)).trans
          (Container.before_enterAll containers _)
        exact entered.advance _
      · cases table

theorem before_tableRows (fuel : Nat) (place : Place) :
    place.Before (tableRows containers fuel place) := by
  induction fuel generalizing place with
  | zero => exact .refl _
  | succ fuel ih =>
    unfold tableRows
    simp only
    split
    · have entered := (Container.before_enterAll containers place).trans
        (Margin.before_skipIndent _)
      exact (entered.advance _).trans (ih _)
    · exact .refl _

end Lines

end Refill.Markdown
