import Refill.Proofs.Markdown.Fuel

/-!
# Runs of the reader

A document is read step by step (`Reads`), and what the reader finds from a place on does not depend
on how it came there (`Reads.readAll_eq`). A run passes each character of a document in one of its
steps (`exists_reads`). Up to the paragraph of a seam the run is the same in both documents
(`Seam.reads`).
-/

namespace Refill.Markdown

/-- A step over the block that begins at the place. -/
def readNext (progress : Progress) (place : Place) : Progress × Place :=
  readBlock place.rest.length progress place

/-- What is found when all that is left is read. -/
def readAll (progress : Progress) (place : Place) : Progress :=
  readBlocks (place.rest.length + 1) progress place

/-- The reader comes from the one place to the other. -/
inductive Reads : Progress → Place → Progress → Place → Prop
  | refl (progress : Progress) (place : Place) : Reads progress place progress place
  | step {progress later : Progress} {place next : Place} (left : place.rest ≠ [])
      (reads : Reads (readNext progress place).1 (readNext progress place).2 later next) :
      Reads progress place later next

section Run

variable {progress later last : Progress} {place next stop : Place} {fuel : Nat}

theorem readBlock_eq_readNext (enough : place.rest.length ≤ fuel) :
    readBlock fuel progress place = readNext progress place :=
  readBlock_fuel enough (Nat.le_refl _)

theorem readAll_ended (ended : place.rest = []) :
    readAll progress place = progress.closeMany place.offset progress.frames.length := by
  rw [readAll, readBlocks, ended]
  rfl

theorem readAll_step (left : place.rest ≠ []) :
    readAll progress place = readAll (readNext progress place).1 (readNext progress place).2 := by
  have shorter : (readNext progress place).2.rest.length < place.rest.length :=
    further_readBlock left (Nat.le_refl _)
  have filled : place.rest.isEmpty = false := by simpa using left
  rw [readAll, readBlocks, filled]
  exact readBlocks_fuel shorter (Nat.lt_succ_self _)

theorem adds_readNext (progress : Progress) (place : Place) :
    Adds progress place (readNext progress place) :=
  adds_readBlock _ progress place

theorem before_readNext (progress : Progress) (place : Place) :
    place.Before (readNext progress place).2 := by
  rcases adds_readNext progress place with ⟨_, _, laid⟩
  exact laid.before

namespace Reads

theorem readAll_eq (reads : Reads progress place later next) :
    readAll progress place = readAll later next := by
  induction reads with
  | refl => rfl
  | step left _ ih => rw [readAll_step left, ih]

theorem before (reads : Reads progress place later next) : place.Before next := by
  induction reads with
  | refl progress place => exact .refl place
  | @step progress later place next left _ ih => exact (before_readNext progress place).trans ih

theorem trans (first : Reads progress place later next) (second : Reads later next last stop) :
    Reads progress place last stop := by
  induction first with
  | refl => exact second
  | step left _ ih => exact .step left (ih second)

theorem adds (reads : Reads progress place later next) : Adds progress place (later, next) := by
  induction reads with
  | refl progress place => exact .nothing rfl (.refl place)
  | @step progress later place next _ _ ih => exact (adds_readNext progress place).trans ih

end Reads

/-- A run passes each character that is left in one of its steps. -/
theorem exists_reads (progress : Progress) {count : Nat} (positive : 0 < count)
    (le : count ≤ place.rest.length) :
    ∃ later next, Reads progress place later next ∧ count ≤ next.rest.length ∧
      (readNext later next).2.rest.length < count := by
  induction size : place.rest.length using Nat.strong_induction_on generalizing progress place with
  | _ size ih =>
    by_cases passes : (readNext progress place).2.rest.length < count
    · exact ⟨progress, place, .refl progress place, le, passes⟩
    · have left : place.rest ≠ [] := List.ne_nil_of_length_pos (Nat.lt_of_lt_of_le positive le)
      have shorter : (readNext progress place).2.rest.length < place.rest.length :=
        further_readBlock left (Nat.le_refl _)
      rw [Nat.not_lt] at passes
      rcases ih _ (size ▸ shorter) _ passes rfl with ⟨later, next, reads, reached⟩
      exact ⟨later, next, .step left reads, reached⟩

end Run

/-! ## Steps over a text behind spaces -/

section Spaced

variable {text : List Char} {progress : Progress} {place : Place} {margin : Margin} {fuel : Nat}

theorem length_openContainers_le (fuel : Nat) (progress : Progress) (margin : Margin) :
    (openContainers fuel progress margin).place.rest.length ≤ margin.rest.length := by
  rcases adds_openContainers fuel progress margin with ⟨_, _, laid⟩
  exact laid.before.length_le

theorem exists_head_of_itemStart {outer indent : Nat} {delimiter : Char} {behind : Margin}
    (item : itemStart? outer margin = some (delimiter, indent, behind)) :
    ∃ c, margin.rest.head? = some c ∧ c ≠ ' ' := by
  rcases found : itemMark? margin.rest with _ | mark
  · rw [itemStart?, found] at item
    cases item
  · rcases itemMark_starts found with ⟨c, starts, solid⟩
    refine ⟨c, starts, ?_⟩
    rintro rfl
    exact absurd solid (by decide)

/-- The mark of a container does not begin with a space. -/
theorem exists_head_of_opening (opened : opening progress margin ≠ .nothing) :
    ∃ c, (margin.indent 4).2.rest.head? = some c ∧ c ≠ ' ' := by
  have marked := marked_opening progress margin
  generalize opening progress margin = found at opened marked
  cases marked with
  | deep => exact absurd rfl opened
  | plain => exact absurd rfl opened
  | footnote mark =>
    refine ⟨'[', ?_, by decide⟩
    unfold footnoteMark? at mark
    split at mark
    · next opens =>
      rcases List.isPrefixOf_iff_prefix.mp opens with ⟨more, rest_eq⟩
      rw [← rest_eq]
      rfl
    · cases mark
  | item item => exact exists_head_of_itemStart item
  | emptyItem item => exact exists_head_of_itemStart item
  | quote mark =>
    refine ⟨'>', ?_, by decide⟩
    unfold Margin.quoteMark? at mark
    split at mark
    · next starts => exact starts
    · cases mark

/-- A line whose text begins with the mark of a container is read on behind the beginning of the
text. -/
theorem openContainers_of_spaced (spaced : Spaced text margin.rest)
    (stays : text.length ≤ (openContainers fuel progress margin).place.rest.length) :
    openContainers fuel progress margin = .content progress margin := by
  rcases fuel with _ | fuel
  · rfl
  have indented : (margin.indent 4).2.rest <:+ margin.rest := (margin.before_indent 4).rest_suffix
  have passed (opened : opening progress margin ≠ .nothing) :
      ¬text.length < (margin.indent 4).2.rest.length := by
    intro longer
    rcases exists_head_of_opening opened with ⟨c, starts, other⟩
    rw [(spaced.of_suffix indented longer.le).eq_of_head starts other] at longer
    exact Nat.lt_irrefl _ longer
  rw [openContainers_succ] at stays ⊢
  rcases opened : opening progress margin with _ | ⟨later, next⟩ | ⟨later, behind⟩
  · rfl
  · rw [opened] at stays passed
    exact absurd (Nat.lt_of_le_of_lt stays (further_emptyOpening opened).1) (passed (by simp))
  · rw [opened] at stays passed
    have reached := stays.trans (length_openContainers_le fuel later behind)
    exact absurd (Nat.lt_of_le_of_lt reached (length_container_lt opened)) (passed (by simp))

/-- The line at a place from which spaces lead to the text begins with no container, unless it is read
on behind the beginning of the text. -/
theorem lineStart_of_spaced (spaced : Spaced text place.rest)
    (stays : text.length ≤ (lineStart fuel progress place).place.rest.length) :
    ∃ count, lineStart fuel progress place =
        .content (progress.closeMany place.offset count)
          (Container.enter progress.containers (.start place)).2 ∧
      count = progress.frames.length - (Container.enter progress.containers (.start place)).1 ∧
      Spaced text (Container.enter progress.containers (.start place)).2.rest := by
  have entered : (Container.enter progress.containers (.start place)).2.rest <:+ place.rest :=
    (Container.before_enter progress.containers (.start place)).rest_suffix
  have le := stays.trans (length_openContainers_le fuel _ _)
  have inner := spaced.of_suffix entered le
  exact ⟨_, openContainers_of_spaced inner stays, rfl, inner⟩

theorem Spaced.isBlankLine {rest : List Char} (spaced : Spaced text rest) :
    isBlankLine rest = false := by
  rcases spaced with ⟨⟨spaces, blank, rfl⟩, c, back, rfl, solid⟩
  have gaps : ∀ c ∈ spaces, isGap c := by
    intro c mem
    rw [blank c mem]
    rfl
  rw [isWhite, Bool.or_eq_false_iff] at solid
  rw [isBlankLine_eq, List.dropWhile_append_of_pos gaps, List.dropWhile_cons_of_neg (by simp [solid.1]),
    List.head?_cons, Option.all_some, solid.2]

/-- Indentation ends before anything else than a blank. -/
theorem Margin.head_indent {wanted : Nat} (short : (margin.indent wanted).1 < wanted) {c : Char}
    (starts : (margin.indent wanted).2.rest.head? = some c) : c ≠ ' ' ∧ c ≠ '\t' := by
  have among (wanted offset column owed : Nat) (rest : List Char)
      (short : (indent.go wanted offset column owed rest).1 < wanted)
      (starts : (indent.go wanted offset column owed rest).2.rest.head? = some c) :
      c ≠ ' ' ∧ c ≠ '\t' := by
    fun_induction indent.go wanted offset column owed rest with
    | case1 => cases starts
    | case2 => exact absurd short (Nat.not_lt_zero _)
    | case3 wanted offset column owed rest left taken after go_eq ih =>
      rw [go_eq] at ih
      exact ih (by omega) starts
    | case4 wanted offset column owed rest left width used taken after go_eq no_space ih =>
      rw [go_eq] at ih
      exact ih (by omega) starts
    | case5 wanted offset column owed d rest left no_space no_tab =>
      obtain rfl : d = c := by simpa [Margin.rest] using starts
      exact ⟨no_space, no_tab⟩
  unfold indent at short starts
  dsimp only at short starts
  exact among _ _ _ _ _ (by omega) starts

theorem Margin.indent_le (margin : Margin) (wanted : Nat) : (margin.indent wanted).1 ≤ wanted := by
  have among (wanted offset column owed : Nat) (rest : List Char) :
      (indent.go wanted offset column owed rest).1 ≤ wanted := by
    fun_induction indent.go wanted offset column owed rest with
    | case1 | case2 | case5 => exact Nat.zero_le _
    | case3 wanted offset column owed rest left taken after go_eq ih =>
      rw [go_eq] at ih
      omega
    | case4 wanted offset column owed rest left width used taken after go_eq no_space ih =>
      rw [go_eq] at ih
      omega
  have within := among (wanted - min margin.owed wanted) margin.place.offset margin.column
    (margin.owed - min margin.owed wanted) margin.place.rest
  unfold indent
  dsimp only
  omega

/-- The text begins behind the indentation of its line. -/
theorem Spaced.rest_indent (spaced : Spaced text margin.rest)
    (shallow : (margin.indent 4).1 ≠ 4)
    (stays : text.length ≤ (margin.indent 4).2.rest.length) : (margin.indent 4).2.rest = text := by
  have suffix : (margin.indent 4).2.rest <:+ margin.rest := (margin.before_indent 4).rest_suffix
  have short : (margin.indent 4).1 < 4 := Nat.lt_of_le_of_ne (margin.indent_le 4) shallow
  have left := List.ne_nil_of_length_pos (Nat.lt_of_lt_of_le spaced.positive stays)
  rcases List.exists_cons_of_ne_nil left with ⟨c, back, rest_eq⟩
  have starts : (margin.indent 4).2.rest.head? = some c := by rw [rest_eq, List.head?_cons]
  exact (spaced.of_suffix suffix stays).eq_of_head starts (Margin.head_indent short starts).1

theorem Spaced.blankLine (spaced : Spaced text margin.rest) : blankLine? margin.rest = none := by
  have filled := spaced.isBlankLine
  rw [Markdown.isBlankLine] at filled
  exact Option.not_isSome_iff_eq_none.mp (by simp [filled])

theorem before_lineStart_readNext (progress : Progress) (place : Place) :
    (lineStart place.rest.length progress place).place.Before (readNext progress place).2 := by
  rcases adds_behind_lineStart place.rest.length progress place with ⟨_, _, laid⟩
  exact laid.before

/-- A step passes the beginning of the text to which spaces lead. -/
theorem length_readNext_lt (spaced : Spaced text place.rest) :
    (readNext progress place).2.rest.length < text.length := by
  by_contra stays
  rw [Nat.not_lt] at stays
  have reached := stays.trans (before_lineStart_readNext progress place).length_le
  rcases lineStart_of_spaced spaced reached with ⟨count, start_eq, _, inner⟩
  generalize (Container.enter progress.containers (.start place)).2 = margin at start_eq inner
  have suffix : margin.rest <:+ place.rest := by
    have passed := adds_lineStart place.rest.length progress place
    rw [start_eq] at passed
    rcases passed with ⟨_, _, laid⟩
    exact laid.before.rest_suffix
  have indented : (margin.indent 4).2.rest <:+ margin.rest := (margin.before_indent 4).rest_suffix
  rw [readNext, readBlock_eq, start_eq] at stays
  dsimp only at stays
  rw [inner.blankLine] at stays
  dsimp only at stays
  split at stays
  · have some_left := Nat.lt_of_lt_of_le spaced.positive spaced.reaches.length_le
    rcases size : place.rest.length with _ | fuel
    · omega
    rw [size] at stays
    have passed := before_indentedCode_succ
      (progress.closeMany place.offset count).closeList.containers fuel (margin.indent 4).2.place
    have le : text.length ≤ (margin.indent 4).2.rest.length :=
      stays.trans ((Place.before_advance _ _).trans passed).length_le
    have fed := (inner.of_suffix indented le).feed
    exact Nat.lt_irrefl _ (Nat.lt_of_le_of_lt (stays.trans passed.length_le) fed)
  · next shallow =>
    have left := inner.blankLine
    have le : text.length ≤ (margin.indent 4).2.rest.length := by
      have passed : Adds (progress.closeMany place.offset count).closeList (margin.indent 4).2.place
          (leaf place.rest.length (progress.closeMany place.offset count).closeList (margin.indent 4).1
            (margin.indent 4).2.place) := adds_leaf _ (rest_indent_ne_nil left 4)
      rcases passed with ⟨_, _, laid⟩
      exact stays.trans laid.before.length_le
    have begins := inner.rest_indent shallow le
    have passed : (leaf place.rest.length (progress.closeMany place.offset count).closeList
        (margin.indent 4).1 (margin.indent 4).2.place).2.rest.length <
          (margin.indent 4).2.rest.length :=
      further_leaf _ (rest_indent_ne_nil left 4) (indented.trans suffix).length_le
    rw [begins] at passed
    omega

end Spaced

/-! ## Runs up to a paragraph -/

section Seam

variable {seam : Seam} {progress later : Progress} {place next : Place}

theorem readNext_turn (above : seam.Above place.rest)
    (stops : seam.old.length ≤ (readNext progress place).2.rest.length) :
    readNext progress (place.turn seam) =
        ((readNext progress place).1, (readNext progress place).2.turn seam) ∧
      seam.Ahead (readNext progress place).2.rest := by
  have le : place.rest.length ≤ max place.rest.length (place.turn seam).rest.length :=
    Nat.le_max_left _ _
  rw [← readBlock_eq_readNext le] at stops ⊢
  rw [← readBlock_eq_readNext (Nat.le_max_right place.rest.length _)]
  exact above.readBlock progress le stops

/-- Up to the paragraph the run of the reader is the same in both documents. -/
theorem Seam.reads (reads : Reads progress place later next) (ahead : seam.Ahead place.rest)
    (stops : seam.old.length ≤ next.rest.length) :
    Reads progress (place.turn seam) later (next.turn seam) ∧ seam.Ahead next.rest := by
  induction reads with
  | refl progress place => exact ⟨.refl _ _, ahead⟩
  | @step progress later place next left reads ih =>
    have reached := stops.trans reads.before.length_le
    rcases ahead.above_or_edge with above | at_edge
    · rcases readNext_turn above reached with ⟨step_eq, ahead⟩
      rcases ih ahead stops with ⟨turned, ended⟩
      refine ⟨.step ?_ ?_, ended⟩
      · rw [Place.rest_turn]
        intro empty
        have filled := seam.isEmpty_turn above.reaches
        rw [empty] at filled
        exact left (by simpa using filled.symm)
      · rw [step_eq]
        exact turned
    · have spaced : Spaced seam.old place.rest := by
        rw [at_edge]
        exact seam.atEdge
      exact absurd reached (Nat.not_le_of_lt (length_readNext_lt spaced))

end Seam

end Refill.Markdown
