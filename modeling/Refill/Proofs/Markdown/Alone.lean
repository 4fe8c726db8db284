import Refill.Proofs.Markdown.Prose
import Refill.Proofs.Markdown.Sole

/-!
# A text that stands alone

A text that is read as a sole paragraph stands alone (`alone_of_sole`): that it is one does not depend
on what stands before it or behind an empty line. So where a paragraph is found in a document, the
text is found as well if it takes the place of the paragraph (`Alone.finds`).
-/

namespace Refill

open Document

namespace Markdown

/-! ## Marks of items -/

section Item

variable {margin : Margin}

/-- Whether a blank, or the end of the line, follows the mark of an item. -/
theorem Margin.spaced_eq (owed : margin.owed = 0) :
    ((margin.indentBy 1).1 || (margin.indentBy 1).2.atLineEnd) =
      margin.rest.head?.all fun c => c == ' ' || c == '\t' || isLineEnd c := by
  have stops (offset column owed : Nat) (rest : List Char) :
      (indent.go 0 offset column owed rest).1 = 0 := by
    cases rest <;> simp [indent.go]
  rcases margin with ⟨⟨offset, rest⟩, column, owing⟩
  obtain rfl : owing = 0 := owed
  rcases rest with _ | ⟨c, rest⟩
  · rfl
  by_cases space : c = ' '
  · subst space
    simp [indentBy, indent, indent.go, stops, Margin.rest]
  by_cases tab : c = '\t'
  · subst tab
    have one : min (4 - column % 4) 1 = 1 := by omega
    simp [indentBy, indent, indent.go, one, stops, Margin.rest]
  · simp [indentBy, indent, indent.go, space, tab, Margin.rest, atLineEnd]

/-- An item opens where its mark stands, and a blank or the end of the line behind it. -/
theorem itemStart_eq_none_iff {outer : Nat} (owed : margin.owed = 0) :
    itemStart? outer margin = none ↔ ∀ mark, itemMark? margin.rest = some mark →
      (mark.number.isNone && (thematicBreak? margin.rest).isSome) = false →
      ((margin.rest.drop mark.length).head?.all
        fun c => c == ' ' || c == '\t' || isLineEnd c) = false := by
  unfold itemStart?
  rcases itemMark? margin.rest with _ | mark
  · simp
  have passedOwed : (margin.pass mark.length).owed = 0 := owed
  have spaced := Margin.spaced_eq passedOwed
  have behind : (margin.pass mark.length).rest = margin.rest.drop mark.length := rfl
  rw [behind] at spaced
  dsimp only
  rw [spaced]
  simp only [Option.some.injEq, forall_eq']
  split
  · next rule => simp [rule]
  · next rule =>
    have rule : (mark.number.isNone && (thematicBreak? margin.rest).isSome) = false :=
      Bool.eq_false_iff.mpr rule
    simp only [rule, true_implies]
    split
    · next opens =>
      rw [opens]
      split <;> simp
    · next closed => simpa using closed

/-- Where no item opens, none opens before an empty line. -/
theorem itemStart_append {tail : List Char} {outer other : Nat} {behind : Margin}
    (parts : Parts tail) (owed : margin.owed = 0) (otherOwed : behind.owed = 0)
    (rest_eq : behind.rest = margin.rest ++ tail) (closed : itemStart? outer margin = none) :
    itemStart? other behind = none := by
  rw [itemStart_eq_none_iff owed] at closed
  rw [itemStart_eq_none_iff otherOwed, rest_eq]
  intro mark mark_eq rule
  rw [← itemMark_line, parts.line_append, itemMark_line] at mark_eq
  have rule_eq : (thematicBreak? (margin.rest ++ tail)).isSome =
      (thematicBreak? margin.rest).isSome :=
    eq_of_line (f := fun rest => (thematicBreak? rest).isSome) isSome_thematicBreak_line
      parts.line_append
  rw [rule_eq] at rule
  have none := closed mark mark_eq rule
  rw [List.drop_append_of_le_length (itemMark_length_le mark_eq).2]
  generalize margin.rest.drop mark.length = inner at none ⊢
  rcases inner with _ | ⟨c, later⟩
  · cases none
  · exact none

end Item

/-! ## Columns that are owed -/

section Owed

variable {seam : Seam} {margin behind : Margin}

/-- Nothing is owed behind spaces. -/
theorem Spaced.owed_go {text rest : List Char} (spaced : Spaced text rest)
    (wanted offset column : Nat) : (Margin.indent.go wanted offset column 0 rest).2.owed = 0 := by
  rcases spaced with ⟨⟨spaces, blank, rfl⟩, c, back, rfl, solid⟩
  induction spaces generalizing wanted offset column with
  | nil =>
    have no_space : c ≠ ' ' := by
      rintro rfl
      cases solid
    have no_tab : c ≠ '\t' := by
      rintro rfl
      cases solid
    by_cases none : wanted = 0
    · simp [Margin.indent.go, none]
    · simp [Margin.indent.go, none, no_space, no_tab]
  | cons d spaces ih =>
    rw [List.forall_mem_cons] at blank
    obtain rfl : d = ' ' := blank.1
    by_cases none : wanted = 0
    · simp [Margin.indent.go, none]
    · simpa [Margin.indent.go, none] using ih (wanted - 1) (offset + 1) (column + 1) blank.2

theorem Spaced.owed_indent {text : List Char} (spaced : Spaced text margin.rest)
    (owed : margin.owed = 0) (wanted : Nat) : (margin.indent wanted).2.owed = 0 := by
  rcases margin with ⟨place, column, owing⟩
  obtain rfl : owing = 0 := owed
  have none := spaced.owed_go (wanted - min 0 wanted) place.offset column
  unfold Margin.indent
  dsimp only
  rw [Nat.zero_sub]
  exact none

theorem Seam.owed_enter? {container : Container} (spaced : Spaced seam.old margin.rest)
    (owed : margin.owed = 0) (enters : container.enter? margin = some behind) :
    behind.owed = 0 ∧ Spaced seam.old behind.rest := by
  have reaches := (Container.enter?_turn spaced.reaches container).2 behind enters
  refine ⟨?_, spaced.of_suffix (Container.before_enter? enters).rest_suffix reaches.length_le⟩
  have indented (columns : Nat)
      (enters : Container.enter?.indented? margin columns = some behind) : behind.owed = 0 := by
    unfold Container.enter?.indented? at enters
    dsimp only at enters
    split at enters
    · cases enters
      exact spaced.owed_indent owed columns
    · cases enters
  cases container with
  | quote =>
    have inner : Spaced seam.old (margin.indent 3).2.rest := spaced.indent 3
    have quoted : (margin.indent 3).2.quoteMark? = some behind := enters
    rw [Margin.quoteMark?] at quoted
    split at quoted
    · next starts =>
      have old_eq := inner.eq_of_head starts (by decide)
      rcases seam.starts with ⟨c, back, _, seam_eq, _, _, noQuote⟩
      rw [old_eq, seam_eq, List.head?_cons] at starts
      exact absurd (Option.some.inj starts) noQuote
    · cases quoted
  | list =>
    cases enters
    exact owed
  | item indent => exact indented indent enters
  | footnote => exact indented 4 enters

/-- Nothing is owed behind the containers in which the line of the paragraph goes on. -/
theorem Seam.owed_enter (containers : List Container) (spaced : Spaced seam.old margin.rest)
    (owed : margin.owed = 0) : (Container.enter containers margin).2.owed = 0 := by
  induction containers generalizing margin with
  | nil => exact owed
  | cons container inner ih =>
    rw [Container.enter]
    rcases enters : container.enter? margin with _ | behind
    · exact owed
    · rcases seam.owed_enter? spaced owed enters with ⟨owed, spaced⟩
      exact ih spaced owed

end Owed

/-! ## Texts that are paragraphs by themselves -/

/-- The text is read as a paragraph from its first character to its last. -/
structure Alone (text : List Char) : Prop where
  prose : Prose text
  noItem : itemStart? 0 (.start ⟨0, text⟩) = none
  noQuote : text.head? ≠ some '>'
  opens : OpensText [] text.length ⟨0, text⟩
  plain : (textBlock [] text.length 0 ⟨0, text⟩).underlined = false
  whole : (textBlock [] text.length 0 ⟨0, text⟩).next.rest = []

section Sole

variable {text : List Char}

theorem mem_paragraphs_readAll {span : Span} (mem : span ∈ (marks text).filterMap paragraphSpan?) :
    span ∈ (readAll .start ⟨0, text⟩).paragraphs := by
  rcases exists_gives_read text with ⟨given, gives, marks_eq⟩
  have closed : (readAll .start ⟨0, text⟩).frames = [] := frames_readAll _ _
  have parts_eq : (readAll .start ⟨0, text⟩).parts =
      (Document.read text).blocks.flatMap Block.parts := by
    rw [Progress.parts, closed]
    exact List.append_nil _
  rw [marks_eq] at mem
  rw [Progress.paragraphs, parts_eq]
  exact (paragraphs_sublist gives).subset mem

/-- A run that goes nowhere has no steps. -/
theorem Reads.eq_of_length {progress later : Progress} {place next : Place}
    (reads : Reads progress place later next) (le : place.rest.length ≤ next.rest.length) :
    later = progress ∧ next = place := by
  cases reads with
  | refl => exact ⟨rfl, rfl⟩
  | step left reads =>
    have first : (readNext progress place).2.rest.length < place.rest.length :=
      further_readBlock left (Nat.le_refl _)
    have rest := reads.before.length_le
    omega

theorem isWhite_of_visible {c : Char} (visible : Text.isBlank c = false) : isWhite c = false := by
  by_contra white
  rw [isBlank_of_isWhite (by simpa using white)] at visible
  cases visible

theorem spaced_of_tight (tight : Text.Tight text) : Spaced text text := by
  refine ⟨⟨[], by simp, rfl⟩, ?_⟩
  rcases List.exists_cons_of_ne_nil tight.nonempty with ⟨c, back, rfl⟩
  exact ⟨c, back, rfl, isWhite_of_visible (by simpa [Text.startsBlank] using tight.starts)⟩

/-- No item or quote opens where the content of a line begins. -/
theorem closed_of_content {fuel : Nat} {progress later : Progress} {margin : Margin}
    (shallow : (margin.indent 4).1 < 4)
    (content : openContainers (fuel + 1) progress margin = .content later margin) :
    itemStart? (margin.indent 4).1 (margin.indent 4).2 = none ∧
      (margin.indent 4).2.quoteMark? = none := by
  rw [openContainers_succ] at content
  have marked := marked_opening progress margin
  rcases opened : opening progress margin with _ | ⟨first, next⟩ | ⟨first, behind⟩
  · rw [opened] at marked
    cases marked with
    | deep deep => exact absurd shallow (Nat.not_lt_of_le deep)
    | plain _ noItem noQuote => exact ⟨noItem, noQuote⟩
  · rw [opened] at content
    cases content
  · -- behind a mark the content begins behind the margin
    rw [opened] at content
    have reached := length_openContainers_le fuel first behind
    have shorter := (margin.before_indent 4).length_le
    have further : behind.rest.length < (margin.indent 4).2.place.rest.length :=
      length_container_lt opened
    dsimp only [Opening.line] at content
    rw [content, LineStart.place] at reached
    omega

theorem closeMany_start (stop count : Nat) : Progress.start.closeMany stop count = .start := by
  induction count with
  | zero => rfl
  | succ count ih => exact ih

theorem prose_of_tight (tight : Text.Tight text) (noSlash : text.getLast? ≠ some '\\')
    (apart : ¬"]:".toList <:+: text) : Prose text := by
  refine ⟨?_, apart⟩
  rcases List.eq_nil_or_concat' text with rfl | ⟨front, c, rfl⟩
  · exact absurd rfl tight.nonempty
  · have visible : Text.isBlank c = false := by simpa [Text.endsBlank] using tight.ends
    exact ⟨front, c, rfl, isWhite_of_visible visible, by simpa using noSlash⟩

theorem indent_start_of_tight (tight : Text.Tight text) (wanted : Nat) :
    (Margin.start ⟨0, text⟩).indent wanted = (0, .start ⟨0, text⟩) := by
  have spaced : Spaced text (Place.mk 0 text).rest := spaced_of_tight tight
  rcases spaced.solid with ⟨c, back, text_eq, solid⟩
  have no_space : c ≠ ' ' := by
    rintro rfl
    cases solid
  have no_tab : c ≠ '\t' := by
    rintro rfl
    cases solid
  simp [Margin.indent, Margin.start, Margin.indent.go, text_eq, no_space, no_tab]

/-- A paragraph that is all of the text begins where the text does, outside of all containers. -/
theorem finds_of_whole (tight : Text.Tight text)
    (mem : ⟨0, text.length⟩ ∈ (readAll .start ⟨0, text⟩).paragraphs) :
    Finds .start ⟨0, text⟩ .start (.start ⟨0, text⟩) ∧
      (textBlock [] text.length 0 ⟨0, text⟩).next.offset = text.length := by
  have fresh : ⟨0, text.length⟩ ∉ Progress.start.paragraphs := by
    simp [Progress.paragraphs, Progress.parts, Progress.start]
  rcases exists_paragraph fresh mem (List.length_pos_iff.mpr tight.nonempty) with
    ⟨later, next, opened, margin, reads, finds, span_eq, reached⟩
  dsimp only at reached
  obtain ⟨rfl, rfl⟩ := reads.eq_of_length (by dsimp only; omega)
  have start_eq : (margin.indent 4).2.place.offset = 0 := congrArg Span.start span_eq
  have before : Place.Before ⟨0, text⟩ (margin.indent 4).2.place := by
    have passed := adds_lineStart text.length .start ⟨0, text⟩
    rw [finds.line_eq] at passed
    rcases passed with ⟨_, _, laid⟩
    exact laid.before.trans (margin.before_indent 4)
  have rest_eq : (margin.indent 4).2.place.rest = text := by
    rw [before.rest_eq, start_eq]
    rfl
  have stays : text.length ≤ (lineStart text.length .start ⟨0, text⟩).place.rest.length := by
    rw [finds.line_eq]
    have shorter := (margin.before_indent 4).length_le
    rw [rest_eq] at shorter
    exact shorter
  have spaced : Spaced text (Place.mk 0 text).rest := spaced_of_tight tight
  rcases lineStart_of_spaced spaced stays with ⟨count, line_eq, _⟩
  rw [finds.line_eq] at line_eq
  obtain ⟨opened_eq, margin_eq⟩ := LineStart.content.inj line_eq
  rw [closeMany_start] at opened_eq
  have margin_eq : margin = Margin.start ⟨0, text⟩ := margin_eq
  subst opened_eq margin_eq
  have stop_eq : (textBlock [] text.length 0 ((Margin.start ⟨0, text⟩).indent 4).2.place).next.offset =
      text.length := congrArg Span.stop span_eq
  rw [indent_start_of_tight tight] at stop_eq
  exact ⟨finds, stop_eq⟩

/-- A text that is read as a sole paragraph is one by itself, if no colon follows a label in it. -/
theorem alone_of_sole (tight : Text.Tight text) (sole : isSoleParagraph text)
    (noSlash : text.getLast? ≠ some '\\') (apart : ¬"]:".toList <:+: text) : Alone text := by
  have prose := prose_of_tight tight noSlash apart
  have links : (Document.read text).definitions.links = [] := by
    by_contra some_link
    exact apart (colon_of_links sole some_link)
  have mem : ⟨0, text.length⟩ ∈ (readAll .start ⟨0, text⟩).paragraphs := by
    apply mem_paragraphs_readAll
    rw [(paragraphs_eq_iff tight sole).mpr links]
    exact List.mem_singleton_self _
  rcases finds_of_whole tight mem with ⟨finds, stop_eq⟩
  have inner_eq := indent_start_of_tight tight 4
  have content : openContainers text.length .start (.start ⟨0, text⟩) =
      .content .start (.start ⟨0, text⟩) := finds.line_eq
  obtain ⟨fuel, size⟩ := Nat.exists_eq_add_one.mpr (List.length_pos_iff.mpr tight.nonempty)
  rw [size] at content
  rcases closed_of_content (by rw [inner_eq]; exact Nat.succ_pos 3) content with ⟨noItem, noMark⟩
  have opens := finds.opens
  have plain := finds.plain
  rw [inner_eq] at noItem noMark opens plain
  have noQuote : text.head? ≠ some '>' := by
    intro quote
    have quote : (Margin.start ⟨0, text⟩).rest.head? = some '>' := quote
    dsimp only at noMark
    rw [Margin.quoteMark?, if_pos quote] at noMark
    cases noMark
  refine ⟨prose, noItem, noQuote, opens, plain, ?_⟩
  have rest_eq := (before_textBlock [] text.length 0 ⟨0, text⟩).rest_eq
  rw [stop_eq] at rest_eq
  have ended : text.drop text.length = [] := List.drop_length
  exact rest_eq.trans ended

end Sole

/-! ## Paragraphs that change -/

section Found

variable {seam : Seam} {text tail : List Char} {progress opened : Progress} {place : Place}
  {margin : Margin}

theorem OpensText.shift {containers : List Container} {fuel : Nat} (d : Nat)
    (opens : OpensText containers fuel place) : OpensText containers fuel (place.shift d) where
  noTerminator := opens.noTerminator
  noElement := opens.noElement
  noRule := opens.noRule
  noHeading := opens.noHeading
  noFence := opens.noFence
  noDefinition := by rw [definition_shift, opens.noDefinition, Option.map_none]
  noTable := by rw [Place.rest_shift, tableBody_shift, opens.noTable, Option.map_none]

/-- Where no mark of a container stands, none opens. -/
theorem openContainers_content {fuel : Nat}
    (unmarked : footnoteMark? (margin.indent 4).2.rest = none)
    (noItem : itemStart? (margin.indent 4).1 (margin.indent 4).2 = none)
    (noQuote : (margin.indent 4).2.quoteMark? = none) :
    openContainers fuel progress margin = .content progress margin := by
  cases fuel with
  | zero => rfl
  | succ fuel =>
    have closed : opening progress margin = .nothing := by
      unfold opening
      dsimp only
      rw [unmarked, noItem, noQuote]
      split <;> rfl
    rw [openContainers_succ, closed, Opening.line]

theorem Seam.turn_old (seam : Seam) : seam.turn seam.old = seam.new :=
  seam.turn_append []

theorem Spaced.turn {rest : List Char} (spaced : Spaced seam.old rest) :
    Spaced seam.new (seam.turn rest) := by
  rcases spaced.exists_spaces with ⟨spaces, blank, rfl⟩
  rcases seam.starts with ⟨c, _, behind, _, new_eq, solid, _⟩
  exact ⟨⟨spaces, blank, seam.turn_append spaces⟩, c, behind, new_eq, solid⟩

/-- The block of text that a text standing alone becomes behind so many characters. -/
def textAt (offset : Nat) (text tail : List Char) : TextBlock :=
  { (textBlock [] text.length 0 ⟨0, text⟩).shift offset with
    next := ⟨offset + (text.length + min 1 tail.length), tail.drop 1⟩ }

theorem Alone.textBlock_eq (alone : Alone text) (parts : Parts tail) {fuel : Nat}
    (enough : text.length ≤ fuel) (offset : Nat) :
    textBlock [] fuel 0 ⟨offset, text ++ tail⟩ = textAt offset text tail := by
  have moved : textBlock [] fuel 0 ⟨offset, text⟩ =
      (textBlock [] text.length 0 ⟨0, text⟩).shift offset := by
    rw [← textBlock_shift offset [] text.length (Nat.le_refl 0)]
    have same : (Place.mk 0 text).shift offset = ⟨offset, text⟩ := by simp [Place.shift]
    rw [same]
    exact textBlock_fuel alone.prose.ne_nil enough (Nat.le_refl _)
  have prose : Prose (Place.mk offset text).rest := alone.prose
  have plain : (textBlock [] fuel 0 ⟨offset, text⟩).underlined = false := by
    rw [moved]
    exact alone.plain
  have whole : (textBlock [] fuel 0 ⟨offset, text⟩).next.rest = [] := by
    rw [moved]
    exact alone.whole
  have appended := prose.textBlock_append parts enough plain whole
  rw [moved] at appended
  exact appended

/-- Where a paragraph outside of all containers is found, a text that stands alone is found that takes
its place. -/
theorem Alone.finds (alone : Alone text) (parts : Parts tail) (new_eq : seam.new = text ++ tail)
    (finds : Finds progress place opened margin) (edge : Spaced seam.old place.rest)
    (start_eq : (margin.indent 4).2.place.rest = seam.old)
    (closed : opened.closeList.containers = []) :
    Finds progress (place.turn seam) opened (margin.turn seam) ∧
      foundText (place.turn seam) opened (margin.turn seam) =
        textAt (margin.indent 4).2.place.offset text tail := by
  have stays : seam.old.length ≤
      (lineStart place.rest.length progress place).place.rest.length := by
    have shorter := (margin.before_indent 4).length_le
    rw [start_eq] at shorter
    rw [finds.line_eq]
    exact shorter
  rcases lineStart_of_spaced edge stays with ⟨count, line_eq, count_eq, inner⟩
  rw [finds.line_eq] at line_eq
  obtain ⟨opened_eq, margin_eq⟩ := LineStart.content.inj line_eq
  have owed : margin.owed = 0 := by
    rw [margin_eq]
    exact seam.owed_enter progress.containers edge rfl
  rw [← margin_eq] at inner
  have indented := margin.indent_turn inner.reaches 4
  have rest_eq : ((margin.indent 4).2.turn seam).rest = text ++ tail := by
    rw [Margin.rest_turn, Margin.rest, start_eq, seam.turn_old, new_eq]
  have unmarked : footnoteMark? ((margin.turn seam).indent 4).2.rest = none := by
    rw [indented, rest_eq]
    exact alone.prose.footnoteMark parts
  have noItem : itemStart? ((margin.turn seam).indent 4).1 ((margin.turn seam).indent 4).2 = none := by
    rw [indented]
    have begun : (Margin.start ⟨0, text⟩).owed = 0 := rfl
    exact itemStart_append parts begun (inner.owed_indent owed 4) rest_eq alone.noItem
  have noQuote : ((margin.turn seam).indent 4).2.quoteMark? = none := by
    rcases seam.starts with ⟨c, _, behind, _, seam_eq, _, noQuote⟩
    rw [new_eq] at seam_eq
    rw [indented, Margin.quoteMark?, rest_eq, seam_eq, List.head?_cons, if_neg]
    exact fun quote => noQuote (Option.some.inj quote)
  have place_eq : ((margin.turn seam).indent 4).2.place =
      ⟨(margin.indent 4).2.place.offset, text ++ tail⟩ := by
    rw [indented, ← rest_eq]
    rfl
  have opens_alone : OpensText [] text.length ⟨(margin.indent 4).2.place.offset, text⟩ := by
    have shifted := alone.opens.shift (margin.indent 4).2.place.offset
    rwa [Place.shift, Nat.zero_add] at shifted
  have enough : text.length ≤ (place.turn seam).rest.length := by
    have reached := (edge.turn).reaches.length_le
    rw [new_eq, List.length_append] at reached
    exact (Nat.le_add_right _ _).trans reached
  have block_eq : textBlock opened.closeList.containers (place.turn seam).rest.length 0
      ((margin.turn seam).indent 4).2.place =
        textAt (margin.indent 4).2.place.offset text tail := by
    rw [closed, place_eq]
    exact alone.textBlock_eq parts enough _
  refine ⟨⟨?_, inner.turn.blankLine, ?_, ?_, ?_⟩, block_eq⟩
  · have reaches : seam.old <:+ (Margin.start place).rest := edge.reaches
    have entered := (Container.enter_turn progress.containers reaches).1
    rw [← Margin.start_turn, ← margin_eq] at entered
    unfold lineStart
    rw [entered]
    dsimp only
    rw [Place.offset_turn, ← count_eq, ← opened_eq]
    exact openContainers_content unmarked noItem noQuote
  · rw [indented]
    exact finds.shallow
  · rw [closed, place_eq]
    exact alone.prose.opensText_append parts opens_alone
  · rw [block_eq]
    exact alone.plain

end Found

end Markdown

end Refill
