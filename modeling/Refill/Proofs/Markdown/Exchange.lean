import Refill.Proofs.Markdown.Alone
import Refill.Proofs.Markdown.Resume

/-!
# A paragraph in the place of another

Behind a paragraph outside of all containers, and an empty line, a document is read as if it began
there (`readAll_behind`). So where a paragraph has empty lines before and behind it, and a text that
stands alone takes its place, all else is read as before, at other offsets (`exists_exchange`).
-/

namespace Refill

open Document

namespace Markdown

/-! ## Behind a paragraph -/

/-- No container is open, and what has been found lies before the offset. -/
structure Progress.Complete (progress : Progress) (high : Nat) : Prop where
  frames : progress.frames = []
  emptyItem : progress.emptyItem = none
  afterBlank : progress.afterBlank = false
  holders : ∀ span ∈ progress.holders, span.stop ≤ high
  paragraphs : ∀ span ∈ progress.paragraphs, span.stop ≤ high
  breaks : ∀ block, .leaf block ∈ progress.parts → ∀ line ∈ block.lines,
    ∀ offset, line.breakAt = some offset → offset < high

/-- The lines of the blocks break between the places. -/
theorem Laid.breaks {place next : Place} {parts : List Part} (laid : Laid place next parts)
    {block : Block} (mem : .leaf block ∈ parts) {line : TextLine} (lineMem : line ∈ block.lines)
    {offset : Nat} (breaks : line.breakAt = some offset) :
    place.offset ≤ offset ∧ offset < next.offset := by
  induction laid with
  | nil => cases mem
  | opens opened _ ih =>
    rcases List.mem_cons.mp mem with rfl | mem
    · rcases opened with opened | opened <;> cases opened
    · exact ih mem
  | leaf before stands later ih =>
    have first := before.offset_le
    rcases List.mem_cons.mp mem with same | mem
    · cases same
      have bounds := stands.breaks line lineMem offset breaks
      have rest := later.before.offset_le
      omega
    · have bounds := ih mem
      have inside := stands.before.offset_le
      omega

section Blank

variable {progress : Progress} {place : Place} {margin : Margin}

theorem isBlankLine_append {blanks rest : List Char} (gaps : ∀ c ∈ blanks, isGap c) :
    isBlankLine (blanks ++ rest) = isBlankLine rest := by
  rw [isBlankLine_eq, isBlankLine_eq, List.dropWhile_append_of_pos gaps]

/-- No container opens in a blank line. -/
theorem openContainers_blank {fuel : Nat} (blank : isBlankLine margin.rest) :
    openContainers fuel progress margin = .content progress margin := by
  rcases margin.exists_indentation 4 with ⟨passed, blanks, rest_eq, _⟩
  have gaps : ∀ c ∈ passed, isGap c := by
    intro c mem
    rcases blanks c mem with rfl | rfl <;> rfl
  rw [Margin.rest, rest_eq, isBlankLine_append gaps] at blank
  -- the marks begin with characters that are no blanks
  have starts {c : Char} (solid : isWhite c = false) : (margin.indent 4).2.rest.head? ≠ some c := by
    intro first
    have filled : isBlankLine (margin.indent 4).2.place.rest = false :=
      isBlankLine_of_head first solid
    rw [blank] at filled
    cases filled
  apply openContainers_content
  · unfold footnoteMark?
    split
    · next opens =>
      rcases List.isPrefixOf_iff_prefix.mp opens with ⟨more, rest_eq⟩
      refine absurd ?_ (starts (c := '[') (by decide))
      rw [← rest_eq]
      rfl
    · rfl
  · unfold itemStart?
    rcases found : itemMark? (margin.indent 4).2.rest with _ | mark
    · rfl
    · rcases itemMark_starts found with ⟨c, first, solid⟩
      exact absurd first (starts solid)
  · rw [Margin.quoteMark?, if_neg (starts (by decide))]

/-- Outside of all containers a step passes a blank line. -/
theorem readNext_blank {length : Nat} (closed : progress.frames = [])
    (blank : blankLine? place.rest = some length) :
    readNext progress place = (progress.blankLine, place.advance length) := by
  have containers_eq : progress.containers = [] := by simp [Progress.containers, closed]
  have line_eq : lineStart place.rest.length progress place = .content progress (.start place) := by
    have isBlank : isBlankLine (Margin.start place).rest := Option.isSome_of_eq_some blank
    simp only [lineStart, containers_eq, closed, Container.enter, List.length_nil, Nat.sub_self,
      Progress.closeMany]
    exact openContainers_blank isBlank
  rw [readNext, readBlock_eq, line_eq]
  dsimp only
  rw [show (Margin.start place).rest = place.rest from rfl, blank]
  rfl

end Blank

section Resume

variable {progress : Progress} {high offset : Nat} {back : List Char}

theorem Progress.Complete.resume_start (complete : progress.Complete high) (d : Nat) :
    progress.resume d .start = progress := by
  rcases complete with ⟨frames, emptyItem, afterBlank, _⟩
  rcases progress with ⟨blocks, _, _, _, links, footnotes⟩
  cases frames
  cases emptyItem
  cases afterBlank
  rfl

/-- What stands behind a blank line is read as if the document began before it. -/
theorem readAll_behind (complete : progress.Complete high) (two : 2 ≤ offset)
    (blank : isBlankLine back) :
    readAll progress ⟨offset, back⟩ =
      progress.resume (offset - 2) (readAll .start ⟨2, back⟩) := by
  by_cases ended : back = []
  · rw [readAll_ended ended, readAll_ended ended, complete.frames]
    exact (complete.resume_start _).symm
  · rcases blank_eq : blankLine? back with _ | length
    · rw [isBlankLine, blank_eq] at blank
      cases blank
    have next_eq : blankLine? (Place.mk 2 back).rest = some length := blank_eq
    have left : (Place.mk 2 back).rest ≠ [] := ended
    have further : 0 < length := (skips_blankLine next_eq).2 ended
    have moved : (Place.mk offset back).advance length =
        ((Place.mk 2 back).advance length).shift (offset - 2) := by
      simp only [Place.advance, Place.shift, Place.mk.injEq, and_true]
      omega
    have begun : progress.blankLine = progress.resume (offset - 2) Progress.start.blankLine := by
      rw [← Progress.blankLine_resume, complete.resume_start]
    rw [readAll_step ended, readAll_step left, readNext_blank complete.frames blank_eq,
      readNext_blank rfl next_eq, moved, begun]
    exact readBlocks_resume progress Progress.start.blankLine _ (by dsimp only [Place.advance]; omega)

end Resume

/-! ## Paragraphs outside of all containers -/

section Exchange

variable {seam : Seam} {offset stop : Nat} {front text tail : List Char}

theorem apart_start : Progress.start.Apart := List.IsChain.nil

theorem ended_start (high : Nat) : Ended high .start := by
  constructor <;> simp [Progress.start, Progress.openings, Progress.holders]

/-- Where a paragraph outside of all containers is found, everything before it has been read. -/
theorem Finds.complete {progress opened : Progress} {place next : Place} {margin : Margin}
    (reads : Reads .start place progress next) (finds : Finds progress next opened margin)
    (closed : opened.closeList.frames = []) :
    opened.closeList.Complete (margin.indent 4).2.place.offset := by
  have change := reads.change apart_start
  have ended : Ended next.offset progress := Ended.of_change change (ended_start _)
  rcases finds.ended (apart_start.of_change change) ended with ⟨_, openedEnded⟩
  have last := Ended.of_change
    (change_closeList 0 (margin.indent 4).2.place.offset opened) openedEnded
  have line : Adds progress next (opened, margin.place) := by
    have adds := adds_lineStart next.rest.length progress next
    rw [finds.line_eq] at adds
    exact adds
  have listed : Adds opened margin.place (opened.closeList, (margin.indent 4).2.place) :=
    .nothing opened.parts_closeList (margin.before_indent 4)
  rcases (reads.adds.trans line).trans listed with ⟨added, parts_eq, laid⟩
  have parts_eq : opened.closeList.parts = added := parts_eq
  refine ⟨closed, emptyItem_closeList opened, afterBlank_closeList opened, last.closed_le, ?_, ?_⟩
  · intro span mem
    rw [Progress.paragraphs, parts_eq] at mem
    exact laid.stop_le span mem
  · intro block mem line lineMem offset breaks
    rw [parts_eq] at mem
    exact (laid.breaks mem lineMem breaks).2

/-- The line in which the paragraph at the seam is found leads to it over spaces. -/
theorem Finds.spaced {progress opened : Progress} {place : Place} {margin : Margin}
    (finds : Finds progress place opened margin) (ahead : seam.Ahead place.rest)
    (start_eq : (margin.indent 4).2.place.rest = seam.old) : Spaced seam.old place.rest := by
  rcases ahead.above_or_edge with above | at_edge
  · have marginAbove := (above.lineStart place.rest.length progress).2
    rw [finds.line_eq] at marginAbove
    have innerAbove : seam.Above (margin.indent 4).2.place.rest :=
      (margin.sameLine_indent 4).above marginAbove
    have longer := innerAbove.longer
    rw [start_eq] at longer
    exact absurd longer (Nat.not_lt.mpr seam.old_le_edge)
  · rw [at_edge]
    exact seam.atEdge

theorem next_foundText (place : Place) (opened : Progress) (margin : Margin) :
    (foundText place opened margin).next = ⟨(foundSpan place opened margin).stop,
      (margin.indent 4).2.place.rest.drop ((foundSpan place opened margin).stop -
        (foundSpan place opened margin).start)⟩ := by
  have passed : (margin.indent 4).2.place.Before (foundText place opened margin).next :=
    before_textBlock _ _ _ _
  have rest_eq := passed.rest_eq
  rw [foundSpan, ← rest_eq]

/-- A paragraph outside of all containers may be exchanged for a text that stands alone: what is read
before it stays the same. -/
theorem exists_exchange (ahead : seam.Ahead (front ++ seam.old)) (alone : Alone text)
    (parts : Parts tail) (new_eq : seam.new = text ++ tail)
    (further : offset + front.length < stop)
    (mem : ⟨offset + front.length, stop⟩ ∈
      (readAll .start ⟨offset, front ++ seam.old⟩).paragraphs)
    (free : ∀ outer ∈ (readAll .start ⟨offset, front ++ seam.old⟩).holders,
      outer.encloses ⟨offset + front.length, stop⟩ = false) :
    ∃ (base : Progress) (lines : List TextLine), base.Complete (offset + front.length) ∧
      (∀ line ∈ lines, ∀ place, line.breakAt = some place →
        offset + front.length ≤ place ∧ place < stop) ∧
      readAll .start ⟨offset, front ++ seam.old⟩ =
        readAll (base.add (.paragraph ⟨offset + front.length, stop⟩ lines))
          ⟨stop, seam.old.drop (stop - (offset + front.length))⟩ ∧
      readAll .start ⟨offset, front ++ seam.new⟩ =
        readAll (base.add (.paragraph
            ⟨offset + front.length, (textAt (offset + front.length) text tail).next.offset⟩
            (textAt (offset + front.length) text tail).lines))
          (textAt (offset + front.length) text tail).next := by
  have fresh : ⟨offset + front.length, stop⟩ ∉ Progress.start.paragraphs := by
    simp [Progress.paragraphs, Progress.parts, Progress.start]
  rcases exists_paragraph fresh mem further with
    ⟨later, next, opened, margin, reads, finds, span_eq, reached⟩
  have start_offset : (margin.indent 4).2.place.offset = offset + front.length :=
    congrArg Span.start span_eq
  have stays : seam.old.length ≤ next.rest.length := by
    dsimp only at reached
    rw [List.length_append] at reached
    omega
  rcases seam.reads reads ahead stays with ⟨turned, nextAhead⟩
  have left : next.rest ≠ [] := Seam.Ahead.nonempty nextAhead.reaches
  have inner : Place.Before ⟨offset, front ++ seam.old⟩ (margin.indent 4).2.place := by
    rcases adds_lineStart next.rest.length later next with ⟨_, _, laid⟩
    have before := laid.before
    rw [finds.line_eq] at before
    exact (reads.before.trans before).trans (margin.before_indent 4)
  have start_eq : (margin.indent 4).2.place.rest = seam.old := by
    rw [inner.rest_eq, start_offset]
    simp
  have edge := finds.spaced nextAhead start_eq
  have closed : opened.closeList.frames = [] := by
    apply frames_of_free apart_start (ended_start _) reads finds left
    rw [span_eq]
    exact free
  have containers_eq : opened.closeList.containers = [] := by simp [Progress.containers, closed]
  rcases alone.finds parts new_eq finds edge start_eq containers_eq with ⟨turnedFinds, text_eq⟩
  have complete := finds.complete reads closed
  rw [start_offset] at complete text_eq
  have text_next := next_foundText next opened margin
  rw [span_eq, start_eq] at text_next
  refine ⟨opened.closeList, (foundText next opened margin).lines, complete, ?_, ?_, ?_⟩
  · intro line lineMem place breaks
    have bounds := breakAt_textBlock (Nat.zero_le _) line lineMem place breaks
    have stop_eq : (foundText next opened margin).next.offset = stop := congrArg Span.stop span_eq
    rw [← start_offset, ← stop_eq]
    exact bounds
  · rw [reads.readAll_eq, readAll_step left, finds.readNext_eq, span_eq, text_next]
  · have turned_eq : (Place.mk offset (front ++ seam.old)).turn seam =
        ⟨offset, front ++ seam.new⟩ := by
      rw [Place.turn, seam.turn_append]
    have turnedLeft : (next.turn seam).rest ≠ [] :=
      List.ne_nil_of_length_pos
        (Nat.lt_of_lt_of_le edge.turn.positive edge.turn.reaches.length_le)
    have turned_start : ((margin.turn seam).indent 4).2.place.offset = offset + front.length := by
      have reaches : seam.old <:+ margin.rest := by
        rw [← start_eq]
        exact (margin.before_indent 4).rest_suffix
      rw [Margin.indent_turn reaches]
      exact start_offset
    rw [turned_eq] at turned
    rw [turned.readAll_eq, readAll_step turnedLeft, turnedFinds.readNext_eq, foundSpan, text_eq,
      turned_start]

end Exchange

end Markdown

end Refill
