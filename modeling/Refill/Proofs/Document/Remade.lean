import Refill.Proofs.Document.Around
import Refill.Proofs.Document.SetOff

/-!
# Documents remade

If the paragraphs that change are set off, and each becomes a text that is a sole paragraph by itself,
then the new document is read as the old one is (`remade_readAll`): with the same kinds of blocks, with
the paragraphs that the pieces have become, and with the same definitions. Only lines that break in
what a paragraph has become are new.
-/

namespace Refill.Document

open Text Markdown

/-! ## What becomes of the marks -/

/-- The marks without the broken lines, wherever they stand. -/
def kinds (marks : List Mark) : List Mark :=
  (marks.filter fun mark => (breakOffset? mark).isNone).map (Mark.move fun _ => 0)

/-- The breaks of a text that is read by itself. -/
def breaksIn (definitions : Definitions) (text : List Char) : List Nat :=
  hardBreaks definitions (textBlock [] text.length 0 ⟨0, text⟩).lines

/-- The breaks of what a piece that changes has become. -/
def newBreaks (definitions : Definitions) (piece : Piece) : List Nat :=
  if piece.after = piece.before then [] else breaksIn definitions (trimEnd piece.after)

/-- The pieces behind the offset have become paragraphs of the new document, and what is told of it
otherwise has not changed. A paragraph in which lines break now is no longer free. -/
structure Remade (definitions : Definitions) (earlier : List Span) (offset : Nat)
    (pieces : List Piece) (old new : List Mark) : Prop where
  kinds : kinds new = kinds old
  spans : new.filterMap paragraphSpan? = earlier ++ spansIn Piece.after offset pieces
  kept : ∀ span ∈ earlier, isFreeIn new span = isFreeIn old span
  free : (spansIn Piece.after offset pieces).map (isFreeIn new) =
    List.zipWith (· && ·) ((spansIn Piece.before offset pieces).map (isFreeIn old))
      (pieces.map fun piece => (newBreaks definitions piece).isEmpty)
  breaks : (new.filterMap breakOffset?).length =
    (old.filterMap breakOffset?).length + (pieces.flatMap (newBreaks definitions)).length

/-- The paragraphs at the pieces that change are free in the marks. -/
def FreeWhereChanged (marks : List Mark) (offset : Nat) (pieces : List Piece) : Prop :=
  ∀ entry ∈ pieces.zip ((spansIn Piece.before offset pieces).map (isFreeIn marks)),
    entry.1.after ≠ entry.1.before → entry.2 = true

/-- What a reader has found is remade, and the same labels are defined. -/
structure RemadeReading (definitions : Definitions) (earlier : List Span) (offset : Nat)
    (pieces : List Piece) (old new : Progress) : Prop where
  remade : Remade definitions earlier offset pieces (progressMarks definitions old)
    (progressMarks definitions new)
  links : new.links = old.links
  footnotes : new.footnotes = old.footnotes

section Kinds

variable {front back : List Mark}

theorem kinds_append : kinds (front ++ back) = kinds front ++ kinds back := by
  rw [kinds, List.filter_append, List.map_append]
  rfl

theorem kinds_move (change : Nat → Nat) (marks : List Mark) :
    kinds (marks.map (Mark.move change)) = kinds marks := by
  have breaks : (fun mark => (breakOffset? mark).isNone) ∘ Mark.move change =
      fun mark => (breakOffset? mark).isNone := by
    funext mark
    cases mark <;> rfl
  have moves : (Mark.move fun _ => 0) ∘ Mark.move change = Mark.move fun _ => 0 := by
    funext mark
    cases mark <;> rfl
  rw [kinds, List.filter_map, List.map_map, breaks, moves, kinds]

theorem kinds_paragraphMarks (span : Span) (breaks : List Nat) :
    kinds (paragraphMarks span breaks) = [.paragraph ⟨0, 0⟩] := by
  have none : (breaks.map Mark.hardBreak).filter (fun mark => (breakOffset? mark).isNone) = [] := by
    simp [breakOffset?]
  rw [kinds, paragraphMarks, List.filter_cons_of_pos rfl, none]
  rfl

theorem kinds_aroundMarks (span : Span) (breaks : List Nat) :
    kinds (aroundMarks front span breaks back) =
      kinds front ++ .paragraph ⟨0, 0⟩ :: kinds back := by
  rw [aroundMarks, kinds_append, kinds_append, kinds_paragraphMarks, kinds_move]
  rfl

theorem filterMap_paragraphMarks (span : Span) (breaks : List Nat) :
    (paragraphMarks span breaks).filterMap paragraphSpan? = [span] := by
  rw [paragraphMarks, List.filterMap_cons, filterMap_hardBreaks]
  rfl

theorem spans_aroundMarks (span : Span) (breaks : List Nat) :
    (aroundMarks front span breaks back).filterMap paragraphSpan? =
      front.filterMap paragraphSpan? ++
        span :: (back.filterMap paragraphSpan?).map (Span.move (· + (span.stop - 2))) := by
  rw [aroundMarks, List.filterMap_append, List.filterMap_append, filterMap_paragraphMarks,
    filterMap_paragraphSpan_move]
  rfl

theorem breaks_aroundMarks (span : Span) (breaks : List Nat) :
    ((aroundMarks front span breaks back).filterMap breakOffset?).length =
      (front.filterMap breakOffset?).length +
        (breaks.length + (back.filterMap breakOffset?).length) := by
  have moves := filterMap_move (f := breakOffset?) (g := (· + (span.stop - 2)))
    (· + (span.stop - 2)) back fun mark => by cases mark <;> rfl
  have own : (breaks.map Mark.hardBreak).filterMap breakOffset? = breaks := by
    rw [List.filterMap_map]
    exact List.filterMap_some
  rw [aroundMarks, List.filterMap_append, List.filterMap_append, moves, paragraphMarks,
    List.filterMap_cons_none rfl, own]
  simp

end Kinds

section Step

variable {definitions : Definitions} {earlier : List Span} {offset : Nat} {piece : Piece}
  {pieces : List Piece}

/-- A paragraph that has not changed belongs to the pieces as well. -/
theorem Remade.of_same {old new : List Mark} (same : piece.after = piece.before)
    (remade : Remade definitions
      (earlier ++
        [⟨offset + piece.gap.length, offset + piece.gap.length + piece.before.length⟩])
      (offset + piece.gap.length + piece.before.length) pieces old new) :
    Remade definitions earlier offset (piece :: pieces) old new where
  kinds := remade.kinds
  spans := by
    rw [remade.spans, spansIn, same]
    simp
  kept := fun span mem => remade.kept span (List.mem_append_left _ mem)
  free := by
    have kept := remade.kept ⟨offset + piece.gap.length,
      offset + piece.gap.length + piece.before.length⟩ (by simp)
    rw [spansIn, spansIn, same]
    simp [kept, remade.free, newBreaks, same]
  breaks := by
    rw [remade.breaks]
    simp [newBreaks, same]

section Around

variable {front back : List Mark} {span : Span} {breaks : List Nat}

theorem Around.two_le (around : Around front span breaks back) : 2 ≤ span.stop := by
  rcases around.wide with wide | ⟨_, wide⟩ <;> omega

theorem Around.map_isFreeIn_behind (around : Around front span breaks back)
    (text : Piece → List Char) (pieces : List Piece) :
    (spansIn text span.stop pieces).map (isFreeIn (aroundMarks front span breaks back)) =
      (spansIn text 2 pieces).map (isFreeIn back) := by
  rw [spansIn_of_le around.two_le, List.map_map]
  refine List.map_congr_left fun other mem => ?_
  rcases le_of_mem_spansIn mem with ⟨two, le⟩
  exact Bool.eq_iff_iff.mpr (around.isFreeIn_behind two le)

end Around

/-- Where a paragraph changes that may be refilled, and what is behind it is remade, the paragraph belongs
to the pieces as well. -/
theorem Remade.around {front back newBack : List Mark} {span newSpan : Span} {breaks : List Nat}
    (around : Around front span [] back) (newAround : Around front newSpan breaks newBack)
    (span_eq : span = ⟨offset + piece.gap.length,
      offset + piece.gap.length + piece.before.length⟩)
    (newSpan_eq : newSpan = ⟨offset + piece.gap.length,
      offset + piece.gap.length + piece.after.length⟩)
    (length_eq : breaks.length = (newBreaks definitions piece).length)
    (early : ∀ other ∈ front.filterMap paragraphSpan?,
      other.start ≤ other.stop ∧ other.stop ≤ span.start)
    (remade : Remade definitions [] 2 pieces back newBack) :
    Remade definitions (front.filterMap paragraphSpan?) offset (piece :: pieces)
      (aroundMarks front span [] back) (aroundMarks front newSpan breaks newBack) where
  kinds := by rw [kinds_aroundMarks, kinds_aroundMarks, remade.kinds]
  spans := by
    rw [spans_aroundMarks, remade.spans, List.nil_append, ← spansIn_of_le newAround.two_le, spansIn,
      newSpan_eq]
  kept := by
    intro other mem
    have bounds := early other mem
    have newBefore : other.stop ≤ newSpan.start := by
      rw [newSpan_eq]
      rw [span_eq] at bounds
      exact bounds.2
    rw [Bool.eq_iff_iff, around.isFreeIn_before bounds.1 bounds.2,
      newAround.isFreeIn_before bounds.1 newBefore]
  free := by
    have old_free : isFreeIn (aroundMarks front span [] back) span = true :=
      around.isFreeIn_span.mpr rfl
    have new_free : isFreeIn (aroundMarks front newSpan breaks newBack) newSpan =
        (newBreaks definitions piece).isEmpty := by
      rw [Bool.eq_iff_iff, newAround.isFreeIn_span, List.isEmpty_iff, ← List.length_eq_zero_iff,
        ← List.length_eq_zero_iff, length_eq]
    have old_behind := around.map_isFreeIn_behind Piece.before pieces
    have new_behind := newAround.map_isFreeIn_behind Piece.after pieces
    have old_spans : spansIn Piece.before offset (piece :: pieces) =
        span :: spansIn Piece.before span.stop pieces := by rw [span_eq]; rfl
    have new_spans : spansIn Piece.after offset (piece :: pieces) =
        newSpan :: spansIn Piece.after newSpan.stop pieces := by rw [newSpan_eq]; rfl
    rw [old_spans, new_spans, List.map_cons, List.map_cons, List.map_cons, List.zipWith_cons_cons,
      old_free, new_free, old_behind, new_behind, remade.free, Bool.true_and]
  breaks := by
    rw [breaks_aroundMarks, breaks_aroundMarks, remade.breaks, length_eq, List.flatMap_cons,
      List.length_append, List.length_nil]
    omega

end Step

/-! ## A paragraph that is replaced -/

section Replace

variable {definitions : Definitions} {base : Progress} {span : Span} {lines : List TextLine}
  {breaks : List Nat} {back : List Char}

theorem Complete.add_paragraph (complete : base.Complete span.start) (le : span.start ≤ span.stop)
    (inside : ∀ line ∈ lines, ∀ offset, line.breakAt = some offset → offset < span.stop) :
    (base.add (.paragraph span lines)).Complete span.stop where
  frames := by
    rcases base with ⟨blocks, frames, emptyItem, afterBlank, links, footnotes⟩
    cases complete.frames
    rfl
  emptyItem := by rw [Progress.emptyItem_add, complete.emptyItem]
  afterBlank := by
    rcases base with ⟨blocks, frames, emptyItem, afterBlank, links, footnotes⟩
    cases complete.frames
    exact complete.afterBlank
  holders := by
    intro outer mem
    rcases Progress.mem_holders_add.mp mem with mem | mem
    · simp [Block.holders] at mem
    · exact (complete.holders outer mem).trans le
  paragraphs := by
    intro other mem
    rw [paragraphs_add rfl, List.mem_append] at mem
    rcases mem with mem | mem
    · exact (complete.paragraphs other mem).trans le
    · obtain rfl : other = span := by simpa [Block.span?] using mem
      exact Nat.le_refl _
  breaks := by
    intro block mem line lineMem offset breaks
    rw [Progress.parts_add, List.mem_append] at mem
    rcases mem with mem | mem
    · have lt := complete.breaks block mem line lineMem offset breaks
      omega
    · obtain rfl : block = .paragraph span lines := by simpa [Block.parts] using mem
      exact inside line lineMem offset breaks

theorem endsBefore_progressMarks {high : Nat} (complete : base.Complete high) :
    EndsBefore high (progressMarks definitions base) where
  holders := fun outer mem => complete.holders outer ((mem_holders_iff complete.frames).mpr mem)
  breaks := by
    intro offset mem
    rcases exists_line_of_mem_marks complete.frames mem with ⟨block, blockMem, line, lineMem, breaks⟩
    exact complete.breaks block blockMem line lineMem offset breaks

theorem breaksLate_readAll (back : List Char) :
    BreaksLate (progressMarks definitions (readAll .start ⟨2, back⟩)) := by
  intro offset mem
  rcases exists_line_of_mem_marks (frames_readAll _ _) mem with
    ⟨block, blockMem, line, lineMem, breaks⟩
  rcases exists_laid_readBlocks (back.length + 1) .start ⟨2, back⟩ with ⟨added, _, parts_eq, laid⟩
  have parts_eq : (readAll .start ⟨2, back⟩).parts = added := parts_eq
  rw [parts_eq] at blockMem
  exact (laid.breaks blockMem lineMem breaks).1

/-- What is found by a reader that passes a paragraph outside of all containers. It goes on behind the
paragraph as if the document began there. -/
structure Passes (base : Progress) (span : Span) (lines : List TextLine) (back : List Char)
    (found : Progress) : Prop where
  complete : base.Complete span.start
  inside : ∀ line ∈ lines, ∀ offset, line.breakAt = some offset →
    span.start ≤ offset ∧ offset < span.stop
  wide : span.start + 3 ≤ span.stop ∨ back = [] ∧ span.start + 2 ≤ span.stop
  found_eq : found =
    (base.add (.paragraph span lines)).resume (span.stop - 2) (readAll .start ⟨2, back⟩)

namespace Passes

variable {found : Progress}

theorem of_readAll (complete : base.Complete span.start)
    (inside : ∀ line ∈ lines, ∀ offset, line.breakAt = some offset →
      span.start ≤ offset ∧ offset < span.stop)
    (wide : span.start + 3 ≤ span.stop ∨ back = [] ∧ span.start + 2 ≤ span.stop)
    (blank : isBlankLine back)
    (found_eq : found = readAll (base.add (.paragraph span lines)) ⟨span.stop, back⟩) :
    Passes base span lines back found where
  complete := complete
  inside := inside
  wide := wide
  found_eq := by
    have le : span.start + 2 ≤ span.stop := by
      rcases wide with wide | ⟨_, wide⟩ <;> omega
    have added := Complete.add_paragraph complete (by omega) fun line mem offset breaks =>
      (inside line mem offset breaks).2
    rw [found_eq]
    exact readAll_behind added (by omega) blank

theorem around (passes : Passes base span lines back found) (definitions : Definitions) :
    Around (progressMarks definitions base) span (hardBreaks definitions lines)
      (progressMarks definitions (readAll .start ⟨2, back⟩)) where
  ends := endsBefore_progressMarks passes.complete
  inside := by
    intro offset mem
    rcases exists_of_mem_hardBreaks mem with ⟨line, lineMem, breaks⟩
    exact passes.inside line lineMem offset breaks
  late := breaksLate_readAll back
  wide := by
    rcases passes.wide with wide | ⟨rfl, wide⟩
    · exact .inl wide
    · exact .inr ⟨rfl, wide⟩

theorem marks_eq (passes : Passes base span lines back found) (definitions : Definitions) :
    progressMarks definitions found =
      aroundMarks (progressMarks definitions base) span (hardBreaks definitions lines)
        (progressMarks definitions (readAll .start ⟨2, back⟩)) := by
  rw [passes.found_eq, progressMarks_resume passes.complete.frames]
  rfl

theorem links_eq (passes : Passes base span lines back found) :
    found.links = (readAll .start ⟨2, back⟩).links ++ base.links := by
  rcases base with ⟨blocks, frames, emptyItem, afterBlank, links, footnotes⟩
  cases passes.complete.frames
  rw [passes.found_eq]
  rfl

theorem footnotes_eq (passes : Passes base span lines back found) :
    found.footnotes = (readAll .start ⟨2, back⟩).footnotes ++ base.footnotes := by
  rcases base with ⟨blocks, frames, emptyItem, afterBlank, links, footnotes⟩
  cases passes.complete.frames
  rw [passes.found_eq]
  rfl

end Passes

variable {piece : Piece} {above behind newBehind : List Char} {offset start : Nat}

theorem hardBreaks_textAt (definitions : Definitions) (offset : Nat) (text tail : List Char) :
    hardBreaks definitions (textAt offset text tail).lines =
      (breaksIn definitions text).map (· + offset) :=
  hardBreaks_shift definitions _

/-- The lines of a text that stands alone break inside of it. -/
theorem Alone.breakAt {text : List Char} (alone : Alone text) (offset : Nat) (tail : List Char) :
    ∀ line ∈ (textAt offset text tail).lines, ∀ place, line.breakAt = some place →
      offset ≤ place ∧ place < offset + text.length := by
  intro line mem place breaks
  rcases List.mem_map.mp mem with ⟨origin, originMem, rfl⟩
  obtain ⟨inner, inner_eq, rfl⟩ := Option.map_eq_some_iff.mp breaks
  have bounds := breakAt_textBlock (Nat.zero_le _) origin originMem inner inner_eq
  have stop_le := next_textBlock_le alone.plain
  dsimp only at stop_le
  omega

theorem Turns.long (turns : Turns piece) (stands : StandsAlone above piece behind)
    (changed : piece.after ≠ piece.before) :
    (blankTail piece.before).length + 2 ≤ piece.before.length ∧
      (blankTail piece.before).length + 2 ≤ piece.after.length := by
  have two := turns.two_le stands.starts changed
  have before_length := congrArg List.length (trimEnd_append_blankTail piece.before)
  have after_length := congrArg List.length turns.after_eq
  rw [List.length_append] at before_length after_length
  omega

/-- The reader goes on behind what the paragraph turns into. -/
theorem Turns.next_textAt (turns : Turns piece) (stands : StandsAlone above piece behind)
    (ends : behind = [] → newBehind = []) (start : Nat) :
    (textAt start (trimEnd piece.after) (blankTail piece.before ++ newBehind)).next =
      ⟨start + piece.after.length, newBehind⟩ := by
  have after_length := congrArg List.length turns.after_eq
  rw [List.length_append] at after_length
  rcases stands.behind with ⟨feed, _⟩ | ⟨none, ended⟩
  · rw [feed] at after_length ⊢
    simp [textAt, after_length]
  · rw [none] at after_length ⊢
    simp [textAt, after_length, ends ended]

/-- Both a paragraph that may be refilled and what it turns into are passed. -/
theorem Turns.exists_passes (turns : Turns piece) (stands : StandsAlone above piece behind)
    (changed : piece.after ≠ piece.before) (empties : isEmptyLine behind → isEmptyLine newBehind)
    (ends : behind = [] → newBehind = []) (start_eq : offset + above.length = start)
    (mem : ⟨start, start + piece.before.length⟩ ∈
      (readAll .start ⟨offset, above ++ (piece.before ++ behind)⟩).paragraphs)
    (free : ∀ outer ∈ (readAll .start ⟨offset, above ++ (piece.before ++ behind)⟩).holders,
      outer.encloses ⟨start, start + piece.before.length⟩ = false) :
    ∃ base lines,
      Passes base ⟨start, start + piece.before.length⟩ lines behind
        (readAll .start ⟨offset, above ++ (piece.before ++ behind)⟩) ∧
      Passes base ⟨start, start + piece.after.length⟩
        (textAt start (trimEnd piece.after)
          (blankTail piece.before ++ newBehind)).lines newBehind
        (readAll .start ⟨offset, above ++ (piece.after ++ newBehind)⟩) := by
  have alone := turns.alone stands
  have long := turns.long stands changed
  rcases exists_seam stands.above (turns.exists_head stands behind newBehind) with
    ⟨seam, old_eq, new_eq, ahead⟩
  have parts : Parts (blankTail piece.before ++ newBehind) := by
    rcases stands.behind with ⟨feed, empty⟩ | ⟨none, ended⟩
    · exact .inr ⟨newBehind, by rw [feed]; rfl, empties empty⟩
    · rw [none, ends ended]
      exact .inl rfl
  have text_eq : seam.new = trimEnd piece.after ++ (blankTail piece.before ++ newBehind) := by
    rw [new_eq, ← List.append_assoc, ← turns.after_eq]
  have wide : (start + 3 ≤ start + piece.before.length ∨
        behind = [] ∧ start + 2 ≤ start + piece.before.length) ∧
      (start + 3 ≤ start + piece.after.length ∨
        newBehind = [] ∧ start + 2 ≤ start + piece.after.length) := by
    rcases stands.behind with ⟨feed, _⟩ | ⟨_, ended⟩
    · rw [feed, List.length_singleton] at long
      exact ⟨.inl (by omega), .inl (by omega)⟩
    · exact ⟨.inr ⟨ended, by omega⟩, .inr ⟨ends ended, by omega⟩⟩
  have blanks : isEmptyLine behind ∧ isEmptyLine newBehind := by
    rcases stands.behind with ⟨_, empty⟩ | ⟨_, ended⟩
    · exact ⟨empty, empties empty⟩
    · rw [ended, ends ended]
      exact ⟨rfl, rfl⟩
  rw [← old_eq] at mem free ⊢
  rw [← new_eq]
  rw [← start_eq] at mem free
  rcases exists_exchange ahead alone parts text_eq (by omega) mem free with
    ⟨base, lines, complete, inside, found_eq, newFound_eq⟩
  rw [start_eq] at complete inside found_eq newFound_eq
  refine ⟨base, lines, .of_readAll complete inside wide.1 (isBlankLine_of_isEmptyLine blanks.1) ?_,
    .of_readAll complete ?_ wide.2 (isBlankLine_of_isEmptyLine blanks.2) ?_⟩
  · rw [found_eq, old_eq]
    simp
  · intro line lineMem place breaks
    have bounds := Alone.breakAt alone _ _ line lineMem place breaks
    have after_length := congrArg List.length turns.after_eq
    rw [List.length_append] at after_length
    dsimp only
    omega
  · rw [newFound_eq, turns.next_textAt stands ends]

end Replace

/-! ## Runs over all pieces -/

section Run

variable {definitions : Definitions} {pieces : List Piece} {rest : List Char} {old new : Progress}

/-- A paragraph that the marks show, and that is free in them, was read outside of all containers. -/
theorem mem_paragraphs_of_isFreeIn (closed : old.frames = []) {span : Span}
    (mem : span ∈ (progressMarks definitions old).filterMap paragraphSpan?)
    (free : isFreeIn (progressMarks definitions old) span) :
    span ∈ old.paragraphs ∧ ∀ outer ∈ old.holders, outer.encloses span = false := by
  refine ⟨mem_paragraphs_of_mem_marks closed mem, fun outer outerMem => ?_⟩
  have spanMem : outer ∈ (progressMarks definitions old).filterMap containerSpan? :=
    (mem_holders_iff closed).mp outerMem
  obtain ⟨mark, markMem, outer_eq⟩ := List.mem_filterMap.mp spanMem
  exact (isEligible_iff.mp free).1 mark markMem outer outer_eq

/-- A paragraph that changes belongs to the pieces as well, if all behind it is remade. -/
theorem Turns.remade_of_tail {piece : Piece} {above behind newBehind : List Char}
    {earlier : List Span} {offset start : Nat} (turns : Turns piece)
    (stands : StandsAlone above piece behind)
    (changed : piece.after ≠ piece.before) (empties : isEmptyLine behind → isEmptyLine newBehind)
    (ends : behind = [] → newBehind = [])
    (start_eq : offset + above.length = start + piece.gap.length)
    (old_eq : old = readAll .start ⟨offset, above ++ (piece.before ++ behind)⟩)
    (new_eq : new = readAll .start ⟨offset, above ++ (piece.after ++ newBehind)⟩)
    (spans : (progressMarks definitions old).filterMap paragraphSpan? =
      earlier ++ ⟨start + piece.gap.length, start + piece.gap.length + piece.before.length⟩ ::
        spansIn Piece.before (start + piece.gap.length + piece.before.length) pieces)
    (early : ∀ span ∈ earlier, span.start ≤ span.stop ∧ span.stop ≤ start)
    (free : isFreeIn (progressMarks definitions old)
      ⟨start + piece.gap.length, start + piece.gap.length + piece.before.length⟩)
    (frees : FreeWhereChanged (progressMarks definitions old)
      (start + piece.gap.length + piece.before.length) pieces)
    (tail : (progressMarks definitions (readAll .start ⟨2, behind⟩)).filterMap paragraphSpan? =
        spansIn Piece.before 2 pieces →
      FreeWhereChanged (progressMarks definitions (readAll .start ⟨2, behind⟩)) 2 pieces →
      RemadeReading definitions [] 2 pieces (readAll .start ⟨2, behind⟩)
        (readAll .start ⟨2, newBehind⟩)) :
    RemadeReading definitions earlier start (piece :: pieces) old new := by
  have filled := (turns.long stands changed).1
  have mem : (⟨start + piece.gap.length, start + piece.gap.length + piece.before.length⟩ : Span) ∈
      (progressMarks definitions old).filterMap paragraphSpan? := by
    rw [spans]
    exact List.mem_append_right _ List.mem_cons_self
  have closed : old.frames = [] := by
    rw [old_eq]
    exact frames_readAll _ _
  rcases mem_paragraphs_of_isFreeIn closed mem free with ⟨paragraph, held⟩
  rw [old_eq] at held paragraph
  rcases turns.exists_passes stands changed empties ends start_eq paragraph held with
    ⟨base, lines, passes, newPasses⟩
  rw [← old_eq] at passes
  rw [← new_eq] at newPasses
  have around := passes.around definitions
  have newAround := newPasses.around definitions
  have marks_eq := passes.marks_eq definitions
  have new_marks_eq := newPasses.marks_eq definitions
  -- no line of a paragraph that may be refilled breaks
  have unbroken : hardBreaks definitions lines = [] := by
    rw [marks_eq] at free
    exact around.isFreeIn_span.mp free
  rw [unbroken] at around marks_eq
  rw [marks_eq, spans_aroundMarks, eq_comm] at spans
  have two := around.two_le
  have behind_eq := around.map_isFreeIn_behind Piece.before pieces
  dsimp only at two behind_eq spans
  rw [FreeWhereChanged, marks_eq, behind_eq] at frees
  obtain ⟨earlier_eq, _, later_eq⟩ := (List.append_cons_inj_of_notMem
    (fun mem => by have bounds := early _ mem; dsimp only at bounds; omega)
    (fun mem => by have bounds := (le_of_mem_spansIn mem).1; dsimp only at bounds; omega)).mp spans
  rw [spansIn_of_le two] at later_eq
  have later_eq := List.map_injective_iff.mpr
    (Span.move_injective fun _ _ => Nat.add_right_cancel) later_eq
  have reading := tail later_eq.symm frees
  have length_eq : (hardBreaks definitions (textAt (start + piece.gap.length) (trimEnd piece.after)
      (blankTail piece.before ++ newBehind)).lines).length = (newBreaks definitions piece).length := by
    rw [hardBreaks_textAt, List.length_map, newBreaks, if_neg changed]
  refine ⟨?_, ?_, ?_⟩
  · rw [marks_eq, new_marks_eq, earlier_eq]
    refine Remade.around around newAround rfl rfl length_eq (fun other mem => ?_) reading.remade
    rw [← earlier_eq] at mem
    have bounds := early other mem
    dsimp only
    omega
  · rw [passes.links_eq, newPasses.links_eq, reading.links]
  · rw [passes.footnotes_eq, newPasses.footnotes_eq, reading.footnotes]

/-- Where the pieces are set off, and those that change may be refilled, the new document has the marks
of the old one and the paragraphs that the pieces have become. -/
theorem remade_readAll (definitions : Definitions) (above : List Char) (earlier : List Span)
    {offset start : Nat} (start_eq : offset + above.length = start)
    (old_eq : old = readAll .start ⟨offset, above ++ textOf Piece.before pieces rest⟩)
    (new_eq : new = readAll .start ⟨offset, above ++ textOf Piece.after pieces rest⟩)
    (setOff : SetOff above pieces rest)
    (turns : ∀ piece ∈ pieces, piece.after ≠ piece.before → Turns piece)
    (spans : (progressMarks definitions old).filterMap paragraphSpan? =
      earlier ++ spansIn Piece.before start pieces)
    (early : ∀ span ∈ earlier, span.start ≤ span.stop ∧ span.stop ≤ start)
    (free : FreeWhereChanged (progressMarks definitions old) start pieces) :
    RemadeReading definitions earlier start pieces old new := by
  induction pieces generalizing offset above earlier start old new with
  | nil =>
    have same : new = old := new_eq.trans old_eq.symm
    rw [same]
    exact ⟨⟨rfl, spans, fun _ _ => rfl, rfl, rfl⟩, rfl, rfl⟩
  | cons piece pieces ih =>
    rw [List.forall_mem_cons] at turns
    rw [textOf_cons, ← List.append_assoc] at old_eq new_eq
    rw [spansIn] at spans
    rw [FreeWhereChanged, spansIn, List.map_cons, List.zip_cons_cons, List.forall_mem_cons] at free
    have gap_eq : offset + (above ++ piece.gap).length = start + piece.gap.length := by
      rw [List.length_append, ← Nat.add_assoc, start_eq]
    rw [SetOff] at setOff
    by_cases same : piece.after = piece.before
    · rw [if_pos same] at setOff
      rw [same, ← List.append_assoc] at new_eq
      rw [← List.append_assoc] at old_eq
      have stop_eq : offset + (above ++ piece.gap ++ piece.before).length =
          start + piece.gap.length + piece.before.length := by
        rw [List.length_append, ← Nat.add_assoc, gap_eq]
      have later := ih _ (earlier ++ [⟨start + piece.gap.length,
          start + piece.gap.length + piece.before.length⟩]) stop_eq old_eq new_eq setOff turns.2
        (by rw [spans, List.append_assoc]; rfl) ?_ free.2
      · exact ⟨later.remade.of_same same, later.links, later.footnotes⟩
      · rw [List.forall_mem_append, List.forall_mem_singleton]
        refine ⟨fun span mem => ?_, Nat.le_add_right _ _, Nat.le_refl _⟩
        have bounds := early span mem
        omega
    · rw [if_neg same] at setOff
      exact (turns.1 same).remade_of_tail setOff.1 same (isEmptyLine_textOf setOff.2 turns.2)
        (textOf_eq_nil turns.2) gap_eq old_eq new_eq spans early (free.1 same) free.2
        fun spans free => ih [] [] rfl rfl rfl setOff.2 turns.2 spans (by simp) free

end Run

end Refill.Document
