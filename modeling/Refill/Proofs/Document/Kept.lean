import Refill.Proofs.Document.Remade

/-!
# What refilling keeps of a document

If the paragraphs that refilling changes are set off, the refilled document is read as the source is
(`Spliced.remade`): it has the paragraphs that the pieces have become, other blocks of the same kinds,
and the same definitions of links and footnotes.
-/

namespace Refill.Document

open Text Markdown

/-! ## The pieces of a document -/

section Unique

theorem append_inj_of_byteLength {front other back behind : List Char}
    (text_eq : front ++ back = other ++ behind)
    (length_eq : byteLength front = byteLength other) : front = other ∧ back = behind := by
  have fronts := congrArg (takeBytes (byteLength front)) text_eq
  have backs := congrArg (dropBytes (byteLength front)) text_eq
  rw [takeBytes_append, length_eq, takeBytes_append] at fronts
  rw [dropBytes_append, length_eq, dropBytes_append] at backs
  exact ⟨fronts, backs⟩

/-- The stretches of the paragraphs, and what is made of each, tell the pieces. -/
theorem eq_of_edited {edit : Span → List Char → List Char} {offset : Nat}
    {pieces others : List Piece} {rest behind : List Char}
    (spans_eq : pieces.map Piece.span = others.map Piece.span) (placed : Placed offset pieces)
    (otherPlaced : Placed offset others)
    (text_eq : textOf Piece.before pieces rest = textOf Piece.before others behind)
    (edited : ∀ piece ∈ pieces, piece.after = edit piece.span piece.before)
    (otherEdited : ∀ piece ∈ others, piece.after = edit piece.span piece.before) :
    pieces = others ∧ rest = behind := by
  induction pieces generalizing offset others with
  | nil =>
    obtain rfl : others = [] := by simpa using spans_eq.symm
    exact ⟨rfl, text_eq⟩
  | cons piece pieces ih =>
    rcases others with _ | ⟨other, others⟩
    · cases spans_eq
    rw [List.map_cons, List.map_cons, List.cons.injEq] at spans_eq
    rcases spans_eq with ⟨span_eq, spans_eq⟩
    rcases placed with ⟨start_eq, stop_eq, placed⟩
    rcases otherPlaced with ⟨otherStart_eq, otherStop_eq, otherPlaced⟩
    rw [← span_eq] at otherStart_eq otherStop_eq otherPlaced
    rw [textOf_cons, textOf_cons] at text_eq
    rcases append_inj_of_byteLength text_eq (by omega) with ⟨gap_eq, text_eq⟩
    rcases append_inj_of_byteLength text_eq (by omega) with ⟨before_eq, text_eq⟩
    rw [List.forall_mem_cons] at edited otherEdited
    have after_eq : piece.after = other.after := by
      rw [edited.1, otherEdited.1, span_eq, before_eq]
    rcases ih spans_eq placed otherPlaced text_eq edited.2 otherEdited.2 with ⟨rfl, rest_eq⟩
    refine ⟨?_, rest_eq⟩
    rcases piece with ⟨gap, span, before, after⟩
    rcases other with ⟨otherGap, otherSpan, otherBefore, otherAfter⟩
    dsimp only at gap_eq span_eq before_eq after_eq
    rw [gap_eq, span_eq, before_eq, after_eq]

/-- There is one way to splice a document. -/
theorem Spliced.pieces_eq {read : List Char → List Mark} {width : Nat}
    {source output rest : List Char} {pieces : List Piece} (positive : 1 ≤ width)
    (spliced : Spliced read width source output pieces rest) (others : List Piece)
    (behind : List Char) (spans : (read source).filterMap paragraphSpan? = others.map Piece.span)
    (placed : Placed 0 others) (source_eq : source = textOf Piece.before others behind)
    (edited : ∀ piece ∈ others, piece.after = editWith read width source piece.span piece.before) :
    pieces = others ∧ rest = behind :=
  eq_of_edited (spliced.spans.trans spans) spliced.placed placed
    (spliced.source_eq.symm.trans source_eq) (spliced.edited positive) edited

end Unique

/-! ## Paragraphs that are refilled -/

section Turns

variable {width : Nat} {source output rest : List Char} {pieces : List Piece}

theorem Refillable.turns {piece : Piece} (refillable : Refillable byteMarks width source piece)
    (after_eq : piece.after =
      Paragraph.fill width (trimEnd piece.before) ++ blankTail piece.before) : Turns piece := by
  have body_eq : trimEnd piece.after = Paragraph.fill width (trimEnd piece.before) := by
    rw [after_eq]
    exact trimEnd_append_blank refillable.tight.ends (blank_blankTail piece.before)
  refine ⟨?_, ?_, ?_, ?_⟩
  · rw [body_eq, after_eq]
  · rw [body_eq]
    exact refillable.tight
  · rw [body_eq, ← isSole_byteMarks]
    exact refillable.sole
  · rw [← filter_trimEnd, body_eq, Paragraph.filter_fill, filter_trimEnd]

/-- The pieces that change are refilled. -/
theorem Spliced.refillable_of_ne (spliced : Spliced byteMarks width source output pieces rest)
    {piece : Piece} (mem : piece ∈ pieces) (changed : piece.after ≠ piece.before) :
    Refillable byteMarks width source piece := by
  by_contra kept
  exact changed (spliced.kept piece mem kept)

theorem Spliced.turns (positive : 1 ≤ width)
    (spliced : Spliced byteMarks width source output pieces rest) :
    ∀ piece ∈ pieces, piece.after ≠ piece.before → Turns piece := by
  intro piece mem changed
  have refillable := spliced.refillable_of_ne mem changed
  apply refillable.turns
  rw [spliced.edited positive piece mem, editWith_of_refillable refillable]

end Turns

/-! ## Offsets in bytes -/

section Spans

variable {text : Piece → List Char} {width : Nat} {source output rest : List Char}
  {pieces : List Piece}

theorem isFreeIn_byteMarks (source : List Char) (span : Span) :
    isFreeIn (byteMarks source) (span.move (byteOffset source)) = isFreeIn (marks source) span :=
  isEligible_move (byteOffset_strictMono source) (marks source) span

theorem byteSpans_eq (source_eq : source = textOf text pieces rest) :
    byteSpans text 0 pieces = (spansIn text 0 pieces).map (Span.move (byteOffset source)) := by
  have moved := map_move_spansIn text [] rest pieces
  rw [List.nil_append, ← source_eq] at moved
  exact moved.symm

theorem map_isFreeIn_byteSpans (source_eq : source = textOf text pieces rest) :
    (byteSpans text 0 pieces).map (isFreeIn (byteMarks source)) =
      (spansIn text 0 pieces).map (isFreeIn (marks source)) := by
  rw [byteSpans_eq source_eq, List.map_map]
  exact List.map_congr_left fun span _ => isFreeIn_byteMarks source span

/-- The paragraphs stand at the stretches in bytes just if they do so in characters. -/
theorem spans_eq_iff (source_eq : source = textOf text pieces rest) :
    (byteMarks source).filterMap paragraphSpan? = byteSpans text 0 pieces ↔
      (marks source).filterMap paragraphSpan? = spansIn text 0 pieces := by
  have injective := List.map_injective_iff.mpr
    (Span.move_injective (byteOffset_strictMono source).injective)
  rw [byteMarks, filterMap_paragraphSpan_move, byteSpans_eq source_eq, injective.eq_iff]

end Spans

/-! ## Documents that are refilled -/

section Spliced

variable {width : Nat} {source output rest : List Char} {pieces : List Piece}

/-- Where the changed paragraphs are set off, the output is the source with new paragraphs. -/
theorem Spliced.remade (positive : 1 ≤ width)
    (spliced : Spliced byteMarks width source output pieces rest) (setOff : SetOff [] pieces rest) :
    Remade (Document.read source).definitions [] 0 pieces (marks source) (marks output) ∧
      (Document.read output).definitions = (Document.read source).definitions := by
  have source_eq : source = textOf Piece.before pieces rest := spliced.source_eq
  have output_eq : output = textOf Piece.after pieces rest := spliced.output_eq
  have bytes_eq : (byteMarks source).filterMap paragraphSpan? = byteSpans Piece.before 0 pieces := by
    rw [← spliced.spans, map_span_of_placed spliced.placed]
  have spans := (spans_eq_iff source_eq).mp bytes_eq
  have free : FreeWhereChanged (marks source) 0 pieces := by
    rw [FreeWhereChanged, ← map_isFreeIn_byteSpans source_eq, ← map_span_of_placed spliced.placed,
      List.map_map]
    intro entry mem changed
    obtain ⟨piece, pieceMem, rfl⟩ : ∃ piece ∈ pieces,
        (piece, isFreeIn (byteMarks source) piece.span) = entry := by
      rwa [← List.mem_map, List.map_prod_left_eq_zip]
    exact (refillable_iff.mp (spliced.refillable_of_ne pieceMem changed)).1
  have reading := remade_readAll (Document.read source).definitions [] [] rfl
    (congrArg (fun text => readAll .start ⟨0, text⟩) source_eq)
    (congrArg (fun text => readAll .start ⟨0, text⟩) output_eq) setOff (spliced.turns positive) spans
    (by simp) free
  have definitions_eq : (Document.read output).definitions = (Document.read source).definitions :=
    Definitions.mk.injEq _ _ _ _ |>.mpr ⟨reading.links, reading.footnotes⟩
  refine ⟨?_, definitions_eq⟩
  have marks_eq : marks output = progressMarks (Document.read source).definitions
      (readAll .start ⟨0, output⟩) := by
    rw [← definitions_eq]
    rfl
  rw [marks_eq]
  exact reading.remade

/-- The paragraphs of the output are what the pieces have become. -/
theorem Spliced.spans_output (positive : 1 ≤ width)
    (spliced : Spliced byteMarks width source output pieces rest) (setOff : SetOff [] pieces rest) :
    (byteMarks output).filterMap paragraphSpan? = byteSpans Piece.after 0 pieces :=
  (spans_eq_iff spliced.output_eq).mpr (spliced.remade positive setOff).1.spans

/-- A paragraph of the output may be refilled if that of the source may, and no line breaks in it now. -/
theorem Spliced.free_output (positive : 1 ≤ width)
    (spliced : Spliced byteMarks width source output pieces rest) (setOff : SetOff [] pieces rest) :
    (byteSpans Piece.after 0 pieces).map (isFreeIn (byteMarks output)) =
      pieces.map fun piece => isFreeIn (byteMarks source) piece.span &&
        (newBreaks (Document.read source).definitions piece).isEmpty := by
  rw [map_isFreeIn_byteSpans spliced.output_eq, (spliced.remade positive setOff).1.free,
    ← map_isFreeIn_byteSpans spliced.source_eq, ← map_span_of_placed spliced.placed, List.map_map,
    List.zipWith_map, List.zipWith_self]
  rfl

end Spliced

end Refill.Document
