import Refill.Proofs.Document.Kept

/-!
# Refilled paragraphs as a whole

A paragraph is refilled only if it is still read as a sole paragraph, with no other block. That does
not keep a definition of a link from being read in its first lines, or the first line from being read
as the title of a definition before it. Where the paragraphs that change are set off, and no label
with a colon is in them, the refilled document shows the same paragraphs as the source, and other
blocks of the same kinds (`refill_paragraphs`).
-/

namespace Refill.Document

open Text Markdown

/-! ## What is visible of the paragraphs -/

/-- What is visible of each paragraph of a document. -/
def shownParagraphs (text : List Char) : List (List Char) :=
  ((marks text).filterMap paragraphSpan?).map fun span =>
    ((text.drop span.start).take (span.stop - span.start)).filter isVisible

section Shown

variable {text : Piece → List Char} {rest : List Char} {pieces : List Piece}

theorem map_cut_spansIn (text : Piece → List Char) (front rest : List Char) (pieces : List Piece) :
    (spansIn text front.length pieces).map (fun span =>
        ((front ++ textOf text pieces rest).drop span.start).take (span.stop - span.start)) =
      pieces.map text := by
  induction pieces generalizing front with
  | nil => rfl
  | cons piece pieces ih =>
    have later := ih (front ++ piece.gap ++ text piece)
    rw [List.length_append, List.length_append, List.append_assoc, List.append_assoc,
      ← textOf_cons] at later
    have cut : ((front ++ textOf text (piece :: pieces) rest).drop
        (front.length + piece.gap.length)).take (text piece).length = text piece := by
      rw [textOf_cons, ← List.append_assoc, ← List.length_append, List.drop_left, List.take_left]
    rw [spansIn, List.map_cons, List.map_cons, later]
    dsimp only
    rw [Nat.add_sub_cancel_left, cut]

theorem shownParagraphs_eq {source : List Char} (source_eq : source = textOf text pieces rest)
    (spans : (marks source).filterMap paragraphSpan? = spansIn text 0 pieces) :
    shownParagraphs source = pieces.map fun piece => (text piece).filter isVisible := by
  have cuts := congrArg (List.map (List.filter isVisible)) (map_cut_spansIn text [] rest pieces)
  rw [List.map_map, List.map_map, List.nil_append, ← source_eq] at cuts
  rw [shownParagraphs, spans]
  exact cuts

end Shown

/-- Refilling keeps what is visible of a paragraph. Read by itself, what a paragraph becomes is one
paragraph and no other block; it is that as a whole just if no definition of a link is read in it, and
none is where no closing bracket stands before a colon. Where the paragraphs that change are set off,
the output has as many paragraphs as the source, which show the same, other blocks of the same kinds in
the same order, and the same definitions. -/
theorem refill_paragraphs (source : List Char) (width : Nat) (positive : 1 ≤ width) :
    ∃ output pieces rest, refill source width = .ok output ∧
      Spliced byteMarks width source output pieces rest ∧
      (∀ piece ∈ pieces, Refillable byteMarks width source piece →
        ∃ filled, piece.after = filled ++ blankTail piece.before ∧
          filled.filter isVisible = piece.before.filter isVisible ∧
          isSoleParagraph filled ∧
          ((marks filled).filterMap paragraphSpan? = [⟨0, filled.length⟩] ↔
            (Document.read filled).definitions.links = []) ∧
          (¬"]:".toList <:+: filled → (Document.read filled).definitions.links = [])) ∧
      (SetOff [] pieces rest →
        shownParagraphs output = shownParagraphs source ∧
        kinds (marks output) = kinds (marks source) ∧
        (Document.read output).definitions = (Document.read source).definitions) := by
  rcases exists_spliced positive (orderly_byteMarks source) with
    ⟨output, pieces, rest, spliced, edited⟩
  refine ⟨output, pieces, rest, spliced.refill_eq positive, spliced, fun piece mem refillable => ?_,
    fun setOff => ?_⟩
  · have sole : isSoleParagraph (Paragraph.fill width (trimEnd piece.before)) := by
      rw [← isSole_byteMarks]
      exact refillable.sole
    refine ⟨Paragraph.fill width (trimEnd piece.before), ?_, ?_, sole,
      paragraphs_eq_iff refillable.tight sole, ?_⟩
    · rw [edited piece mem, editWith_of_refillable refillable]
    · rw [Paragraph.filter_fill, filter_trimEnd]
    · intro apart
      by_contra some_link
      exact apart (colon_of_links sole some_link)
  · rcases spliced.remade positive setOff with ⟨remade, definitions_eq⟩
    refine ⟨?_, remade.kinds, definitions_eq⟩
    have spans := (spans_eq_iff spliced.source_eq).mp
      (spliced.spans.symm.trans (map_span_of_placed spliced.placed))
    rw [shownParagraphs_eq spliced.output_eq remade.spans,
      shownParagraphs_eq spliced.source_eq spans]
    refine List.map_congr_left fun piece mem => ?_
    rw [edited piece mem, filter_editWith]

/-- Two paragraphs, of which the first one changes, before a heading. -/
theorem refill_paragraphs_heading :
    1 ≤ 5 ∧ ∃ output pieces rest, refill "a b\nc\n\n> d\n\n# e\n".toList 5 = .ok output ∧
      Spliced byteMarks 5 "a b\nc\n\n> d\n\n# e\n".toList output pieces rest ∧
      SetOff [] pieces rest ∧
      shownParagraphs output = shownParagraphs "a b\nc\n\n> d\n\n# e\n".toList ∧
      kinds (marks output) = kinds (marks "a b\nc\n\n> d\n\n# e\n".toList) ∧
      (Document.read output).definitions =
        (Document.read "a b\nc\n\n> d\n\n# e\n".toList).definitions := by
  have positive : 1 ≤ 5 := by decide
  rcases refill_paragraphs "a b\nc\n\n> d\n\n# e\n".toList 5 positive with
    ⟨output, pieces, rest, refilled, spliced, _, found⟩
  have setOff : SetOff [] pieces rest := by
    rcases spliced.pieces_eq positive
      [⟨[], ⟨0, 6⟩, "a b\nc\n".toList, "a b c\n".toList⟩,
        ⟨"\n> ".toList, ⟨9, 11⟩, "d\n".toList, "d\n".toList⟩] "\n# e\n".toList
      (by decide +kernel) (by decide +kernel) (by decide +kernel) (by decide +kernel) with
      ⟨pieces_eq, rest_eq⟩
    rw [pieces_eq, rest_eq]
    decide +kernel
  exact ⟨positive, output, pieces, rest, refilled, spliced, setOff, found setOff⟩

/-- There are documents of which refilling takes a part out of its paragraph. In the first it becomes a
definition. In the second it becomes the title of the definition before it, where the paragraph is not
set off. -/
theorem refill_loses_paragraph :
    (¬∀ source width, 1 ≤ width → ∃ output, refill source width = .ok output ∧
      shownParagraphs output = shownParagraphs source) ∧
    ∃ source width output, 1 ≤ width ∧ refill source width = .ok output ∧
      shownParagraphs source = ["\"title\"ok".toList] ∧ shownParagraphs output = ["ok".toList] := by
  constructor
  · intro same
    have first : refill "[foo]: /url text\n".toList 12 = .ok "[foo]: /url\ntext\n".toList := by
      decide +kernel
    have before : shownParagraphs "[foo]: /url text\n".toList = ["[foo]:/urltext".toList] := by
      decide +kernel
    have after : shownParagraphs "[foo]: /url\ntext\n".toList = ["text".toList] := by
      decide +kernel
    rcases same "[foo]: /url text\n".toList 12 (by decide) with ⟨output, output_eq, shown_eq⟩
    rw [first, Except.ok.injEq] at output_eq
    rw [← output_eq, before, after] at shown_eq
    exact absurd shown_eq (by decide +kernel)
  · exact ⟨"[foo]: /url\n\"title\" ok\n".toList, 7, "[foo]: /url\n\"title\"\nok\n".toList, by decide,
      by decide +kernel, by decide +kernel, by decide +kernel⟩

end Refill.Document
