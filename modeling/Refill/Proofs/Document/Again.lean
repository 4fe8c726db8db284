import Refill.Proofs.Document.Kept
import Refill.Proofs.Rewrapping.Idempotence

/-!
# Refilling a document again

Refilling a document again changes it just if filling changes a paragraph of it that may be refilled.
Where the paragraphs that refilling changes are set off, those of the output are what they have become.
Then the lines of each refilled paragraph tell whether it stays (`refill_refill_iff`).
-/

namespace Refill

open Text Markdown

/-! ## Parts of equal texts -/

/-- Two fronts of a text that show the same are equal, if neither ends in a blank. -/
theorem Text.front_eq_of_filter {front other back behind : List Char}
    (text_eq : front ++ back = other ++ behind)
    (same : front.filter isVisible = other.filter isVisible) (ends : endsBlank front = false)
    (otherEnds : endsBlank other = false) : front = other := by
  have shorter {front other more : List Char} (other_eq : other = front ++ more)
      (same : front.filter isVisible = other.filter isVisible)
      (ends : endsBlank other = false) : front = other := by
    rw [other_eq, List.filter_append, List.self_eq_append_right, List.filter_eq_nil_iff] at same
    have blank : Blank more := fun c mem => by simpa [isVisible] using same c mem
    rw [other_eq] at ends
    rw [other_eq, blank.eq_nil_of_ends ends, List.append_nil]
  rcases List.append_eq_append_iff.mp text_eq with ⟨more, other_eq, _⟩ | ⟨more, front_eq, _⟩
  · exact shorter other_eq same otherEnds
  · exact (shorter front_eq same.symm ends).symm

/-- Lines are unsettled only where a tag begins. -/
theorem Paragraph.not_unsettled {text : List Char} {width : Nat} (noTag : '<' ∉ text) :
    ¬Unsettled width (pack width (Paragraph.tokens text)) := by
  have found {line front back : List Token} {token next : Token}
      (mem : line ∈ pack width (Paragraph.tokens text)) (line_eq : line = front ++ token :: next :: back) :
      ¬token.MakesTag next := by
    intro makes
    rcases makes.tag.1.exists_chars with ⟨second, third, name_eq, _⟩
    have begins : '<' ∈ BreakTag.nameOf token.text := by
      rw [name_eq]
      exact List.mem_cons_self
    have inside : '<' ∈ token.text := by
      rw [← BreakTag.stemOf_append_nameOf token.text]
      exact List.mem_append_right _ begins
    have tokenMem : token ∈ line := by
      rw [line_eq]
      exact List.mem_append_right _ List.mem_cons_self
    exact noTag ((Paragraph.text_infix_of_mem_pack mem tokenMem).subset inside)
  generalize pack width (Paragraph.tokens text) = lines at found
  intro unsettled
  cases unsettled with
  | inside mem makes => exact found mem rfl makes
  | ahead makes =>
    exact found (List.mem_append_right _ (List.mem_cons_of_mem _ List.mem_cons_self))
      (List.nil_append _).symm makes

namespace Document

/-! ## The pieces of the output -/

/-- The pieces of the output, with what refilling makes of them. -/
def piecesAfter (width : Nat) (output : List Char) : (offset : Nat) → List Piece → List Piece
  | _, [] => []
  | offset, piece :: pieces =>
      let start := offset + byteLength piece.gap
      let stop := start + byteLength piece.after
      { gap := piece.gap
        span := ⟨start, stop⟩
        before := piece.after
        after := editWith byteMarks width output ⟨start, stop⟩ piece.after } ::
        piecesAfter width output stop pieces

section After

variable {width : Nat} {output : List Char}

theorem map_span_piecesAfter (offset : Nat) (pieces : List Piece) :
    (piecesAfter width output offset pieces).map Piece.span = byteSpans Piece.after offset pieces := by
  induction pieces generalizing offset with
  | nil => rfl
  | cons piece pieces ih => rw [piecesAfter, byteSpans, List.map_cons, ih]

theorem placed_piecesAfter (offset : Nat) (pieces : List Piece) :
    Placed offset (piecesAfter width output offset pieces) := by
  induction pieces generalizing offset with
  | nil => trivial
  | cons piece pieces ih => exact ⟨rfl, rfl, ih _⟩

theorem flatMap_piecesAfter (offset : Nat) (pieces : List Piece) :
    (piecesAfter width output offset pieces).flatMap (fun piece => piece.gap ++ piece.before) =
      pieces.flatMap fun piece => piece.gap ++ piece.after := by
  induction pieces generalizing offset with
  | nil => rfl
  | cons piece pieces ih => rw [piecesAfter, List.flatMap_cons, List.flatMap_cons, ih]

theorem edited_piecesAfter (offset : Nat) (pieces : List Piece) :
    ∀ piece ∈ piecesAfter width output offset pieces,
      piece.after = editWith byteMarks width output piece.span piece.before := by
  induction pieces generalizing offset with
  | nil => simp [piecesAfter]
  | cons piece pieces ih =>
    rw [piecesAfter, List.forall_mem_cons]
    exact ⟨rfl, ih _⟩

end After

/-! ## Documents that stay as they are -/

section Edit

variable {width : Nat} {source : List Char} {span : Span} {text : List Char}

theorem editWith_eq_iff :
    editWith byteMarks width source span text = text ↔
      (isFreeIn (byteMarks source) span → isSole byteMarks (Paragraph.fill width (trimEnd text)) →
        Paragraph.fill width (trimEnd text) = trimEnd text) := by
  have parted := trimEnd_append_blankTail text
  have kept : Paragraph.fill width (trimEnd text) ++ blankTail text = text ↔
      Paragraph.fill width (trimEnd text) = trimEnd text := by
    conv_lhs => rhs; rw [← parted]
    exact List.append_left_inj _
  have same : isEligible ((byteMarks source).filterMap containerSpan?)
      ((byteMarks source).filterMap breakOffset?) span = isFreeIn (byteMarks source) span := rfl
  rw [editWith, same]
  split
  · next both =>
    rw [Bool.and_eq_true] at both
    simp only [kept, both.1, both.2, true_implies]
  · next neither =>
    rw [Bool.and_eq_true, not_and] at neither
    exact iff_of_true rfl fun free sole => absurd sole (neither free)

/-- A paragraph that is edited ends at the same visible character. -/
theorem editWith_eq_of_append {back behind : List Char}
    (text_eq : editWith byteMarks width source span text ++ back = text ++ behind) :
    editWith byteMarks width source span text = text := by
  unfold editWith at text_eq ⊢
  split
  · next both =>
    have parted := trimEnd_append_blankTail text
    rw [if_pos both, List.append_assoc] at text_eq
    conv at text_eq => rhs; rw [← parted, List.append_assoc]
    rw [front_eq_of_filter text_eq (Paragraph.filter_fill width _)
      (Paragraph.endsBlank_fill _ width) (endsBlank_trimEnd text), parted]
  · rfl

end Edit

/-- Pieces in a row stay as they are if the text does. -/
theorem eq_of_flatMap_eq {width : Nat} {source rest : List Char} {pieces : List Piece}
    (edited : ∀ piece ∈ pieces,
      piece.after = editWith byteMarks width source piece.span piece.before)
    (text_eq : pieces.flatMap (fun piece => piece.gap ++ piece.after) ++ rest =
      pieces.flatMap (fun piece => piece.gap ++ piece.before) ++ rest) :
    ∀ piece ∈ pieces, piece.after = piece.before := by
  induction pieces with
  | nil => simp
  | cons piece pieces ih =>
    rw [List.forall_mem_cons] at edited ⊢
    simp only [List.flatMap_cons, List.append_assoc, List.append_cancel_left_eq] at text_eq
    have first : piece.after = piece.before := by
      rw [edited.1] at text_eq ⊢
      exact editWith_eq_of_append text_eq
    rw [first, List.append_cancel_left_eq] at text_eq
    exact ⟨first, ih edited.2 text_eq⟩

/-- Refilling leaves a document as it is if it leaves each paragraph as it is, and only then. -/
theorem Spliced.output_eq_iff {width : Nat} {source output rest : List Char}
    {pieces : List Piece} (positive : 1 ≤ width)
    (spliced : Spliced byteMarks width source output pieces rest) :
    output = source ↔ ∀ piece ∈ pieces, piece.after = piece.before := by
  rw [spliced.output_eq]
  constructor
  · intro same
    exact eq_of_flatMap_eq (spliced.edited positive) (same.trans spliced.source_eq)
  · intro same
    rw [spliced.source_eq]
    congr 1
    refine List.flatMap_congr fun piece mem => ?_
    rw [same piece mem]

/-- The pieces of the output stay as they are where filling leaves those that may be refilled. -/
theorem forall_piecesAfter_iff {width : Nat} {output : List Char} (offset : Nat)
    {isFree : Piece → Bool} {pieces : List Piece}
    (free : (byteSpans Piece.after offset pieces).map (isFreeIn (byteMarks output)) =
      pieces.map isFree) :
    (∀ piece ∈ piecesAfter width output offset pieces, piece.after = piece.before) ↔
      ∀ piece ∈ pieces, isFree piece →
        isSole byteMarks (Paragraph.fill width (trimEnd piece.after)) →
          Paragraph.fill width (trimEnd piece.after) = trimEnd piece.after := by
  induction pieces generalizing offset with
  | nil => simp [piecesAfter]
  | cons piece pieces ih =>
    rw [byteSpans, List.map_cons, List.map_cons, List.cons.injEq] at free
    rw [piecesAfter, List.forall_mem_cons, List.forall_mem_cons, ih _ free.2, ← free.1]
    exact and_congr_left fun _ => editWith_eq_iff

/-- Filling leaves what a piece has become, unless the piece is refilled twice and its lines are
unsettled. -/
theorem settled_iff {width : Nat} {source : List Char} {piece : Piece} (definitions : Definitions)
    (after_eq : piece.after = editWith byteMarks width source piece.span piece.before) :
    ((isFreeIn (byteMarks source) piece.span && (newBreaks definitions piece).isEmpty) = true →
        isSole byteMarks (Paragraph.fill width (trimEnd piece.after)) →
        Paragraph.fill width (trimEnd piece.after) = trimEnd piece.after) ↔
      (Refillable byteMarks width source piece → newBreaks definitions piece = [] →
        isSole byteMarks (Paragraph.fill width (Paragraph.fill width (trimEnd piece.before))) →
          ¬Unsettled width (pack width (Paragraph.tokens (trimEnd piece.before)))) := by
  rw [Bool.and_eq_true, List.isEmpty_iff]
  by_cases refillable : Refillable byteMarks width source piece
  · have free : isFreeIn (byteMarks source) piece.span := (refillable_iff.mp refillable).1
    have body_eq : trimEnd piece.after = Paragraph.fill width (trimEnd piece.before) := by
      rw [after_eq, editWith_of_refillable refillable]
      exact trimEnd_append_blank refillable.tight.ends (blank_blankTail piece.before)
    simp only [body_eq, free, refillable, true_and, true_implies, Paragraph.fill_fill_eq_iff]
  · rw [after_eq, editWith_of_not_refillable refillable]
    refine iff_of_true (fun free sole => ?_) fun other => absurd other refillable
    exact absurd (refillable_iff.mpr ⟨free.1, sole⟩) refillable

/-- Where the changed paragraphs are set off, refilling the output again changes it just if a paragraph
that is refilled twice has unsettled lines. -/
theorem Spliced.refill_output_iff {width : Nat} {source output rest : List Char}
    {pieces : List Piece} (positive : 1 ≤ width)
    (spliced : Spliced byteMarks width source output pieces rest) (setOff : SetOff [] pieces rest) :
    refill output width = .ok output ↔
      ∀ piece ∈ pieces, Refillable byteMarks width source piece →
        newBreaks (Document.read source).definitions piece = [] →
        isSole byteMarks (Paragraph.fill width (Paragraph.fill width (trimEnd piece.before))) →
          ¬Unsettled width (pack width (Paragraph.tokens (trimEnd piece.before))) := by
  have source_eq : output = (piecesAfter width output 0 pieces).flatMap
      (fun piece => piece.gap ++ piece.before) ++ rest := by
    rw [flatMap_piecesAfter, ← spliced.output_eq]
  have spans := spliced.spans_output positive setOff
  have again := spliced_of_edited positive ((map_span_piecesAfter 0 pieces).trans spans.symm)
    (placed_piecesAfter 0 pieces) source_eq (edited_piecesAfter 0 pieces)
  rw [again.refill_eq positive, Except.ok.injEq, again.output_eq_iff positive,
    forall_piecesAfter_iff 0 (spliced.free_output positive setOff)]
  exact forall₂_congr fun piece mem => settled_iff _ (spliced.edited positive piece mem)

/-- Refilling changes a document just if filling changes one of the paragraphs that are refilled. -/
theorem Spliced.output_eq_iff_fill {width : Nat} {source output rest : List Char}
    {pieces : List Piece} (positive : 1 ≤ width)
    (spliced : Spliced byteMarks width source output pieces rest) :
    output = source ↔ ∀ piece ∈ pieces, Refillable byteMarks width source piece →
      Paragraph.fill width (trimEnd piece.before) = trimEnd piece.before := by
  rw [spliced.output_eq_iff positive]
  refine forall₂_congr fun piece mem => ?_
  rw [spliced.edited positive piece mem, editWith_eq_iff, refillable_iff, and_imp]
  rfl

/-- In a document without the character that begins a tag, no lines are unsettled. -/
theorem Spliced.not_unsettled {width : Nat} {source output rest : List Char} {pieces : List Piece}
    (spliced : Spliced byteMarks width source output pieces rest) (noTag : '<' ∉ source)
    {piece : Piece} (mem : piece ∈ pieces) :
    ¬Unsettled width (pack width (Paragraph.tokens (trimEnd piece.before))) := by
  apply Paragraph.not_unsettled
  intro found
  apply noTag
  rw [spliced.source_eq, List.mem_append, List.mem_flatMap]
  refine .inl ⟨piece, mem, List.mem_append_right _ ?_⟩
  rw [← trimEnd_append_blankTail piece.before]
  exact List.mem_append_left _ found

/-- Refilling a document twice fails neither time. The second time changes something just if filling
changes a paragraph that is refilled then. Where the paragraphs that change at first are set off, the
second time finds what they have become. It changes something just if it refills one that the first
time leaves with unsettled lines, and so nothing where no tag begins. -/
theorem refill_refill_iff (source : List Char) {width : Nat} (positive : 1 ≤ width) :
    ∃ output pieces rest result images behind,
      Spliced byteMarks width source output pieces rest ∧
      Spliced byteMarks width output result images behind ∧
      refill source width = .ok output ∧ refill output width = .ok result ∧
      (result = output ↔ ∀ image ∈ images, Refillable byteMarks width output image →
        Paragraph.fill width (trimEnd image.before) = trimEnd image.before) ∧
      (SetOff [] pieces rest →
        (byteMarks output).filterMap paragraphSpan? = byteSpans Piece.after 0 pieces ∧
        (result = output ↔ ∀ piece ∈ pieces, Refillable byteMarks width source piece →
          newBreaks (Document.read source).definitions piece = [] →
          isSole byteMarks (Paragraph.fill width (Paragraph.fill width (trimEnd piece.before))) →
            ¬Unsettled width (pack width (Paragraph.tokens (trimEnd piece.before)))) ∧
        ('<' ∉ source → result = output)) := by
  rcases exists_spliced positive (orderly_byteMarks source) with ⟨output, pieces, rest, first, _⟩
  rcases exists_spliced positive (orderly_byteMarks output) with ⟨result, images, behind, second, _⟩
  refine ⟨output, pieces, rest, result, images, behind, first, second, first.refill_eq positive,
    second.refill_eq positive, second.output_eq_iff_fill positive, fun setOff => ?_⟩
  have settled := first.refill_output_iff positive setOff
  rw [second.refill_eq positive, Except.ok.injEq] at settled
  refine ⟨first.spans_output positive setOff, settled, fun noTag => settled.mpr ?_⟩
  intro piece mem _ _ _
  exact first.not_unsettled noTag mem

/-- A document with a paragraph of unsettled lines that is set off, and one in a quote. -/
theorem refill_refill_iff_tag :
    1 ≤ 80 ∧ ∃ output pieces rest result images behind,
      Spliced byteMarks 80 "a <br\n/> b\n\n> q\n".toList output pieces rest ∧
      Spliced byteMarks 80 output result images behind ∧
      refill "a <br\n/> b\n\n> q\n".toList 80 = .ok output ∧ refill output 80 = .ok result ∧
      SetOff [] pieces rest ∧
      (byteMarks output).filterMap paragraphSpan? = byteSpans Piece.after 0 pieces ∧
      (result = output ↔ ∀ piece ∈ pieces,
        Refillable byteMarks 80 "a <br\n/> b\n\n> q\n".toList piece →
        newBreaks (Document.read "a <br\n/> b\n\n> q\n".toList).definitions piece = [] →
        isSole byteMarks (Paragraph.fill 80 (Paragraph.fill 80 (trimEnd piece.before))) →
          ¬Unsettled 80 (pack 80 (Paragraph.tokens (trimEnd piece.before)))) := by
  have positive : 1 ≤ 80 := by decide
  rcases refill_refill_iff "a <br\n/> b\n\n> q\n".toList positive with
    ⟨output, pieces, rest, result, images, behind, first, second, refilled, again, _, found⟩
  have setOff : SetOff [] pieces rest := by
    rcases first.pieces_eq positive
      [⟨[], ⟨0, 11⟩, "a <br\n/> b\n".toList, "a <br /> b\n".toList⟩,
        ⟨"\n> ".toList, ⟨14, 16⟩, "q\n".toList, "q\n".toList⟩] []
      (by decide +kernel) (by decide +kernel) (by decide +kernel) (by decide +kernel) with
      ⟨pieces_eq, rest_eq⟩
    rw [pieces_eq, rest_eq]
    decide +kernel
  rcases found setOff with ⟨spans, settled, _⟩
  exact ⟨positive, output, pieces, rest, result, images, behind, first, second, refilled, again, setOff,
    spans, settled⟩

/-- There are documents that refilling changes twice. In the first two words make a tag. In the second
no tag begins, but a paragraph becomes a definition, and another one may be refilled because of that. -/
theorem refill_changes_again :
    (¬∀ source width, 1 ≤ width → ∃ output, refill source width = .ok output ∧
      refill output width = .ok output) ∧
    ∃ source width output result, 1 ≤ width ∧ '<' ∉ source ∧ refill source width = .ok output ∧
      refill output width = .ok result ∧ result ≠ output := by
  constructor
  · intro idempotent
    have first : refill "a <br\n/> b\n".toList 80 = .ok "a <br /> b\n".toList := by decide +kernel
    have second : refill "a <br /> b\n".toList 80 = .ok "a <br />\nb\n".toList := by decide +kernel
    rcases idempotent "a <br\n/> b\n".toList 80 (by decide) with ⟨output, output_eq, again⟩
    rw [first, Except.ok.injEq] at output_eq
    rw [← output_eq, second, Except.ok.injEq] at again
    exact absurd again (by decide)
  · exact ⟨"[foo bar]: /url text\n\n[x][foo  \nbar] y\nz\n".toList, 15,
      "[foo bar]: /url\ntext\n\n[x][foo  \nbar] y\nz\n".toList,
      "[foo bar]: /url\ntext\n\n[x][foo  \nbar]\ny z\n".toList, by decide, by decide +kernel,
      by decide +kernel, by decide +kernel, by decide +kernel⟩

end Document

end Refill
