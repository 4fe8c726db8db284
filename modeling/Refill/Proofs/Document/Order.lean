import Refill.Proofs.Document.Splice
import Refill.Proofs.Markdown.Marks
import Refill.Proofs.Packing.BlankLines

/-!
# The paragraphs of a document in order

What the reader of the library tells of the paragraphs of a document is `Orderly`, in bytes as well
as in characters (`orderly_byteMarks`). So a document is spliced from its pieces, and that is what
refilling gives (`Spliced.refill_eq`), as does copying by slices (`copy_eq_refill`).
-/

namespace Refill.Document

open Text Markdown

theorem isBoundary_byteOffset {text : List Char} {count : Nat} (le : count ≤ text.length) :
    isBoundary text (byteOffset text count) := by
  refine isBoundary_iff.mpr ⟨text.take count, text.drop count, ?_, ?_⟩
  · rw [List.take_append_drop]
  · rw [byteOffset, Nat.sub_eq_zero_of_le le, Nat.add_zero]

/-- The paragraphs of a document come in order, and characters begin and end at their offsets. -/
theorem orderly_byteMarks (text : List Char) :
    Orderly text ((byteMarks text).filterMap paragraphSpan?) := by
  rcases orderly_marks text with ⟨apart, inside⟩
  have mono := (byteOffset_strictMono text).monotone
  rw [byteMarks, filterMap_paragraphSpan_move]
  constructor
  · rw [List.pairwise_map]
    exact apart.imp fun le => mono le
  · intro span mem
    rcases List.mem_map.mp mem with ⟨origin, originMem, rfl⟩
    rcases inside origin originMem with ⟨le, stop_le⟩
    exact ⟨mono le, isBoundary_byteOffset (le.trans stop_le), isBoundary_byteOffset stop_le⟩

section Spliced

variable {width : Nat} {source output rest : List Char} {pieces : List Piece}

/-- What a document is spliced into is what refilling gives. -/
theorem Spliced.refill_eq (positive : 1 ≤ width)
    (spliced : Spliced byteMarks width source output pieces rest) :
    refill source width = .ok output := by
  have nonzero : width ≠ 0 := by omega
  rw [refill, if_neg nonzero, spliced.output_eq]
  exact congrArg _ (refillMarked_pieces rfl (funext isSole_byteMarks) spliced.source_eq
    spliced.spans spliced.placed (spliced.edited positive))

end Spliced

/-- Refilling a document gives what copying it by slices does. -/
theorem copy_eq_refill (source : List Char) {width : Nat} (positive : 1 ≤ width) :
    ∃ output, copy? byteMarks width source = some output ∧ refill source width = .ok output := by
  rcases exists_spliced positive (orderly_byteMarks source) with ⟨output, pieces, rest, spliced, _⟩
  exact ⟨output, spliced.copy_eq positive, spliced.refill_eq positive⟩

/-! ## What is visible of a paragraph -/

theorem getLast?_filter_visible {text : List Char} (ends : endsBlank text = false) :
    (text.filter isVisible).getLast? = text.getLast? := by
  rcases List.eq_nil_or_concat' text with rfl | ⟨front, last, rfl⟩
  · rfl
  · have visible : isVisible last := by simpa [endsBlank, isVisible] using ends
    simp [List.filter_append, visible]

theorem head?_filter_visible {text : List Char} (starts : startsBlank text = false) :
    (text.filter isVisible).head? = text.head? := by
  cases text with
  | nil => rfl
  | cons c rest =>
    have visible : isVisible c := by simpa [startsBlank, isVisible] using starts
    simp [visible]

theorem filter_trimEnd (text : List Char) :
    (trimEnd text).filter isVisible = text.filter isVisible := by
  have parted := congrArg (List.filter isVisible) (trimEnd_append_blankTail text)
  rwa [List.filter_append, Paragraph.filter_of_blank (blank_blankTail text), List.append_nil] at parted

/-- Of two texts that show the same, the one is as long as the other if that is one character. -/
theorem eq_of_filter_visible {text other : List Char} (tight : Tight text) (otherTight : Tight other)
    (same : text.filter isVisible = other.filter isVisible) (short : text.length < 2) :
    text = other := by
  rcases List.exists_cons_of_ne_nil tight.nonempty with ⟨c, rest, rfl⟩
  rw [List.length_cons] at short
  obtain rfl : rest = [] := List.length_eq_zero_iff.mp (by omega)
  have visible : isVisible c := by simpa [startsBlank, isVisible] using tight.starts
  rcases List.exists_cons_of_ne_nil otherTight.nonempty with ⟨d, later, rfl⟩
  have otherVisible : isVisible d := by simpa [startsBlank, isVisible] using otherTight.starts
  rw [List.filter_cons_of_pos visible, List.filter_cons_of_pos otherVisible, List.filter_nil] at same
  obtain ⟨rfl, none⟩ := List.cons.inj same
  have blank : Blank later := by
    intro e mem
    simpa [isVisible] using List.filter_eq_nil_iff.mp none.symm e mem
  have ends : endsBlank ([c] ++ later) = false := otherTight.ends
  rw [blank.eq_nil_of_ends ends]

/-- A text without anything visible is not read as a paragraph. -/
theorem Refillable.tight {width : Nat} {source : List Char} {piece : Piece}
    (refillable : Refillable byteMarks width source piece) :
    Tight (Paragraph.fill width (trimEnd piece.before)) := by
  apply Paragraph.tight_fill
  intro blank
  have sole := refillable.sole
  rw [Paragraph.fill_eq_nil_iff.mpr blank] at sole
  exact absurd sole (by decide)

end Refill.Document
