import Refill.Proofs.Document.Splice

/-!
# Stretches of pieces

Pieces in a row tell where each of them stands before and after a document is refilled, in characters
(`spansIn`) and in bytes (`byteSpans`).
-/

namespace Refill

open Text Markdown

theorem Markdown.Span.move_injective {change : Nat → Nat} (injective : Function.Injective change) :
    Function.Injective (Span.move change) := by
  rintro ⟨start, stop⟩ ⟨other, next⟩ same
  simp only [Span.move, Span.mk.injEq] at same
  rw [injective same.1, injective same.2]

namespace Document

/-! ## Texts of pieces -/

/-- The text of pieces in a row, of each its text before or after the document is refilled. -/
def textOf (text : Piece → List Char) (pieces : List Piece) (rest : List Char) : List Char :=
  pieces.flatMap (fun piece => piece.gap ++ text piece) ++ rest

theorem textOf_cons (text : Piece → List Char) (piece : Piece) (pieces : List Piece)
    (rest : List Char) :
    textOf text (piece :: pieces) rest = piece.gap ++ (text piece ++ textOf text pieces rest) := by
  simp [textOf]

/-! ## Stretches -/

/-- The stretches of pieces in a row, in characters, of which the first one begins at the offset. -/
def spansIn (text : Piece → List Char) : (offset : Nat) → List Piece → List Span
  | _, [] => []
  | offset, piece :: pieces =>
      let start := offset + piece.gap.length
      let stop := start + (text piece).length
      ⟨start, stop⟩ :: spansIn text stop pieces

/-- The stretches in bytes. -/
def byteSpans (text : Piece → List Char) : (offset : Nat) → List Piece → List Span
  | _, [] => []
  | offset, piece :: pieces =>
      let start := offset + byteLength piece.gap
      let stop := start + byteLength (text piece)
      ⟨start, stop⟩ :: byteSpans text stop pieces

section Spans

variable {text : Piece → List Char}

theorem spansIn_add (offset d : Nat) (pieces : List Piece) :
    spansIn text (offset + d) pieces = (spansIn text offset pieces).map (Span.move (· + d)) := by
  induction pieces generalizing offset with
  | nil => rfl
  | cons piece pieces ih =>
    have start_eq : offset + d + piece.gap.length = offset + piece.gap.length + d := by omega
    have stop_eq : offset + piece.gap.length + d + (text piece).length =
        offset + piece.gap.length + (text piece).length + d := by omega
    rw [spansIn, spansIn, start_eq, stop_eq, ih]
    rfl

theorem spansIn_of_le {offset stop : Nat} (le : offset ≤ stop) (pieces : List Piece) :
    spansIn text stop pieces =
      (spansIn text offset pieces).map (Span.move (· + (stop - offset))) := by
  rw [← spansIn_add, Nat.add_sub_cancel' le]

theorem le_of_mem_spansIn {offset : Nat} {pieces : List Piece} {span : Span}
    (mem : span ∈ spansIn text offset pieces) : offset ≤ span.start ∧ span.start ≤ span.stop := by
  induction pieces generalizing offset with
  | nil => cases mem
  | cons piece pieces ih =>
    rcases List.mem_cons.mp mem with rfl | mem
    · exact ⟨Nat.le_add_right _ _, Nat.le_add_right _ _⟩
    · have later := ih mem
      omega

/-- The stretches in bytes are those of the same characters. -/
theorem map_move_spansIn (text : Piece → List Char) (front rest : List Char) (pieces : List Piece) :
    (spansIn text front.length pieces).map
        (Span.move (byteOffset (front ++ textOf text pieces rest))) =
      byteSpans text (byteLength front) pieces := by
  induction pieces generalizing front with
  | nil => rfl
  | cons piece pieces ih =>
    have later := ih (front ++ piece.gap ++ text piece)
    have start_eq : byteOffset (front ++ textOf text (piece :: pieces) rest)
        (front.length + piece.gap.length) = byteLength front + byteLength piece.gap := by
      rw [textOf_cons, ← List.append_assoc, ← List.length_append, byteOffset_append,
        byteLength_append]
    have stop_eq : byteOffset (front ++ textOf text (piece :: pieces) rest)
        (front.length + piece.gap.length + (text piece).length) =
          byteLength front + byteLength piece.gap + byteLength (text piece) := by
      rw [textOf_cons, ← List.append_assoc, ← List.append_assoc, ← List.length_append,
        ← List.length_append, byteOffset_append, byteLength_append, byteLength_append]
    rw [List.length_append, List.length_append, byteLength_append, byteLength_append,
      List.append_assoc, List.append_assoc, ← textOf_cons] at later
    rw [spansIn, List.map_cons, later, byteSpans, Span.move, start_eq, stop_eq]

theorem map_span_of_placed {offset : Nat} {pieces : List Piece} (placed : Placed offset pieces) :
    pieces.map Piece.span = byteSpans Piece.before offset pieces := by
  induction pieces generalizing offset with
  | nil => rfl
  | cons piece pieces ih =>
    rcases placed with ⟨start_eq, stop_eq, placed⟩
    rw [List.map_cons, ih placed, byteSpans, start_eq, stop_eq]

end Spans

end Document

end Refill
