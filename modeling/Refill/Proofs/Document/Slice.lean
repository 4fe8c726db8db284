import Mathlib.Order.Monotone.Basic
import Refill.Text.Bytes

/-!
# Slices

A text is sliced between two offsets in bytes. That fails where an offset lies inside a
character or beyond the end, or where the offsets are not in order; `slice_append` says where it
succeeds.
-/

namespace Refill.Text

/-- Whether a character begins at the offset, or the text ends there. -/
def isBoundary (text : List Char) (offset : Nat) : Bool :=
  byteLength (takeBytes offset text) == offset

/-- The stretch of the text between two offsets, both of which have to be boundaries. -/
def slice? (start stop : Nat) (text : List Char) : Option (List Char) :=
  if start ≤ stop && isBoundary text start && isBoundary text stop then
    some (takeBytes (stop - start) (dropBytes start text))
  else none

theorem takeBytes_prefix (count : Nat) (text : List Char) : takeBytes count text <+: text := by
  induction text generalizing count with
  | nil => cases count <;> simp [takeBytes]
  | cons c rest ih =>
    cases count with
    | zero => simp [takeBytes]
    | succ count =>
      simp only [takeBytes]
      split
      · exact List.cons_prefix_cons.mpr ⟨rfl, ih _⟩
      · exact List.nil_prefix

theorem isBoundary_iff {text : List Char} {offset : Nat} :
    isBoundary text offset ↔ ∃ front back, text = front ++ back ∧ byteLength front = offset := by
  constructor
  · intro boundary
    rcases takeBytes_prefix offset text with ⟨back, text_eq⟩
    exact ⟨takeBytes offset text, back, text_eq.symm, by simpa [isBoundary] using boundary⟩
  · rintro ⟨front, back, rfl, rfl⟩
    simp [isBoundary]

/-- Of two boundaries the earlier one parts what stands before the later one. -/
theorem exists_between {front back : List Char} {offset : Nat}
    (boundary : isBoundary (front ++ back) offset) (le : byteLength front ≤ offset) :
    ∃ inside rest, back = inside ++ rest ∧ byteLength front + byteLength inside = offset := by
  rcases isBoundary_iff.mp boundary with ⟨before, behind, text_eq, length_eq⟩
  rcases exists_gap text_eq (by omega) with ⟨inside, before_eq, back_eq⟩
  exact ⟨inside, behind, back_eq, by simp [← length_eq, before_eq]⟩

theorem slice_append (front inside back : List Char) {start stop : Nat}
    (start_eq : byteLength front = start) (stop_eq : start + byteLength inside = stop) :
    slice? start stop (front ++ inside ++ back) = some inside := by
  subst start_eq stop_eq
  have starts : isBoundary (front ++ inside ++ back) (byteLength front) :=
    isBoundary_iff.mpr ⟨front, inside ++ back, by simp, rfl⟩
  have stops : isBoundary (front ++ inside ++ back) (byteLength front + byteLength inside) :=
    isBoundary_iff.mpr ⟨front ++ inside, back, rfl, by simp⟩
  rw [slice?, starts, stops, Nat.add_sub_cancel_left, List.append_assoc, dropBytes_append,
    takeBytes_append]
  simp

/-! ## Offsets in characters -/

/-- The bytes before the place with so many characters before it; one more for each beyond the end. -/
def byteOffset (text : List Char) (count : Nat) : Nat :=
  byteLength (text.take count) + (count - text.length)

theorem byteOffset_append (front back : List Char) :
    byteOffset (front ++ back) front.length = byteLength front := by
  simp [byteOffset]

theorem byteOffset_strictMono (text : List Char) : StrictMono (byteOffset text) := by
  induction text with
  | nil =>
    intro count other lt
    simpa [byteOffset] using lt
  | cons c rest ih =>
    have positive : 0 < c.utf8Size := c.utf8Size_pos
    intro count other lt
    rcases other with _ | other
    · omega
    rcases count with _ | count
    · simp [byteOffset]
      omega
    · have later := ih (show count < other by omega)
      simp only [byteOffset, List.take_succ_cons, byteLength_cons, List.length_cons] at later ⊢
      omega

/-- The bytes before a place tell the characters before it. -/
theorem length_eq_of_byteOffset {text front : List Char} {offset : Nat} (back : List Char)
    (text_eq : text = front ++ back) (bytes_eq : byteLength front = byteOffset text offset) :
    front.length = offset := by
  apply (byteOffset_strictMono text).injective
  rw [← bytes_eq, text_eq, byteOffset_append]

end Refill.Text
