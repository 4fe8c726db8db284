import Refill.Cursor
import Refill.Proofs.Text.Front

/-!
# Passages

A passage leads from one place of a text to a later one over the characters between
them. Every move of a cursor is a passage, and the text between two places is what the
passage goes over, so what a scan does can be said about lists of characters alone.
-/

namespace Refill.Cursor

open Text

variable {text : List Char}

/-- The second place comes right behind `front`, with which the text goes on at the first. -/
structure Passes (first : Cursor text) (front : List Char) (second : Cursor text) : Prop where
  rest_eq : first.rest = front ++ second.rest
  offset_eq : second.offset = first.offset + byteLength front

namespace Passes

variable {first second third : Cursor text} {front back : List Char}

theorem refl (cursor : Cursor text) : cursor.Passes [] cursor where
  rest_eq := rfl
  offset_eq := rfl

theorem trans (left : first.Passes front second) (right : second.Passes back third) :
    first.Passes (front ++ back) third where
  rest_eq := by rw [left.rest_eq, right.rest_eq, List.append_assoc]
  offset_eq := by
    rw [right.offset_eq, left.offset_eq, byteLength_append, Nat.add_assoc]

/-- The text between two places is what the passage from one to the other goes over. -/
theorem textTo_eq (passes : first.Passes front second) : first.textTo second = front := by
  rw [textTo, passes.offset_eq, passes.rest_eq, Nat.add_sub_cancel_left, takeBytes_append]

theorem isBoundary (passes : first.Passes front second) (boundary : first.IsBoundary) :
    second.IsBoundary := by
  rcases boundary with ⟨before, text_eq, length_eq⟩
  refine ⟨before ++ front, ?_, ?_⟩
  · rw [List.append_assoc, ← passes.rest_eq]
    exact text_eq
  · rw [byteLength_append, length_eq, passes.offset_eq]

end Passes

theorem passes_pass (cursor : Cursor text) {front back : List Char}
    (rest_eq : cursor.rest = front ++ back) :
    cursor.Passes front (cursor.pass front back rest_eq) where
  rest_eq := rest_eq
  offset_eq := rfl

theorem passes_skipWhile (cursor : Cursor text) (holds : Char → Bool) :
    cursor.Passes (cursor.rest.takeWhile holds) (cursor.skipWhile holds) :=
  cursor.passes_pass _

theorem rest_skipWhile (cursor : Cursor text) (holds : Char → Bool) :
    (cursor.skipWhile holds).rest = cursor.rest.dropWhile holds := rfl

theorem passes_next {cursor : Cursor text} {c : Char} {rest : List Char}
    (rest_eq : cursor.rest = c :: rest) : cursor.Passes [c] cursor.next := by
  unfold next
  split
  next empty =>
    rw [empty] at rest_eq
    cases rest_eq
  next d later later_eq =>
    rw [later_eq] at rest_eq
    cases rest_eq
    exact cursor.passes_pass _

theorem rest_next {cursor : Cursor text} {c : Char} {rest : List Char}
    (rest_eq : cursor.rest = c :: rest) : cursor.next.rest = rest := by
  have passes := (passes_next rest_eq).rest_eq
  rw [rest_eq] at passes
  simpa using passes.symm

theorem passes_advance {cursor : Cursor text} {front back : List Char}
    (left : cursor.rest ≠ []) (rest_eq : cursor.rest = front ++ back) :
    cursor.Passes front (cursor.advance (byteLength front)) where
  rest_eq := by
    simp only [advance, left, dite_false]
    rw [rest_eq, dropBytes_append]
  offset_eq := by simp [advance, left]

theorem passes_find {cursor found : Cursor text} {c : Char}
    (find_eq : cursor.find c = some found) :
    cursor.Passes (cursor.rest.takeWhile (· != c)) found := by
  simp only [find] at find_eq
  split at find_eq
  · cases find_eq
  · cases find_eq
    exact cursor.passes_skipWhile _

theorem find_eq_none_iff {cursor : Cursor text} {c : Char} :
    cursor.find c = none ↔ c ∉ cursor.rest := by
  simp only [find, rest_skipWhile, List.isEmpty_iff]
  have nothing : cursor.rest.dropWhile (· != c) = [] ↔ c ∉ cursor.rest := by
    rw [List.dropWhile_eq_nil_iff]
    constructor
    · intro others mem
      simpa using others c mem
    · intro missing d mem
      simp only [bne_iff_ne, ne_eq]
      rintro rfl
      exact missing mem
  by_cases missing : c ∉ cursor.rest
  · simp [nothing.mpr missing, missing]
  · simp [mt nothing.mp missing, missing]

/-- The search stops at the first occurrence. -/
theorem exists_find {cursor : Cursor text} {c : Char} {front back : List Char}
    (rest_eq : cursor.rest = front ++ c :: back) (first : c ∉ front) :
    ∃ found, cursor.find c = some found ∧ cursor.Passes front found ∧ found.rest = c :: back := by
  have mem : c ∈ cursor.rest := by simp [rest_eq]
  cases find_eq : cursor.find c with
  | none => exact absurd mem (find_eq_none_iff.mp find_eq)
  | some found =>
    have others : ∀ d ∈ front, (d != c) = true := by
      intro d inside
      simp only [bne_iff_ne, ne_eq]
      rintro rfl
      exact first inside
    have front_eq : cursor.rest.takeWhile (· != c) = front := by
      rw [rest_eq]
      exact takeWhile_front others (stopsAt_cons (by simp))
    have passes := passes_find find_eq
    rw [front_eq] at passes
    refine ⟨found, rfl, passes, ?_⟩
    have both := passes.rest_eq
    rw [rest_eq] at both
    exact (List.append_cancel_left both).symm

/-- Between two boundaries there is a passage from the earlier one to the later one. -/
theorem IsBoundary.exists_passes {first second : Cursor text} (left : first.IsBoundary)
    (right : second.IsBoundary) (le : first.offset ≤ second.offset) :
    ∃ front, first.Passes front second := by
  rcases left with ⟨short, short_eq, short_length⟩
  rcases right with ⟨long, long_eq, long_length⟩
  rcases exists_gap (short_eq.symm.trans long_eq) (by omega) with ⟨gap, rfl, rest_eq⟩
  refine ⟨gap, rest_eq, ?_⟩
  rw [← long_length, ← short_length, byteLength_append]

end Refill.Cursor
