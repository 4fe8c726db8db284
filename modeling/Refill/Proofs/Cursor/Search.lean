import Mathlib.Data.List.Forall2
import Refill.Cursor.Finder
import Refill.Proofs.Cursor.Passage
import Refill.Proofs.Document.Slice

/-!
# Remembered searches

A `Finder` that has only been asked about boundaries answers each question about a
boundary as a new search would. The stretch that the remembered search went over holds
no occurrence before the one it found, so a search from inside the stretch ends at the
same place. So, whatever it has been asked before, it answers with the next occurrence
(`answers_new`).
-/

namespace Refill.Finder

open Text

variable {text : List Char} {target : Char}

/-- What is remembered is a search from a boundary. -/
def Sound (finder : Finder text target) : Prop :=
  ∀ search, finder.latest = some search → search.origin.IsBoundary

theorem sound_new : (new : Finder text target).Sound := by
  intro search latest_eq
  cases latest_eq

theorem sound_find {finder : Finder text target} {place : Cursor text} (sound : finder.Sound)
    (boundary : place.IsBoundary) : (finder.find place).2.Sound := by
  unfold find
  split
  · exact sound
  · intro search latest_eq
    cases latest_eq
    exact boundary

/-- A search that went over a boundary found what a search from there finds. -/
theorem found_eq_find {search : Search text target} {place : Cursor text}
    (origin : search.origin.IsBoundary) (boundary : place.IsBoundary)
    (covered : covers search place) : search.found = place.find target := by
  simp only [covers, Bool.and_eq_true, decide_eq_true_eq] at covered
  rcases covered with ⟨origin_le, le_found⟩
  rcases origin.exists_passes boundary origin_le with ⟨front, toPlace⟩
  have found_eq := search.found_eq
  cases found : search.found with
  | none =>
    rw [found] at found_eq
    have missing := Cursor.find_eq_none_iff.mp found_eq.symm
    rw [toPlace.rest_eq] at missing
    symm
    exact Cursor.find_eq_none_iff.mpr fun mem => missing (List.mem_append_right front mem)
  | some stop =>
    rw [found] at found_eq le_found
    have le_stop : place.offset ≤ stop.offset := by simpa using le_found
    have stop_peek := Cursor.peek_of_find found_eq.symm
    rcases List.head?_eq_some_iff.mp stop_peek with ⟨back, stop_rest⟩
    rcases boundary.exists_passes (Cursor.isBoundary_of_peek stop_peek) le_stop with
      ⟨middle, toStop⟩
    -- What lies between the place and the occurrence was passed over by the search before.
    have skipped_eq : front ++ middle = search.origin.rest.takeWhile (· != target) := by
      have both : front ++ middle ++ stop.rest =
          search.origin.rest.takeWhile (· != target) ++ stop.rest := by
        rw [← (toPlace.trans toStop).rest_eq]
        exact (Cursor.passes_find found_eq.symm).rest_eq
      exact List.append_cancel_right both
    have first : target ∉ middle := by
      intro mem
      have skipped : target ∈ search.origin.rest.takeWhile (· != target) := by
        rw [← skipped_eq]
        exact List.mem_append_right front mem
      simpa using List.mem_takeWhile_imp skipped
    have place_rest : place.rest = middle ++ target :: back := by
      rw [toStop.rest_eq, stop_rest]
    rcases Cursor.exists_find place_rest first with ⟨again, again_eq, passes, again_rest⟩
    rw [again_eq]
    congr 1
    apply Cursor.ext
    · rw [toStop.offset_eq, passes.offset_eq]
    · rw [stop_rest, again_rest]

/-- Remembering changes no answer. -/
theorem find_fst {finder : Finder text target} {place : Cursor text} (sound : finder.Sound)
    (boundary : place.IsBoundary) : (finder.find place).1 = place.find target := by
  unfold find
  split
  next search latest =>
    rcases Option.filter_eq_some_iff.mp latest with ⟨latest_eq, covered⟩
    exact found_eq_find (sound search latest_eq) boundary covered
  · rfl

/-! ## Next occurrences -/

/-- The character begins at the offset. -/
def StandsAt (target : Char) (text : List Char) (offset : Nat) : Prop :=
  ∃ front back, text = front ++ target :: back ∧ byteLength front = offset

/-- The answer is the first offset from `start` on at which the character begins, or there is no such
offset. -/
def IsNext (target : Char) (text : List Char) (start : Nat) : Option Nat → Prop
  | none => ∀ offset, StandsAt target text offset → offset < start
  | some found => start ≤ found ∧ StandsAt target text found ∧
      ∀ offset, StandsAt target text offset → start ≤ offset → found ≤ offset

/-- The answers to questions that are asked one after the other, each about an offset. -/
def answers (finder : Finder text target) : List Nat → List (Option Nat)
  | [] => []
  | offset :: offsets =>
      let answer := finder.find (.seek text offset)
      answer.1.map Cursor.offset :: answer.2.answers offsets

theorem isBoundary_seek {offset : Nat} (boundary : isBoundary text offset) :
    (Cursor.seek text offset).IsBoundary := by
  rcases isBoundary_iff.mp boundary with ⟨front, back, rfl, rfl⟩
  exact ⟨front, by simp [Cursor.seek], rfl⟩

/-- An occurrence behind a boundary stands in what is left there. -/
theorem StandsAt.exists_gap {cursor : Cursor text} {offset : Nat} (stands : StandsAt target text offset)
    (boundary : cursor.IsBoundary) (le : cursor.offset ≤ offset) :
    ∃ gap back, cursor.rest = gap ++ target :: back ∧ offset = cursor.offset + byteLength gap := by
  rcases stands with ⟨front, back, text_eq, rfl⟩
  have rest_eq : (Cursor.seek text (byteLength front)).rest = target :: back := by
    simp [Cursor.seek, text_eq]
  have there : (Cursor.seek text (byteLength front)).IsBoundary :=
    ⟨front, by rw [rest_eq]; exact text_eq, rfl⟩
  rcases boundary.exists_passes there le with ⟨gap, passes⟩
  exact ⟨gap, back, by rw [passes.rest_eq, rest_eq], passes.offset_eq⟩

/-- A search from a boundary finds the next occurrence. -/
theorem isNext_find {cursor : Cursor text} (boundary : cursor.IsBoundary) :
    IsNext target text cursor.offset ((cursor.find target).map Cursor.offset) := by
  cases find_eq : cursor.find target with
  | none =>
    intro offset stands
    have missing := Cursor.find_eq_none_iff.mp find_eq
    by_contra notBefore
    rcases stands.exists_gap boundary (Nat.le_of_not_lt notBefore) with ⟨gap, back, rest_eq, _⟩
    exact missing (by simp [rest_eq])
  | some found =>
    have passes := Cursor.passes_find find_eq
    have others : target ∉ cursor.rest.takeWhile (· != target) := by
      intro skipped
      simpa using List.mem_takeWhile_imp skipped
    generalize cursor.rest.takeWhile (· != target) = front at passes others
    rcases passes.isBoundary boundary with ⟨before, text_eq, length_eq⟩
    rcases List.head?_eq_some_iff.mp (Cursor.peek_of_find find_eq) with ⟨later, found_rest⟩
    refine ⟨?_, ⟨before, later, by rw [← found_rest]; exact text_eq, length_eq⟩, ?_⟩
    · rw [passes.offset_eq]
      exact Nat.le_add_right _ _
    · intro offset stands le
      rcases stands.exists_gap boundary le with ⟨gap, back, rest_eq, rfl⟩
      have both := passes.rest_eq
      rw [rest_eq] at both
      rw [passes.offset_eq, Nat.add_le_add_iff_left]
      rcases List.append_eq_append_iff.mp both with
        ⟨excess, front_eq, behind_eq⟩ | ⟨more, gap_eq, _⟩
      · -- what was passed over holds no occurrence, so it does not reach beyond the one at `offset`
        cases excess with
        | nil => simp [front_eq]
        | cons c excess =>
          cases (List.cons.inj behind_eq).1
          exact absurd (by simp [front_eq]) others
      · simp [gap_eq]

theorem answers_of_sound {finder : Finder text target} {offsets : List Nat} (sound : finder.Sound)
    (boundaries : ∀ offset ∈ offsets, isBoundary text offset) :
    List.Forall₂ (IsNext target text) offsets (finder.answers offsets) := by
  induction offsets generalizing finder with
  | nil => exact .nil
  | cons offset offsets ih =>
    have boundary := isBoundary_seek (boundaries offset (by simp))
    have later := ih (sound_find sound boundary) fun other mem => boundaries other (by simp [mem])
    simp only [answers, find_fst sound boundary]
    exact .cons (isNext_find boundary) later

/-- Whatever it has been asked before, a finder answers with the next occurrence. -/
theorem answers_new {text : List Char} {target : Char} {offsets : List Nat}
    (boundaries : ∀ offset ∈ offsets, isBoundary text offset) :
    List.Forall₂ (IsNext target text) offsets ((new : Finder text target).answers offsets) :=
  answers_of_sound sound_new boundaries

/-- Questions that go back and forth in a text with characters of one, two and four bytes. -/
theorem answers_new_backwards :
    (∀ offset ∈ [6, 0, 4, 5, 11, 3, 0], isBoundary "aé]b]🦀]".toList offset) ∧
      List.Forall₂ (IsNext ']' "aé]b]🦀]".toList) [6, 0, 4, 5, 11, 3, 0]
        [some 10, some 3, some 5, some 5, none, some 3, some 3] := by
  have boundaries : ∀ offset ∈ [6, 0, 4, 5, 11, 3, 0], isBoundary "aé]b]🦀]".toList offset := by
    decide
  have answers_eq : (new : Finder "aé]b]🦀]".toList ']').answers [6, 0, 4, 5, 11, 3, 0] =
      [some 10, some 3, some 5, some 5, none, some 3, some 3] := by
    decide
  refine ⟨boundaries, ?_⟩
  rw [← answers_eq]
  exact answers_new boundaries

end Refill.Finder
