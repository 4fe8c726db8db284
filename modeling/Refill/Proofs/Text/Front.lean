import Mathlib.Data.List.TakeWhile

/-!
# Fronts of a text

A front whose characters all satisfy a predicate is the longest one if the character
behind it does not. A part of a text has its place on one side of a seam of the text,
or it is cut by the seam (`side_of_append_eq`).
-/

namespace Refill.Text

variable {holds : Char → Bool} {front back text : List Char}

/-- The predicate does not hold of the first character, if there is one. -/
def StopsAt (holds : Char → Bool) (text : List Char) : Prop :=
  ∀ c, text.head? = some c → holds c = false

theorem stopsAt_nil : StopsAt holds [] := by
  intro c head_eq
  cases head_eq

theorem stopsAt_cons {c : Char} {rest : List Char} (fails : holds c = false) :
    StopsAt holds (c :: rest) := by
  intro d head_eq
  cases head_eq
  exact fails

theorem StopsAt.append (stops : StopsAt holds front) (nonempty : front ≠ []) (back : List Char) :
    StopsAt holds (front ++ back) := by
  cases front with
  | nil => exact absurd rfl nonempty
  | cons c rest => exact stops

theorem StopsAt.of_append (stops : StopsAt holds (front ++ back)) : StopsAt holds front := by
  intro c head_eq
  apply stops c
  rw [List.head?_append, head_eq, Option.some_or]

theorem stopsAt_dropWhile (holds : Char → Bool) (text : List Char) :
    StopsAt holds (text.dropWhile holds) := by
  intro c head_eq
  have fails := List.head?_dropWhile_not holds text
  simpa [head_eq] using fails

theorem holds_of_mem_takeWhile {c : Char} (mem : c ∈ text.takeWhile holds) : holds c :=
  List.mem_takeWhile_imp mem

theorem takeWhile_front (inside : ∀ c ∈ front, holds c) (outside : StopsAt holds back) :
    (front ++ back).takeWhile holds = front := by
  rw [List.takeWhile_append_of_pos inside]
  cases back with
  | nil => simp
  | cons c rest => simp [outside c rfl]

theorem dropWhile_front (inside : ∀ c ∈ front, holds c) (outside : StopsAt holds back) :
    (front ++ back).dropWhile holds = back := by
  rw [List.dropWhile_append_of_pos inside]
  cases back with
  | nil => rfl
  | cons c rest => simp [outside c rfl]

theorem getLast?_append {back : List Char} (front : List Char) (nonempty : back ≠ []) :
    (front ++ back).getLast? = back.getLast? := by
  rw [List.getLast?_append]
  cases last_eq : back.getLast? with
  | none => exact absurd (List.getLast?_eq_none_iff.mp last_eq) nonempty
  | some c => rfl

/-- A part of two texts side by side lies in the first, or in the second, or across the seam. -/
theorem side_of_append_eq {before part behind : List Char}
    (text_eq : front ++ back = before ++ (part ++ behind)) :
    (∃ rest, front = before ++ (part ++ rest) ∧ behind = rest ++ back) ∨
      (∃ rest, before = front ++ rest ∧ back = rest ++ (part ++ behind)) ∨
      ∃ left right, part = left ++ right ∧ left ≠ [] ∧ right ≠ [] ∧ front = before ++ left ∧
        back = right ++ behind := by
  rcases List.append_eq_append_iff.mp text_eq with
    ⟨rest, before_eq, back_eq⟩ | ⟨left, front_eq, rest_eq⟩
  · exact Or.inr (Or.inl ⟨rest, before_eq, back_eq⟩)
  rcases List.append_eq_append_iff.mp rest_eq with
    ⟨rest, left_eq, behind_eq⟩ | ⟨right, part_eq, back_eq⟩
  · exact Or.inl ⟨rest, by rw [front_eq, left_eq], behind_eq⟩
  by_cases leftEmpty : left = []
  · exact Or.inr (Or.inl ⟨[], by simp [front_eq, leftEmpty], by simp [back_eq, part_eq, leftEmpty]⟩)
  by_cases rightEmpty : right = []
  · exact Or.inl ⟨[], by simp [front_eq, part_eq, rightEmpty], by simp [back_eq, rightEmpty]⟩
  · exact Or.inr (Or.inr ⟨left, right, part_eq, leftEmpty, rightEmpty, front_eq, back_eq⟩)

end Refill.Text
