/-!
# Byte offsets

Places in a text are counted in bytes of its UTF-8 form. An offset that lies
inside a character or beyond the end leaves nothing: `dropBytes` is then empty.
-/

namespace Refill.Text

def byteLength : List Char → Nat
  | [] => 0
  | c :: rest => c.utf8Size + byteLength rest

/-- What is left of the text after so many bytes; nothing when no character begins there. -/
def dropBytes : Nat → List Char → List Char
  | 0, text => text
  | _ + 1, [] => []
  | count + 1, c :: rest =>
      if c.utf8Size ≤ count + 1 then dropBytes (count + 1 - c.utf8Size) rest else []

/-- The characters that lie wholly within the first so many bytes. -/
def takeBytes : Nat → List Char → List Char
  | 0, _ => []
  | _ + 1, [] => []
  | count + 1, c :: rest =>
      if c.utf8Size ≤ count + 1 then c :: takeBytes (count + 1 - c.utf8Size) rest else []

@[simp]
theorem byteLength_nil : byteLength [] = 0 := rfl

@[simp]
theorem byteLength_cons (c : Char) (rest : List Char) :
    byteLength (c :: rest) = c.utf8Size + byteLength rest := rfl

@[simp]
theorem byteLength_append (front back : List Char) :
    byteLength (front ++ back) = byteLength front + byteLength back := by
  induction front with
  | nil => simp
  | cons c rest ih => simp [ih, Nat.add_assoc]

theorem byteLength_eq_zero_iff {text : List Char} : byteLength text = 0 ↔ text = [] := by
  cases text with
  | nil => simp
  | cons c rest =>
    have := c.utf8Size_pos
    simp only [byteLength_cons, reduceCtorEq, iff_false]
    omega

/-- Of two places in a text the earlier one parts what stands before the later one. -/
theorem exists_gap {front back before behind : List Char}
    (same : front ++ back = before ++ behind) (le : byteLength front ≤ byteLength before) :
    ∃ gap, before = front ++ gap ∧ back = gap ++ behind := by
  rcases List.append_eq_append_iff.mp same with ⟨gap, before_eq, back_eq⟩ | ⟨gap, front_eq, behind_eq⟩
  · exact ⟨gap, before_eq, back_eq⟩
  · have nothing : gap = [] := by
      rw [← byteLength_eq_zero_iff]
      rw [front_eq, byteLength_append] at le
      omega
    exact ⟨[], by simp [front_eq, nothing], by simp [behind_eq, nothing]⟩

@[simp]
theorem dropBytes_zero (text : List Char) : dropBytes 0 text = text := by
  cases text <;> rfl

@[simp]
theorem dropBytes_nil (count : Nat) : dropBytes count [] = [] := by
  cases count <;> rfl

theorem dropBytes_cons (count : Nat) (c : Char) (rest : List Char) :
    dropBytes (c.utf8Size + count) (c :: rest) = dropBytes count rest := by
  have positive : 0 < c.utf8Size := c.utf8Size_pos
  obtain ⟨size, size_eq⟩ : ∃ size, c.utf8Size = size + 1 := ⟨c.utf8Size - 1, by omega⟩
  rw [size_eq, show size + 1 + count = size + count + 1 by omega, dropBytes, size_eq,
    if_pos (by omega)]
  congr 1
  omega

/-- Passing over a text's own bytes leaves what follows it. -/
@[simp]
theorem dropBytes_append (front back : List Char) :
    dropBytes (byteLength front) (front ++ back) = back := by
  induction front with
  | nil => simp
  | cons c rest ih => simp [dropBytes_cons, ih]

theorem dropBytes_add_append (count : Nat) (front back : List Char) :
    dropBytes (byteLength front + count) (front ++ back) = dropBytes count back := by
  induction front with
  | nil => simp
  | cons c rest ih => simp [Nat.add_assoc, dropBytes_cons, ih]

theorem length_dropBytes_le (count : Nat) (text : List Char) :
    (dropBytes count text).length ≤ text.length := by
  induction text generalizing count with
  | nil => simp
  | cons c rest ih =>
    cases count with
    | zero => simp
    | succ count =>
      simp only [dropBytes, List.length_cons]
      split
      · exact Nat.le_succ_of_le (ih _)
      · simp

/-- An offset that leaves something is the length of a front of the text. -/
theorem exists_of_dropBytes_ne_nil {count : Nat} {text : List Char}
    (left : dropBytes count text ≠ []) :
    ∃ front, text = front ++ dropBytes count text ∧ byteLength front = count := by
  induction text generalizing count with
  | nil => simp at left
  | cons c rest ih =>
    cases count with
    | zero => exact ⟨[], by simp⟩
    | succ count =>
      by_cases fits : c.utf8Size ≤ count + 1
      · simp only [dropBytes, if_pos fits] at left ⊢
        obtain ⟨front, rest_eq, length_eq⟩ := ih left
        refine ⟨c :: front, by simpa using rest_eq, ?_⟩
        simp [length_eq]
        omega
      · simp [dropBytes, fits] at left

/-- From a place that leaves something, going further can start at that place. -/
theorem dropBytes_add {place count : Nat} {text : List Char}
    (left : dropBytes place text ≠ []) :
    dropBytes (place + count) text = dropBytes count (dropBytes place text) := by
  obtain ⟨front, text_eq, length_eq⟩ := exists_of_dropBytes_ne_nil left
  calc dropBytes (place + count) text
      = dropBytes (byteLength front + count) (front ++ dropBytes place text) := by
        rw [← text_eq, length_eq]
    _ = dropBytes count (dropBytes place text) := dropBytes_add_append ..

@[simp]
theorem takeBytes_append (front back : List Char) :
    takeBytes (byteLength front) (front ++ back) = front := by
  induction front with
  | nil => simp [takeBytes]
  | cons c rest ih =>
    have positive : 0 < c.utf8Size := c.utf8Size_pos
    obtain ⟨size, size_eq⟩ : ∃ size, c.utf8Size = size + 1 := ⟨c.utf8Size - 1, by omega⟩
    rw [byteLength_cons, size_eq, List.cons_append,
      show size + 1 + byteLength rest = size + byteLength rest + 1 by omega, takeBytes, size_eq,
      if_pos (by omega), show size + byteLength rest + 1 - (size + 1) = byteLength rest by omega,
      ih]

end Refill.Text
