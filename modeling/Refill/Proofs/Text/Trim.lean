import Refill.Proofs.Text.Front
import Refill.Text.Blank

/-!
# Trimming

A text is a run of blanks, a part that neither begins nor ends with a blank, and
another run of blanks. `Tight` says that nothing is left to trim; `leading_append`
puts a text together again, and `trim_append` says that the three parts are unique.
-/

namespace Refill.Text

/-- All characters are blanks. -/
def Blank (text : List Char) : Prop :=
  ∀ c ∈ text, isBlank c

/-- There is something in the text, and no blank at either end. -/
structure Tight (text : List Char) : Prop where
  nonempty : text ≠ []
  starts : startsBlank text = false
  ends : endsBlank text = false

/-- The blanks that a text begins with. -/
def leading (text : List Char) : List Char :=
  text.takeWhile isBlank

/-- The blanks behind what is left after trimming. -/
def trailing (text : List Char) : List Char :=
  blankTail (trimStart text)

namespace Blank

theorem nil : Blank [] := by
  simp [Blank]

theorem append {front back : List Char} (left : Blank front) (right : Blank back) :
    Blank (front ++ back) := by
  intro c mem
  rcases List.mem_append.mp mem with mem | mem
  · exact left c mem
  · exact right c mem

theorem cons {c : Char} {rest : List Char} (first : isBlank c) (blank : Blank rest) :
    Blank (c :: rest) := by
  intro d mem
  rcases List.mem_cons.mp mem with rfl | mem
  · exact first
  · exact blank d mem

theorem tail {c : Char} {rest : List Char} (blank : Blank (c :: rest)) : Blank rest :=
  fun d mem => blank d (List.mem_cons_of_mem c mem)

theorem head {c : Char} {rest : List Char} (blank : Blank (c :: rest)) : isBlank c :=
  blank c List.mem_cons_self

theorem reverse {text : List Char} (blank : Blank text) : Blank text.reverse :=
  fun c mem => blank c (List.mem_reverse.mp mem)

theorem notMem {text : List Char} (blank : Blank text) {c : Char} (visible : isBlank c = false) :
    c ∉ text := by
  intro mem
  rw [blank c mem] at visible
  cases visible

theorem startsBlank_iff {text : List Char} (blank : Blank text) :
    startsBlank text ↔ text ≠ [] := by
  cases text with
  | nil => simp [startsBlank]
  | cons c rest => simp [startsBlank, blank.head]

theorem endsBlank_iff {text : List Char} (blank : Blank text) :
    endsBlank text ↔ text ≠ [] := by
  rw [endsBlank, List.getLast?_eq_head?_reverse]
  simpa [startsBlank] using blank.reverse.startsBlank_iff

end Blank

theorem blank_takeWhile (text : List Char) : Blank (text.takeWhile isBlank) :=
  List.all_eq_true.mp List.all_takeWhile

theorem blank_leading (text : List Char) : Blank (leading text) :=
  blank_takeWhile text

theorem blank_blankTail (text : List Char) : Blank (blankTail text) :=
  (blank_takeWhile _).reverse

theorem blank_trailing (text : List Char) : Blank (trailing text) :=
  blank_blankTail (trimStart text)

/-- A text is made of its leading blanks, what trimming leaves, and its trailing blanks. -/
theorem leading_append (text : List Char) : leading text ++ trim text ++ trailing text = text := by
  rw [List.append_assoc, trim, trailing, trimEnd_append_blankTail, leading, trimStart,
    List.takeWhile_append_dropWhile]

theorem dropWhile_append_of_blank {front : List Char} (blank : Blank front) (back : List Char) :
    (front ++ back).dropWhile isBlank = back.dropWhile isBlank :=
  List.dropWhile_append_of_pos blank

theorem takeWhile_append_of_blank {front : List Char} (blank : Blank front) (back : List Char) :
    (front ++ back).takeWhile isBlank = front ++ back.takeWhile isBlank :=
  List.takeWhile_append_of_pos blank

theorem dropWhile_eq_self {text : List Char} (starts : startsBlank text = false) :
    text.dropWhile isBlank = text := by
  cases text with
  | nil => rfl
  | cons c rest =>
    have visible : isBlank c = false := by simpa [startsBlank] using starts
    simp [visible]

theorem takeWhile_eq_nil {text : List Char} (starts : startsBlank text = false) :
    text.takeWhile isBlank = [] := by
  cases text with
  | nil => rfl
  | cons c rest =>
    have visible : isBlank c = false := by simpa [startsBlank] using starts
    simp [visible]

theorem startsBlank_reverse (text : List Char) : startsBlank text.reverse = endsBlank text := by
  rw [startsBlank, endsBlank, List.getLast?_eq_head?_reverse]

theorem startsBlank_append {front : List Char} (nonempty : front ≠ []) (back : List Char) :
    startsBlank (front ++ back) = startsBlank front := by
  cases front with
  | nil => exact absurd rfl nonempty
  | cons c rest => rfl

theorem endsBlank_append {back : List Char} (nonempty : back ≠ []) (front : List Char) :
    endsBlank (front ++ back) = endsBlank back := by
  rw [← startsBlank_reverse, ← startsBlank_reverse, List.reverse_append]
  exact startsBlank_append (by simpa using nonempty) _

/-- Before a visible character no blanks are left at the front. -/
theorem Blank.eq_nil_of_starts {front back : List Char} (blank : Blank front)
    (starts : startsBlank (front ++ back) = false) : front = [] := by
  by_contra nonempty
  rw [startsBlank_append nonempty, blank.startsBlank_iff.mpr nonempty] at starts
  cases starts

/-- Behind a visible character no blanks are left at the end. -/
theorem Blank.eq_nil_of_ends {front back : List Char} (blank : Blank back)
    (ends : endsBlank (front ++ back) = false) : back = [] := by
  by_contra nonempty
  rw [endsBlank_append nonempty, blank.endsBlank_iff.mpr nonempty] at ends
  cases ends

/-- What begins with a visible character stands behind the blanks before it. -/
theorem Blank.exists_behind {blanks rest front back : List Char} (blank : Blank blanks)
    (starts : startsBlank back = false) (text_eq : blanks ++ rest = front ++ back) :
    ∃ later, front = blanks ++ later ∧ rest = later ++ back := by
  rcases List.append_eq_append_iff.mp text_eq with
    ⟨later, front_eq, rest_eq⟩ | ⟨between, blanks_eq, back_eq⟩
  · exact ⟨later, front_eq, rest_eq⟩
  · have blankBetween : Blank between := fun c mem => blank c (by simp [blanks_eq, mem])
    rw [back_eq] at starts
    have empty : between = [] := blankBetween.eq_nil_of_starts starts
    subst empty
    exact ⟨[], by simpa using blanks_eq.symm, by simpa using back_eq.symm⟩

/-- What ends with a visible character stands before the blanks behind it. -/
theorem Blank.exists_before {blanks rest front back : List Char} (blank : Blank blanks)
    (ends : endsBlank front = false) (text_eq : rest ++ blanks = front ++ back) :
    ∃ earlier, rest = front ++ earlier ∧ back = earlier ++ blanks := by
  rcases List.append_eq_append_iff.mp text_eq with
    ⟨between, front_eq, blanks_eq⟩ | ⟨earlier, rest_eq, back_eq⟩
  · have blankBetween : Blank between := fun c mem => blank c (by simp [blanks_eq, mem])
    rw [front_eq] at ends
    have empty : between = [] := blankBetween.eq_nil_of_ends ends
    subst empty
    exact ⟨[], by simpa using front_eq.symm, by simpa using blanks_eq.symm⟩
  · exact ⟨earlier, rest_eq, back_eq⟩

theorem Tight.startsBlank_append_right {front : List Char} (tight : Tight front)
    (back : List Char) : startsBlank (front ++ back) = false := by
  rw [startsBlank_append tight.nonempty]
  exact tight.starts

theorem Tight.endsBlank_append_left {back : List Char} (tight : Tight back) (front : List Char) :
    endsBlank (front ++ back) = false := by
  rw [endsBlank_append tight.nonempty]
  exact tight.ends

theorem startsBlank_dropWhile (text : List Char) :
    startsBlank (text.dropWhile isBlank) = false := by
  have holds := List.head?_dropWhile_not isBlank text
  rw [startsBlank]
  cases head_eq : (text.dropWhile isBlank).head? with
  | none => rfl
  | some c => simpa [head_eq] using holds

theorem endsBlank_trimEnd (text : List Char) : endsBlank (trimEnd text) = false := by
  rw [← startsBlank_reverse, trimEnd, List.reverse_reverse]
  exact startsBlank_dropWhile _

theorem trimEnd_append_blank {text blanks : List Char} (ends : endsBlank text = false)
    (blank : Blank blanks) : trimEnd (text ++ blanks) = text := by
  rw [trimEnd, List.reverse_append, dropWhile_append_of_blank blank.reverse, dropWhile_eq_self,
    List.reverse_reverse]
  rw [startsBlank_reverse, ends]

theorem endsBlank_trim (text : List Char) : endsBlank (trim text) = false :=
  endsBlank_trimEnd (trimStart text)

theorem tight_trim {text : List Char} (left : trim text ≠ []) : Tight (trim text) where
  nonempty := left
  starts := by
    have starts := startsBlank_dropWhile text
    rw [← trimStart, ← trimEnd_append_blankTail (trimStart text), ← trim] at starts
    rwa [startsBlank_append left] at starts
  ends := endsBlank_trim text

namespace Tight

theorem reverse {text : List Char} (tight : Tight text) : Tight text.reverse where
  nonempty := by simpa using tight.nonempty
  starts := by rw [startsBlank_reverse]; exact tight.ends
  ends := by rw [← startsBlank_reverse, List.reverse_reverse]; exact tight.starts

theorem leading_append {text before after : List Char} (tight : Tight text)
    (blank : Blank before) : leading (before ++ text ++ after) = before := by
  rw [leading, List.append_assoc, takeWhile_append_of_blank blank, takeWhile_eq_nil,
    List.append_nil]
  exact tight.startsBlank_append_right after

theorem trimStart_append {text before after : List Char} (tight : Tight text)
    (blank : Blank before) : trimStart (before ++ text ++ after) = text ++ after := by
  rw [trimStart, List.append_assoc, dropWhile_append_of_blank blank]
  exact dropWhile_eq_self (tight.startsBlank_append_right after)

/-- Blanks around a text without blanks at its ends are what trimming takes away. -/
theorem trim_append {text before after : List Char} (tight : Tight text) (left : Blank before)
    (right : Blank after) : trim (before ++ text ++ after) = text := by
  rw [trim, tight.trimStart_append left, trimEnd, List.reverse_append,
    dropWhile_append_of_blank right.reverse, dropWhile_eq_self tight.reverse.starts,
    List.reverse_reverse]

/-- A part without blanks at its ends lies between the blanks around it. -/
theorem exists_between {before inner after front part behind : List Char} (tight : Tight part)
    (leftBlank : Blank before) (rightBlank : Blank after)
    (text_eq : before ++ (inner ++ after) = front ++ (part ++ behind)) :
    ∃ left right, inner = left ++ (part ++ right) ∧ front = before ++ left := by
  rcases leftBlank.exists_behind (tight.startsBlank_append_right behind) text_eq with
    ⟨left, front_eq, rest_eq⟩
  rw [← List.append_assoc] at rest_eq
  rcases rightBlank.exists_before (tight.endsBlank_append_left left) rest_eq with
    ⟨right, inner_eq, _⟩
  exact ⟨left, right, by simpa using inner_eq, front_eq⟩

end Tight

theorem trim_eq_nil_iff {text : List Char} : trim text = [] ↔ Blank text := by
  constructor
  · intro empty
    rw [← leading_append text, empty, List.append_nil]
    exact (blank_leading text).append (blank_trailing text)
  · intro blank
    have stripped : trimStart text = [] := by
      simpa [trimStart] using dropWhile_append_of_blank blank []
    simp [trim, stripped, trimEnd]

end Refill.Text
