import Refill.Text.Bytes

/-!
# Cursors

A cursor is a place in a text, counted in bytes. It keeps what is left of the
text from there on, so that looking at the next character and passing over it cost
nothing; the field `rest_eq` says that this is always what the offset leaves.

An offset beyond the end, or inside a character, is allowed: nothing is left there.
All other places are boundaries (`IsBoundary`). Every move is either a jump to an
offset (`seek`, `advance`) or passes over a front of what is left (`pass`), and `pass`
leads from one boundary to another.
-/

namespace Refill

open Text

/-- A place in the text. -/
@[ext]
structure Cursor (text : List Char) where
  /-- The number of bytes before the place. -/
  offset : Nat
  /-- What is left of the text from the place on. -/
  rest : List Char
  rest_eq : rest = dropBytes offset text

namespace Cursor

variable {text : List Char}

def start (text : List Char) : Cursor text where
  offset := 0
  rest := text
  rest_eq := by simp

/-- The place with a given offset. -/
def seek (text : List Char) (offset : Nat) : Cursor text where
  offset := offset
  rest := dropBytes offset text
  rest_eq := rfl

def finish (text : List Char) : Cursor text :=
  seek text (byteLength text)

def atEnd (cursor : Cursor text) : Bool :=
  byteLength text ≤ cursor.offset

def advance (cursor : Cursor text) (count : Nat) : Cursor text :=
  if left : cursor.rest = [] then
    seek text (cursor.offset + count)
  else
    { offset := cursor.offset + count
      rest := dropBytes count cursor.rest
      rest_eq := by
        rw [cursor.rest_eq] at left ⊢
        exact (dropBytes_add left).symm }

/-- The place behind `front`, with which the rest begins. -/
def pass (cursor : Cursor text) (front back : List Char) (rest_eq : cursor.rest = front ++ back) :
    Cursor text where
  offset := cursor.offset + byteLength front
  rest := back
  rest_eq := by
    by_cases left : dropBytes cursor.offset text = []
    · have both : front ++ back = [] := by rw [← rest_eq, cursor.rest_eq, left]
      have front_eq : front = [] := List.append_eq_nil_iff.mp both |>.1
      have back_eq : back = [] := List.append_eq_nil_iff.mp both |>.2
      simp [front_eq, back_eq, left]
    · rw [dropBytes_add left, ← cursor.rest_eq, rest_eq, dropBytes_append]

def peek (cursor : Cursor text) : Option Char :=
  cursor.rest.head?

def next (cursor : Cursor text) : Cursor text :=
  match rest_eq : cursor.rest with
  | [] => cursor
  | c :: rest => cursor.pass [c] rest rest_eq

def startsWith (cursor : Cursor text) (pattern : List Char) : Bool :=
  pattern.isPrefixOf cursor.rest

/-- Whether the rest begins with the pattern, upper and lower case ASCII letters being alike. -/
def startsWithIgnoringCase (cursor : Cursor text) (pattern : List Char) : Bool :=
  (cursor.rest.take pattern.length).map Char.toLower == pattern.map Char.toLower

def skipWhile (cursor : Cursor text) (holds : Char → Bool) : Cursor text :=
  cursor.pass (cursor.rest.takeWhile holds) (cursor.rest.dropWhile holds)
    List.takeWhile_append_dropWhile.symm

def runLength (cursor : Cursor text) (c : Char) : Nat :=
  (cursor.rest.takeWhile (· == c)).length

def skipRun (cursor : Cursor text) (c : Char) : Cursor text :=
  cursor.skipWhile (· == c)

def find (cursor : Cursor text) (c : Char) : Option (Cursor text) :=
  let found := cursor.skipWhile (· != c)
  if found.rest.isEmpty then none else some found

def textTo (first second : Cursor text) : List Char :=
  takeBytes (second.offset - first.offset) first.rest

/-! ## Boundaries -/

/-- The place lies at the beginning of a character, or at the end of the text. -/
def IsBoundary (cursor : Cursor text) : Prop :=
  ∃ front, text = front ++ cursor.rest ∧ byteLength front = cursor.offset

theorem isBoundary_start : (start text).IsBoundary :=
  ⟨[], rfl, rfl⟩

theorem isBoundary_of_rest_ne_nil {cursor : Cursor text} (left : cursor.rest ≠ []) :
    cursor.IsBoundary := by
  have rest_eq := cursor.rest_eq
  rw [rest_eq] at left
  obtain ⟨front, text_eq, length_eq⟩ := exists_of_dropBytes_ne_nil left
  exact ⟨front, by rw [rest_eq]; exact text_eq, length_eq⟩

theorem isBoundary_of_peek {cursor : Cursor text} {c : Char} (peek_eq : cursor.peek = some c) :
    cursor.IsBoundary := by
  apply isBoundary_of_rest_ne_nil
  intro empty
  simp [peek, empty] at peek_eq

namespace IsBoundary

theorem pass {cursor : Cursor text} (boundary : cursor.IsBoundary) {front back : List Char}
    (rest_eq : cursor.rest = front ++ back) : (cursor.pass front back rest_eq).IsBoundary := by
  obtain ⟨before, text_eq, length_eq⟩ := boundary
  refine ⟨before ++ front, text_eq.trans ?_, by simp [length_eq, Cursor.pass]⟩
  rw [rest_eq, List.append_assoc]
  rfl

theorem next {cursor : Cursor text} (boundary : cursor.IsBoundary) : cursor.next.IsBoundary := by
  unfold Cursor.next
  split
  · exact boundary
  · exact boundary.pass _

theorem skipWhile {cursor : Cursor text} (boundary : cursor.IsBoundary) (holds : Char → Bool) :
    (cursor.skipWhile holds).IsBoundary :=
  boundary.pass _

/-- Of two boundaries the later one leaves a part of what the earlier one leaves. -/
theorem length_rest_le {first second : Cursor text} (left : first.IsBoundary)
    (right : second.IsBoundary) (le : first.offset ≤ second.offset) :
    second.rest.length ≤ first.rest.length := by
  obtain ⟨front, front_eq, front_length⟩ := left
  obtain ⟨long, long_eq, long_length⟩ := right
  obtain ⟨gap, -, rest_eq⟩ := exists_gap (front_eq.symm.trans long_eq) (by omega)
  simp [rest_eq]

end IsBoundary

/-! ## Progress -/

theorem length_rest_next_lt {cursor : Cursor text} (left : cursor.rest ≠ []) :
    cursor.next.rest.length < cursor.rest.length := by
  unfold next
  split
  next rest_eq => exact absurd rest_eq left
  next c rest rest_eq => simp [pass, rest_eq]

theorem length_rest_next_le (cursor : Cursor text) :
    cursor.next.rest.length ≤ cursor.rest.length := by
  by_cases left : cursor.rest = []
  · unfold next
    split
    · exact Nat.le_refl _
    next c rest rest_eq => simp [rest_eq] at left
  · exact Nat.le_of_lt (length_rest_next_lt left)

theorem length_rest_skipWhile_le (cursor : Cursor text) (holds : Char → Bool) :
    (cursor.skipWhile holds).rest.length ≤ cursor.rest.length :=
  List.Sublist.length_le (List.dropWhile_sublist holds)

theorem length_rest_skipRun_lt {cursor : Cursor text} {c : Char}
    (peek_eq : cursor.peek = some c) :
    (cursor.skipRun c).rest.length < cursor.rest.length := by
  obtain ⟨rest, rest_eq⟩ := List.head?_eq_some_iff.mp peek_eq
  have shorter := List.Sublist.length_le (rest.dropWhile_sublist (· == c))
  simp only [skipRun, skipWhile, pass, rest_eq, List.dropWhile_cons, beq_self_eq_true, if_true,
    List.length_cons]
  omega

theorem peek_of_find {cursor found : Cursor text} {c : Char}
    (find_eq : cursor.find c = some found) : found.peek = some c := by
  simp only [find] at find_eq
  split at find_eq
  · cases find_eq
  next nonempty =>
    cases find_eq
    have holds := List.head?_dropWhile_not (· != c) cursor.rest
    simp only [skipWhile, pass, peek] at nonempty holds ⊢
    cases rest_eq : cursor.rest.dropWhile (· != c) with
    | nil => simp [rest_eq] at nonempty
    | cons d rest => simpa [rest_eq] using holds

theorem length_rest_find_le {cursor found : Cursor text} {c : Char}
    (find_eq : cursor.find c = some found) : found.rest.length ≤ cursor.rest.length := by
  simp only [find] at find_eq
  split at find_eq
  · cases find_eq
  · cases find_eq
    exact cursor.length_rest_skipWhile_le _

theorem length_rest_advance_le {cursor : Cursor text} (left : cursor.rest ≠ []) (count : Nat) :
    (cursor.advance count).rest.length ≤ cursor.rest.length := by
  simp only [advance, left, dite_false]
  exact length_dropBytes_le count cursor.rest

end Cursor

end Refill
