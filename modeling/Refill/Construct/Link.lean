import Refill.Construct
import Refill.Cursor.Finder

/-!
# Links

A link is a label in square brackets and, right behind it, a destination in round or
square brackets. Nothing nests: the first closing bracket behind the opening one ends
the label, and the first one of its own kind ends the destination. Blanks before the
destination belong to neither.

Several opening brackets may share a label's end. What the scanner remembers makes the
search behind each of them cost nothing after the first.
-/

namespace Refill.Link

variable {text : List Char}

def destinationClose : Char → Option Char
  | '(' => some ')'
  | '[' => some ']'
  | _ => none

structure Gap (text : List Char) where
  origin : Cursor text
  behind : Cursor text
  behind_eq : behind = origin.skipWhile Text.isBlank

/-- What is remembered of a text: the searches for each closing bracket, and the latest gap. -/
structure Memo (text : List Char) where
  label : Finder text ']'
  inline : Finder text ')'
  reference : Finder text ']'
  gap : Option (Gap text)

namespace Memo

def initial : Memo text where
  label := .new
  inline := .new
  reference := .new
  gap := none

def labelEnd (memo : Memo text) (place : Cursor text) : Option (Cursor text) × Memo text :=
  let (found, label) := memo.label.find place
  (found, { memo with label })

def skipGap (memo : Memo text) (place : Cursor text) : Cursor text × Memo text :=
  match memo.gap.filter (·.origin.offset == place.offset) with
  | some gap => (gap.behind, memo)
  | none =>
      let gap : Gap text := ⟨place, _, rfl⟩
      (gap.behind, { memo with gap := some gap })

def destinationEnd (memo : Memo text) (close : Char) (place : Cursor text) :
    Option (Cursor text) × Memo text :=
  if close = ')' then
    let (found, inline) := memo.inline.find place
    (found, { memo with inline })
  else
    let (found, reference) := memo.reference.find place
    (found, { memo with reference })

theorem labelEnd_fst (memo : Memo text) (place : Cursor text) :
    (memo.labelEnd place).1 = (memo.label.find place).1 := rfl

theorem skipGap_fst (memo : Memo text) (place : Cursor text) :
    (memo.skipGap place).1 = place.skipWhile Text.isBlank := by
  unfold skipGap
  split
  next gap same =>
    obtain ⟨_, same⟩ := Option.filter_eq_some_iff.mp same
    have same : gap.origin.offset = place.offset := by simpa using same
    have origin_eq : gap.origin = place := by
      apply Cursor.ext same
      rw [gap.origin.rest_eq, place.rest_eq, same]
    rw [← origin_eq]
    exact gap.behind_eq
  · rfl

theorem length_rest_destinationEnd_le {memo : Memo text} {close : Char}
    {place found : Cursor text} (boundary : place.IsBoundary)
    (found_eq : (memo.destinationEnd close place).1 = some found) :
    found.rest.length ≤ place.rest.length := by
  unfold destinationEnd at found_eq
  split at found_eq
  · exact Finder.length_rest_find_le boundary found_eq
  · exact Finder.length_rest_find_le boundary found_eq

end Memo

structure Extent (text : List Char) where
  opened : Cursor text
  destination : Cursor text
  /-- The place behind the destination and its punctuation. -/
  stop : Cursor text

/-- The extent of the link whose label begins at the place, behind its bracket. -/
def extent (memo : Memo text) (place : Cursor text) : Option (Extent text) × Memo text :=
  match memo.labelEnd place with
  | (none, memo) => (none, memo)
  | (some labelEnd, memo) =>
      match labelEnd.next.peek.bind destinationClose with
      | none => (none, memo)
      | some close =>
          let opened := labelEnd.next.next
          let (destination, memo) := memo.skipGap opened
          match memo.destinationEnd close destination with
          | (none, memo) => (none, memo)
          | (some destinationEnd, memo) =>
              let stop := destinationEnd.next.skipWhile isTrailing
              (some { opened, destination, stop }, memo)

theorem length_rest_extent_le {memo : Memo text} {place : Cursor text} {found : Extent text}
    (boundary : place.IsBoundary) (extent_eq : (extent memo place).1 = some found) :
    found.stop.rest.length ≤ place.rest.length := by
  unfold extent at extent_eq
  split at extent_eq
  · cases extent_eq
  next labelEnd labelMemo labelEnd_eq =>
    split at extent_eq
    · cases extent_eq
    next close close_eq =>
      simp only at extent_eq
      split at extent_eq
      · cases extent_eq
      next destinationEnd endMemo end_eq =>
        have label_find : (memo.label.find place).1 = some labelEnd := by
          rw [← Memo.labelEnd_fst, labelEnd_eq]
        have label_le := Finder.length_rest_find_le boundary label_find
        have label_boundary := Cursor.isBoundary_of_peek (Finder.peek_of_find label_find)
        have gap_boundary := label_boundary.next.next.skipWhile Text.isBlank
        rw [Memo.skipGap_fst] at end_eq
        have end_le := Memo.length_rest_destinationEnd_le gap_boundary
          (congrArg Prod.fst end_eq)
        have := labelEnd.length_rest_next_le
        have := labelEnd.next.length_rest_next_le
        have := labelEnd.next.next.length_rest_skipWhile_le Text.isBlank
        have := destinationEnd.length_rest_next_le
        have := destinationEnd.next.length_rest_skipWhile_le isTrailing
        cases extent_eq
        simp only
        omega

def look (memo : Memo text) (cursor : Cursor text) : Scanner.Finding text (Memo text) :=
  if cursor.peek = some '[' then
    match extent memo cursor.next with
    | (none, memo) => .nothing cursor.next memo
    | (some found, memo) =>
        .construct
          (.link (cursor.textTo found.opened) (found.opened.textTo found.destination)
            (found.destination.textTo found.stop))
          found.stop memo
  else
    .nothing cursor.next memo

def scanner : Scanner where
  Memo := Memo
  initial _ := .initial
  look := look
  advances := by
    intro text memo cursor left
    have next_lt := Cursor.length_rest_next_lt left
    unfold look
    split
    · split
      · exact next_lt
      next found after extent_eq =>
        have boundary := (Cursor.isBoundary_of_rest_ne_nil left).next
        have stop_le := length_rest_extent_le boundary
          (by rw [extent_eq] : (extent memo cursor.next).1 = some found)
        simp only [Scanner.Finding.next]
        omega
    · exact next_lt

end Refill.Link
