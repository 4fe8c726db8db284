import Refill.Construct

/-!
# Break tags

The tags that break a line are `<br>`, `<br/>` and `<br />`, in upper or lower case.
-/

namespace Refill.BreakTag

variable {text : List Char}

def skipSlash (cursor : Cursor text) : Cursor text :=
  if cursor.startsWith [' ', '/'] then cursor.advance 2
  else if cursor.startsWith ['/'] then cursor.advance 1
  else cursor

theorem length_rest_skipSlash_le (cursor : Cursor text) :
    (skipSlash cursor).rest.length ≤ cursor.rest.length := by
  unfold skipSlash
  split
  next starts =>
    refine Cursor.length_rest_advance_le ?_ 2
    rintro empty
    simp [Cursor.startsWith, empty] at starts
  · split
    next starts =>
      refine Cursor.length_rest_advance_le ?_ 1
      rintro empty
      simp [Cursor.startsWith, empty] at starts
    · exact Nat.le_refl _

def look (_memo : Unit) (cursor : Cursor text) : Scanner.Finding text Unit :=
  if cursor.startsWithIgnoringCase ['<', 'b', 'r'] then
    let closing := skipSlash (cursor.advance 3)
    if closing.peek = some '>' then
      .construct (.breakTag (cursor.textTo closing.next)) closing.next ()
    else
      .nothing cursor.next ()
  else
    .nothing cursor.next ()

def scanner : Scanner where
  Memo _ := Unit
  initial _ := ()
  look := look
  advances := by
    intro text _ cursor left
    unfold look
    split
    · dsimp only
      split
      next close =>
        have named_le := Cursor.length_rest_advance_le left 3
        have slash_le := length_rest_skipSlash_le (cursor.advance 3)
        have closing_lt : (skipSlash (cursor.advance 3)).next.rest.length <
            (skipSlash (cursor.advance 3)).rest.length := by
          apply Cursor.length_rest_next_lt
          intro empty
          simp [Cursor.peek, empty] at close
        simp only [Scanner.Finding.next]
        omega
      · exact Cursor.length_rest_next_lt left
    · exact Cursor.length_rest_next_lt left

end Refill.BreakTag
