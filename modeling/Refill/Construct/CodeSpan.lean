import Refill.Construct

/-!
# Code spans

A run of backticks opens a code span when a run of the same length comes later; the
first such run closes it, and runs of other lengths between the two are content. A run
that nothing closes is passed over whole, so it is not opened again in its middle.
-/

namespace Refill.CodeSpan

variable {text : List Char}

/-- The place behind the next run of exactly `fence` backticks. -/
def closing (fence : Nat) (cursor : Cursor text) : Option (Cursor text) :=
  match found : cursor.find '`' with
  | none => none
  | some run =>
      have := Cursor.length_rest_find_le found
      have := Cursor.length_rest_skipRun_lt (Cursor.peek_of_find found)
      if run.runLength '`' = fence then some (run.skipRun '`')
      else closing fence (run.skipRun '`')
termination_by cursor.rest.length

theorem length_rest_closing_le {fence : Nat} {cursor closed : Cursor text}
    (closing_eq : closing fence cursor = some closed) :
    closed.rest.length ≤ cursor.rest.length := by
  fun_induction closing fence cursor with
  | case1 => cases closing_eq
  | case2 cursor run found run_le run_lt =>
    cases closing_eq
    omega
  | case3 cursor run found run_le run_lt other ih =>
    have := ih closing_eq
    omega

def look (_memo : Unit) (cursor : Cursor text) : Scanner.Finding text Unit :=
  if cursor.peek = some '`' then
    let opened := cursor.skipRun '`'
    match closing (cursor.runLength '`') opened with
    | none => .nothing opened ()
    | some closed =>
        let stop := closed.skipWhile isTrailing
        .construct (.codeSpan (cursor.textTo stop)) stop ()
  else
    .nothing cursor.next ()

def scanner : Scanner where
  Memo _ := Unit
  initial _ := ()
  look := look
  advances := by
    intro text _ cursor left
    unfold look
    split
    next tick =>
      have opened_lt := Cursor.length_rest_skipRun_lt tick
      dsimp only
      split
      · exact opened_lt
      next closed closing_eq =>
        have closed_le := length_rest_closing_le closing_eq
        have stop_le := closed.length_rest_skipWhile_le isTrailing
        simp only [Scanner.Finding.next]
        omega
    · exact Cursor.length_rest_next_lt left

end Refill.CodeSpan
