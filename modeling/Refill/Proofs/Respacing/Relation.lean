import Refill.Proofs.Tiling.Padding
import Refill.Proofs.Tiling.Seam

/-!
# Respaced texts

Two texts that show the same characters may differ in the blanks between them. `Respaced`
says how much they may do so without a code span or a link coming or going: blanks may be
exchanged for others, new ones may come in where the border lets two characters part, and
blanks vanish only behind a bracket that may open a destination.

The relation goes from left to right and carries the character before and behind the
text, so that it can be composed (`Respaced.append`).
-/

namespace Refill

open Text

/-- Between the two characters, the second blanks may stand in place of the first. -/
structure Replaces (border : Border) (before : Option Char) (next : Char)
    (gap other : List Char) : Prop where
  blank : Blank gap
  blank_other : Blank other
  remains : gap ≠ [] → before ≠ some '(' → before ≠ some '[' → other ≠ []
  apart : gap = [] → other ≠ [] → ∀ last, before = some last → border last next

/-- The texts show the same characters behind `before`, and end with `after`. -/
inductive Respaced (border : Border) :
    Option Char → List Char → List Char → Option Char → Prop
  | nil (before : Option Char) : Respaced border before [] [] before
  | cons {before after : Option Char} {next : Char} {gap other text more : List Char}
      (visible : isBlank next = false) (replaces : Replaces border before next gap other)
      (rest : Respaced border (some next) text more after) :
      Respaced border before (gap ++ next :: text) (other ++ next :: more) after

namespace Respaced

variable {border : Border} {before middle after : Option Char}
  {text other later further : List Char}

theorem append (front : Respaced border before text other middle)
    (back : Respaced border middle later further after) :
    Respaced border before (text ++ later) (other ++ further) after := by
  induction front with
  | nil before => exact back
  | cons visible replaces _ ih =>
    rw [List.append_assoc, List.append_assoc]
    exact .cons visible replaces (ih back)

theorem mono {wider : Border} (weaker : ∀ last next, border last next → wider last next)
    (respaced : Respaced border before text other after) :
    Respaced wider before text other after := by
  induction respaced with
  | nil before => exact .nil before
  | cons visible replaces _ ih =>
    refine .cons visible ⟨replaces.blank, replaces.blank_other, replaces.remains, ?_⟩ ih
    intro glued opened last before_eq
    exact weaker _ _ (replaces.apart glued opened last before_eq)

/-! ## Ends -/

theorem after_eq (respaced : Respaced border before text other after) :
    after = text.getLast?.or before := by
  induction respaced with
  | nil before => rfl
  | @cons before after next gap other text more _ _ _ ih =>
    rw [ih, getLast?_append _ (by simp), List.getLast?_cons]
    cases text.getLast? <;> rfl

theorem nil_iff (respaced : Respaced border before text other after) : text = [] ↔ other = [] := by
  cases respaced with
  | nil before => simp
  | cons visible replaces rest => simp

theorem getLast?_eq (respaced : Respaced border before text other after) :
    other.getLast? = text.getLast? := by
  induction respaced with
  | nil before => rfl
  | @cons before after next gap other text more _ _ _ ih =>
    rw [getLast?_append _ (by simp), getLast?_append _ (by simp), List.getLast?_cons,
      List.getLast?_cons, ih]

theorem endsBlank_eq (respaced : Respaced border before text other after) : endsBlank other = false := by
  induction respaced with
  | nil before => rfl
  | @cons before after next gap other text more visible _ rest ih =>
    rw [endsBlank_append (by simp)]
    by_cases empty : more = []
    · simp [endsBlank, empty, visible]
    · rw [show next :: more = [next] ++ more from rfl, endsBlank_append empty]
      exact ih

/-- The text begins as the other one does if that shows something at once. -/
theorem head?_eq {c : Char} (respaced : Respaced border before text other after)
    (inline : before ≠ some '(') (reference : before ≠ some '[')
    (head_eq : other.head? = some c) (visible : isBlank c = false) : text.head? = some c := by
  cases respaced with
  | nil before => exact head_eq
  | @cons _ _ next gap other text more _ replaces _ =>
    have closed : other = [] := by
      by_contra nonempty
      rw [List.head?_append_of_ne_nil _ nonempty] at head_eq
      rw [replaces.blank_other c (List.mem_of_mem_head? head_eq)] at visible
      cases visible
    have gap_eq : gap = [] := by
      by_contra nonempty
      exact replaces.remains nonempty inline reference closed
    rw [closed] at head_eq
    rw [gap_eq]
    exact head_eq

/-! ## What is visible -/

theorem mem_iff {c : Char} (respaced : Respaced border before text other after)
    (visible : isBlank c = false) : c ∈ other ↔ c ∈ text := by
  induction respaced with
  | nil before => rfl
  | cons _ replaces _ ih =>
    simp [replaces.blank.notMem visible, replaces.blank_other.notMem visible, ih]

/-- A text that does not end with a blank is respaced as it is. -/
theorem refl (text : List Char) (before : Option Char) (ends : endsBlank text = false) :
    Respaced border before text text (text.getLast?.or before) := by
  suffices ∀ gap, Blank gap → (text = [] → gap = []) →
      Respaced border before (gap ++ text) (gap ++ text) (text.getLast?.or before) by
    simpa using this [] Blank.nil fun _ => rfl
  induction text generalizing before with
  | nil =>
    intro gap _ empty
    rw [empty rfl]
    exact .nil before
  | cons c rest ih =>
    intro gap blank _
    have restEnds : endsBlank rest = false := by
      by_cases empty : rest = []
      · simp [endsBlank, empty]
      · rwa [← List.singleton_append, endsBlank_append empty] at ends
    by_cases first : isBlank c
    · have nonempty : rest ≠ [] := by
        rintro rfl
        simp [endsBlank, first] at ends
      have whole := ih before restEnds (gap ++ [c]) (blank.append (.cons first Blank.nil))
        fun empty => absurd empty nonempty
      rw [List.getLast?_cons_of_ne_nil nonempty]
      simpa using whole
    · have visible : isBlank c = false := by simpa using first
      have after_eq : (c :: rest).getLast?.or before = rest.getLast?.or (some c) := by
        rw [List.getLast?_cons]
        cases rest.getLast? <;> rfl
      rw [after_eq]
      refine .cons visible ⟨blank, blank, fun nonempty _ _ => nonempty, fun glued opened => absurd glued opened⟩ ?_
      simpa using ih (some c) restEnds [] Blank.nil fun _ => rfl

end Respaced

/-! ## Runs of backticks -/

namespace CodeSpan

theorem runsFrom_positive {gap text : List Char} {next : Char} {count : Nat} (blank : Blank gap)
    (positive : 0 < count) (plain : gap = [] → next ≠ '`') :
    runsFrom count (gap ++ next :: text) = count :: runs (next :: text) := by
  have starts : StartsPlain (gap ++ next :: text) := by
    by_cases glued : gap = []
    · simpa [glued, startsPlain_iff] using plain glued
    · exact (startsPlain_of_blank blank).append glued _
  rw [runsFrom_eq positive starts, runs_blank_append blank]

/-- Respacing leaves the lengths of the runs of backticks as they are. -/
theorem runsFrom_respaced {before after : Option Char} {text other : List Char} {count : Nat}
    (respaced : Respaced .noRun before text other after) (running : 0 < count → before = some '`') :
    runsFrom count other = runsFrom count text := by
  induction respaced generalizing count with
  | nil before => rfl
  | @cons before after next gap other text more visible replaces _ ih =>
    have fresh : runs (next :: more) = runs (next :: text) := by
      by_cases tick : next = '`'
      · simp [runs, runsFrom, tick, ih fun _ => by rw [tick]]
      · rw [runs_cons tick, runs_cons tick]
        exact ih (by simp)
    by_cases zero : count = 0
    · rw [zero, ← runs, ← runs, runs_blank_append replaces.blank,
        runs_blank_append replaces.blank_other, fresh]
    · have positive : 0 < count := by omega
      have before_eq := running positive
      by_cases goesOn : gap = [] ∧ next = '`'
      · rcases goesOn with ⟨glued, tick⟩
        have closed : other = [] := by
          by_contra opened
          exact replaces.apart glued opened '`' before_eq rfl tick
        rw [glued, closed, tick]
        exact @ih (count + 1) fun _ => by rw [tick]
      · rw [runsFrom_positive replaces.blank positive fun glued tick => goesOn ⟨glued, tick⟩,
          runsFrom_positive replaces.blank_other positive, fresh]
        intro closed tick
        by_cases glued : gap = []
        · exact goesOn ⟨glued, tick⟩
        · exact replaces.remains glued (by simp [before_eq]) (by simp [before_eq]) closed

theorem runs_respaced {before after : Option Char} {text other : List Char}
    (respaced : Respaced .noRun before text other after) : runs other = runs text :=
  runsFrom_respaced respaced (by simp)

end CodeSpan

end Refill
