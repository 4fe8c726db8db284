import Refill.Proofs.Construct.BreakTag
import Refill.Proofs.Construct.CodeSpan
import Refill.Proofs.Construct.Link
import Refill.Proofs.Document.Slice

/-!
# How a scan goes on

To cut a text a scanner looks at one place after the other. `Scan.step` is one look, and
`Scan.Reached` tells the states that come up until the end of the text. A scanner that reads a
grammar stands at boundaries only and moves on with each look, so it never slices the text inside
a character, and it ends (`Scanner.Reads.proceeds`). This holds of all three scanners, and of
the places inside a link too (`scanners_proceed`).
-/

namespace Refill

open Text

namespace Cursor

variable {text : List Char} {first second : Cursor text} {front : List Char}

/-- The text between the two places is a slice of the whole text: both are boundaries, they are in
order, and neither lies beyond the end. -/
def Slices (first second : Cursor text) : Prop :=
  slice? first.offset second.offset text = some (first.textTo second)

theorem Passes.slices (passes : first.Passes front second) (boundary : first.IsBoundary) :
    first.Slices second := by
  rcases boundary with ⟨before, text_eq, length_eq⟩
  have whole : text = before ++ front ++ second.rest := by
    rw [List.append_assoc, ← passes.rest_eq]
    exact text_eq
  have sliced := slice_append before front second.rest length_eq passes.offset_eq.symm
  rw [← whole] at sliced
  rw [Slices, passes.textTo_eq]
  exact sliced

/-- A passage that leaves less leads further on. -/
theorem Passes.offset_lt (passes : first.Passes front second)
    (shorter : second.rest.length < first.rest.length) : first.offset < second.offset := by
  have nonempty : front ≠ [] := by
    rintro rfl
    simp [passes.rest_eq] at shorter
  have bytes : byteLength front ≠ 0 := mt byteLength_eq_zero_iff.mp nonempty
  rw [passes.offset_eq]
  omega

namespace IsBoundary

theorem offset_add (boundary : first.IsBoundary) :
    first.offset + byteLength first.rest = byteLength text := by
  rcases boundary with ⟨before, text_eq, length_eq⟩
  rw [← length_eq, ← byteLength_append, ← text_eq]

theorem atEnd_iff (boundary : first.IsBoundary) : first.atEnd ↔ first.rest = [] := by
  have whole := boundary.offset_add
  rw [atEnd, decide_eq_true_iff, ← byteLength_eq_zero_iff]
  omega

theorem atEnd_eq_false_iff (boundary : first.IsBoundary) :
    first.atEnd = false ↔ first.rest ≠ [] := by
  rw [← Bool.not_eq_true, ne_eq, boundary.atEnd_iff]

end IsBoundary

end Cursor

/-- A scan under way. -/
structure Scan (scanner : Scanner) (text : List Char) where
  memo : scanner.Memo text
  /-- Where the text begins in which no construct was found. -/
  first : Cursor text
  /-- The place to look at next. -/
  cursor : Cursor text

namespace Scan

variable {scanner : Scanner} {text : List Char}

def start (scanner : Scanner) (text : List Char) : Scan scanner text :=
  ⟨scanner.initial text, .start text, .start text⟩

/-- The scan after one more look. -/
def step (scan : Scan scanner text) : Scan scanner text :=
  match scanner.look scan.memo scan.cursor with
  | .construct _ next later => ⟨later, next, next⟩
  | .nothing next later => ⟨later, scan.first, next⟩

/-- The cut of the text from `first` on. -/
def cut (scan : Scan scanner text) : Cut :=
  scanner.cutFrom scan.memo scan.first scan.cursor

/-- The states of the scan of a text. -/
inductive Reached : Scan scanner text → Prop
  | start : Reached (start scanner text)
  | step {scan : Scan scanner text} (reached : Reached scan) (left : scan.cursor.atEnd = false) :
      Reached scan.step

/-- What holds in every state: the text passed over begins at a boundary and reaches to the place to
look at, and what is remembered is sound. -/
structure Sound (Remembers : ∀ text, scanner.Memo text → Prop) (scan : Scan scanner text) :
    Prop where
  memo : Remembers text scan.memo
  first : scan.first.IsBoundary
  passes : ∃ front, scan.first.Passes front scan.cursor

variable {grammar : Grammar} {Remembers : ∀ text, scanner.Memo text → Prop}
  {scan : Scan scanner text}

theorem Sound.cursor (sound : scan.Sound Remembers) : scan.cursor.IsBoundary := by
  rcases sound.passes with ⟨front, passes⟩
  exact passes.isBoundary sound.first

theorem sound_start (reads : scanner.Reads grammar Remembers) (text : List Char) :
    (start scanner text).Sound Remembers where
  memo := reads.sound_initial text
  first := Cursor.isBoundary_start
  passes := ⟨[], .refl _⟩

/-- One look keeps the scan sound and moves it on. -/
theorem Sound.step (reads : scanner.Reads grammar Remembers) (sound : scan.Sound Remembers)
    (left : scan.cursor.rest ≠ []) :
    scan.step.Sound Remembers ∧ scan.cursor.offset < scan.step.cursor.offset := by
  have shorter := scanner.advances scan.memo scan.cursor left
  rcases sound.passes with ⟨front, passes⟩
  unfold Scan.step
  cases look_eq : scanner.look scan.memo scan.cursor with
  | construct construct next later =>
    rw [look_eq] at shorter
    rcases reads.construct sound.memo sound.cursor look_eq with ⟨remembers, toNext, _⟩
    exact ⟨⟨remembers, toNext.isBoundary sound.cursor, [], .refl next⟩, toNext.offset_lt shorter⟩
  | nothing next later =>
    rw [look_eq] at shorter
    rcases reads.nothing sound.memo sound.cursor left look_eq with ⟨remembers, more, toNext, _⟩
    exact ⟨⟨remembers, sound.first, front ++ more, passes.trans toNext⟩, toNext.offset_lt shorter⟩

theorem Reached.sound (reads : scanner.Reads grammar Remembers) (reached : scan.Reached) :
    scan.Sound Remembers := by
  induction reached with
  | start => exact sound_start reads text
  | step _ left ih => exact (ih.step reads (ih.cursor.atEnd_eq_false_iff.mp left)).1

/-- From every state the scan gets to the end. -/
theorem Reached.exists_last (reads : scanner.Reads grammar Remembers) (reached : scan.Reached) :
    ∃ last : Scan scanner text, last.Reached ∧ last.cursor.atEnd := by
  -- on the number of bytes that are left
  induction left_eq : byteLength text - scan.cursor.offset using Nat.strong_induction_on
    generalizing scan with
  | _ count ih =>
    cases atEnd : scan.cursor.atEnd with
    | true => exact ⟨scan, reached, atEnd⟩
    | false =>
      have sound := reached.sound reads
      have left := sound.cursor.atEnd_eq_false_iff.mp atEnd
      have before : scan.cursor.offset < byteLength text := by simpa [Cursor.atEnd] using atEnd
      have further := (sound.step reads left).2
      exact ih _ (by omega) (reached.step atEnd) rfl

/-- A cut is made look by look. -/
theorem cut_eq (left : scan.cursor.rest ≠ []) :
    scan.cut = match scanner.look scan.memo scan.cursor with
      | .construct construct _ _ => .before (scan.first.textTo scan.cursor) construct scan.step.cut
      | .nothing _ _ => scan.step.cut := by
  rw [Scan.cut, Scanner.cutFrom, dif_neg left, Scan.step]
  dsimp only
  split
  next construct next later look_eq => simp only [look_eq, Scan.cut]
  next next later look_eq => simp only [look_eq, Scan.cut]

end Scan

/-- The scan of the text ends, and all places on its way are boundaries in order. -/
structure Scanner.Proceeds (scanner : Scanner) (text : List Char) : Prop where
  /-- What is passed over begins no later than the place to look at, and neither lies inside a
  character or beyond the end. -/
  placed : ∀ scan : Scan scanner text, scan.Reached →
    scan.first.IsBoundary ∧ scan.cursor.IsBoundary ∧ scan.first.offset ≤ scan.cursor.offset ∧
      scan.cursor.offset ≤ byteLength text
  /-- Before the end there is a character to look at, and the look leads further on. -/
  advances : ∀ scan : Scan scanner text, scan.Reached → scan.cursor.atEnd = false →
    scan.cursor.peek ≠ none ∧ scan.cursor.offset < scan.step.cursor.offset
  ends : ∃ scan : Scan scanner text, scan.Reached ∧ scan.cursor.atEnd
  /-- What is passed over is a slice of the text. -/
  slices : ∀ scan : Scan scanner text, scan.Reached → scan.first.Slices scan.cursor
  /-- What is found is a slice of the text. -/
  slices_construct : ∀ scan : Scan scanner text, scan.Reached → ∀ construct next later,
    scanner.look scan.memo scan.cursor = .construct construct next later →
      scan.cursor.Slices next ∧ construct.source = scan.cursor.textTo next
  /-- The cut of the text is made of what the looks find. -/
  cut_start : scanner.cut text = (Scan.start scanner text).cut
  cut_step : ∀ scan : Scan scanner text, scan.Reached → scan.cursor.atEnd = false →
    scan.cut = match scanner.look scan.memo scan.cursor with
      | .construct construct _ _ => .before (scan.first.textTo scan.cursor) construct scan.step.cut
      | .nothing _ _ => scan.step.cut
  cut_last : ∀ scan : Scan scanner text, scan.Reached → scan.cursor.atEnd →
    scan.cut = .last (scan.first.textTo scan.cursor)

theorem Scanner.Reads.proceeds {scanner : Scanner} {grammar : Grammar}
    {Remembers : ∀ text, scanner.Memo text → Prop} (reads : scanner.Reads grammar Remembers)
    (text : List Char) : scanner.Proceeds text where
  placed := by
    intro scan reached
    have sound := reached.sound reads
    have boundary := sound.cursor
    rcases sound.passes with ⟨front, passes⟩
    refine ⟨sound.first, boundary, ?_, ?_⟩
    · rw [passes.offset_eq]
      exact Nat.le_add_right _ _
    · rw [← boundary.offset_add]
      exact Nat.le_add_right _ _
  advances := by
    intro scan reached atEnd
    have sound := reached.sound reads
    have left := sound.cursor.atEnd_eq_false_iff.mp atEnd
    refine ⟨?_, (sound.step reads left).2⟩
    rw [Cursor.peek, ne_eq, List.head?_eq_none_iff]
    exact left
  ends := Scan.Reached.start.exists_last reads
  slices := by
    intro scan reached
    have sound := reached.sound reads
    rcases sound.passes with ⟨front, passes⟩
    exact passes.slices sound.first
  slices_construct := by
    intro scan reached construct next later look_eq
    have sound := reached.sound reads
    rcases reads.construct sound.memo sound.cursor look_eq with ⟨_, toNext, _⟩
    exact ⟨toNext.slices sound.cursor, toNext.textTo_eq.symm⟩
  cut_start := rfl
  cut_step := by
    intro scan reached atEnd
    exact Scan.cut_eq ((reached.sound reads).cursor.atEnd_eq_false_iff.mp atEnd)
  cut_last := by
    intro scan reached atEnd
    have left := (reached.sound reads).cursor.atEnd_iff.mp atEnd
    rw [Scan.cut, Scanner.cutFrom, dif_pos left]

namespace Link

variable {text : List Char}

theorem exists_holds_of_freshExtent {place : Cursor text} {found : Extent text}
    (found_eq : freshExtent place = some found) :
    ∃ label opening gap destination, found.Holds place label opening gap destination := by
  rcases (completes_of_freshExtent found_eq).exists_parts with
    ⟨label, opening, close, gap, destination, later, rest_eq, notMem, close_eq, blank, isDestination⟩
  rcases freshExtent_of_parts notMem close_eq blank isDestination rest_eq with
    ⟨again, again_eq, holds, _⟩
  rw [found_eq] at again_eq
  cases again_eq
  exact ⟨label, opening, gap, destination, holds⟩

/-- The places inside a link cut it into slices of the text. -/
theorem slices_extent {memo : Memo text} {cursor : Cursor text} {found : Extent text}
    (sound : memo.Sound) (boundary : cursor.IsBoundary) (bracket : cursor.peek = some '[')
    (found_eq : (extent memo cursor.next).1 = some found) :
    cursor.Slices found.opened ∧ found.opened.Slices found.destination ∧
      found.destination.Slices found.stop := by
  rw [(extent_spec sound boundary.next).1] at found_eq
  rcases exists_holds_of_freshExtent found_eq with ⟨label, opening, gap, destination, holds⟩
  rcases List.head?_eq_some_iff.mp bracket with ⟨rest, rest_eq⟩
  have toOpened := (Cursor.passes_next rest_eq).trans holds.opened
  have opened := toOpened.isBoundary boundary
  have begun := holds.gap.isBoundary opened
  exact ⟨toOpened.slices boundary, holds.gap.slices opened, holds.destination.slices begun⟩

end Link

/-- All three scanners go through the text to its end without slicing it inside a character, and so
does the scanner for links between the parts of a link. -/
theorem scanners_proceed (text : List Char) :
    CodeSpan.scanner.Proceeds text ∧ Link.scanner.Proceeds text ∧ BreakTag.scanner.Proceeds text ∧
      ∀ scan : Scan Link.scanner text, scan.Reached → scan.cursor.peek = some '[' →
        ∀ found, (Link.extent scan.memo scan.cursor.next).1 = some found →
          scan.cursor.Slices found.opened ∧ found.opened.Slices found.destination ∧
            found.destination.Slices found.stop := by
  refine ⟨CodeSpan.reads_scanner.proceeds text, Link.reads_scanner.proceeds text,
    BreakTag.reads_scanner.proceeds text, ?_⟩
  intro scan reached bracket found found_eq
  have sound := reached.sound Link.reads_scanner
  exact Link.slices_extent sound.memo sound.cursor bracket found_eq

end Refill
