import Refill.Construct.Link
import Refill.Proofs.Construct.Grammar
import Refill.Proofs.Cursor.Search
import Refill.Proofs.Text.Trim

/-!
# The grammar of links

A link is a label in square brackets with no closing bracket in it, the bracket that
opens the destination right behind it, blanks, and the destination up to the first
closing bracket of its kind, with the punctuation that follows. An opening bracket
begins a link if the first closing bracket behind it is followed by the opening of a
destination that is closed somewhere (`Completes`).

The scanner reads this grammar (`reads_scanner`). What it remembers of earlier searches
makes no difference: `extent_spec` says that it finds what new searches find.
-/

namespace Refill.Link

open Text

variable {text : List Char}

/-- What comes behind an opening bracket makes a link of it: the first closing bracket is followed
by the opening of a destination, and that is closed somewhere. -/
def Completes (text : List Char) : Prop :=
  ∃ label opening close later, text = label ++ ']' :: opening :: later ∧ ']' ∉ label ∧
    destinationClose opening = some close ∧ close ∈ later

/-- A link stands at the front of the text. -/
def Begins (text : List Char) : Prop :=
  ∃ rest, text = '[' :: rest ∧ Completes rest

/-- The text is a label with its brackets and the bracket that opens a destination, which `close`
closes. -/
def IsOpener (opener : List Char) (close : Char) : Prop :=
  ∃ label opening, opener = '[' :: (label ++ [']', opening]) ∧ ']' ∉ label ∧
    destinationClose opening = some close

/-- The text is a destination up to its closing bracket and the punctuation behind it, when the
given characters come behind it. -/
def IsDestination (close : Char) (destination later : List Char) : Prop :=
  ∃ body punctuation, destination = body ++ close :: punctuation ∧ close ∉ body ∧
    startsBlank destination = false ∧ (∀ c ∈ punctuation, isTrailing c) ∧
    StopsAt isTrailing later

def grammar : Grammar where
  Stands construct later := ∃ opener gap destination close,
    construct = .link opener gap destination ∧ IsOpener opener close ∧ Blank gap ∧
      IsDestination close destination later
  Idle := Nowhere Begins
  idle_nil _ := trivial
  source_ne_nil := by
    rintro _ _ ⟨_, _, _, _, rfl, ⟨label, opening, rfl, _⟩, _⟩
    simp [Construct.source]

theorem destinationClose_eq {opening close : Char} (close_eq : destinationClose opening = some close) :
    (opening = '(' ∧ close = ')') ∨ (opening = '[' ∧ close = ']') := by
  unfold destinationClose at close_eq
  split at close_eq
  · exact Or.inl ⟨rfl, (Option.some.inj close_eq).symm⟩
  · exact Or.inr ⟨rfl, (Option.some.inj close_eq).symm⟩
  · cases close_eq

theorem not_isBlank_close {opening close : Char} (close_eq : destinationClose opening = some close) :
    isBlank close = false := by
  rcases destinationClose_eq close_eq with ⟨_, rfl⟩ | ⟨_, rfl⟩ <;> decide

/-! ## Extents found anew -/

/-- The extent of the link whose label begins at the place, when nothing is remembered. -/
def freshExtent (place : Cursor text) : Option (Extent text) := do
  let labelEnd ← place.find ']'
  let close ← labelEnd.next.peek.bind destinationClose
  let opened := labelEnd.next.next
  let destination := opened.skipWhile isBlank
  let destinationEnd ← destination.find close
  return { opened, destination, stop := destinationEnd.next.skipWhile isTrailing }

namespace Memo

/-- All that is remembered are searches from boundaries. -/
structure Sound (memo : Memo text) : Prop where
  label : memo.label.Sound
  inline : memo.inline.Sound
  reference : memo.reference.Sound

variable {memo : Memo text} {place : Cursor text}

theorem sound_initial : (initial : Memo text).Sound where
  label := Finder.sound_new
  inline := Finder.sound_new
  reference := Finder.sound_new

theorem fst_labelEnd (sound : memo.Sound) (boundary : place.IsBoundary) :
    (memo.labelEnd place).1 = place.find ']' :=
  Finder.find_fst sound.label boundary

theorem sound_labelEnd (sound : memo.Sound) (boundary : place.IsBoundary) :
    (memo.labelEnd place).2.Sound where
  label := Finder.sound_find sound.label boundary
  inline := sound.inline
  reference := sound.reference

theorem sound_skipGap (sound : memo.Sound) (place : Cursor text) :
    (memo.skipGap place).2.Sound := by
  unfold skipGap
  split
  · exact sound
  · exact ⟨sound.label, sound.inline, sound.reference⟩

theorem fst_destinationEnd {opening close : Char} (sound : memo.Sound)
    (boundary : place.IsBoundary) (close_eq : destinationClose opening = some close) :
    (memo.destinationEnd close place).1 = place.find close := by
  rcases destinationClose_eq close_eq with ⟨_, rfl⟩ | ⟨_, rfl⟩
  · exact Finder.find_fst sound.inline boundary
  · exact Finder.find_fst sound.reference boundary

theorem sound_destinationEnd (sound : memo.Sound) (boundary : place.IsBoundary) (close : Char) :
    (memo.destinationEnd close place).2.Sound := by
  unfold destinationEnd
  split
  · exact ⟨sound.label, Finder.sound_find sound.inline boundary, sound.reference⟩
  · exact ⟨sound.label, sound.inline, Finder.sound_find sound.reference boundary⟩

end Memo

/-- What is remembered changes no extent. -/
theorem extent_spec {memo : Memo text} {place : Cursor text} (sound : memo.Sound)
    (boundary : place.IsBoundary) :
    (extent memo place).1 = freshExtent place ∧ (extent memo place).2.Sound := by
  have label_eq := Memo.fst_labelEnd sound boundary
  have label_sound := Memo.sound_labelEnd sound boundary
  unfold extent freshExtent
  split
  next found_eq =>
    rw [found_eq] at label_eq label_sound
    simp only at label_eq
    rw [← label_eq]
    exact ⟨rfl, label_sound⟩
  next labelEnd labelMemo found_eq =>
    rw [found_eq] at label_eq label_sound
    simp only at label_eq
    rw [← label_eq]
    have label_boundary := Cursor.isBoundary_of_peek (Cursor.peek_of_find label_eq.symm)
    simp only [Option.bind_eq_bind, Option.bind_some]
    split
    next close_eq =>
      rw [close_eq]
      exact ⟨rfl, label_sound⟩
    next close close_eq =>
      rcases Option.bind_eq_some_iff.mp close_eq with ⟨opening, _, opening_eq⟩
      have gap_boundary := label_boundary.next.next.skipWhile isBlank
      have gap_sound := Memo.sound_skipGap label_sound labelEnd.next.next
      have end_eq := Memo.fst_destinationEnd gap_sound gap_boundary opening_eq
      have end_sound := Memo.sound_destinationEnd gap_sound gap_boundary close
      rw [close_eq]
      simp only [Option.bind_some, Memo.skipGap_fst]
      split
      next none_eq =>
        rw [none_eq] at end_eq end_sound
        simp only at end_eq
        rw [← end_eq]
        exact ⟨rfl, end_sound⟩
      next destinationEnd endMemo some_eq =>
        rw [some_eq] at end_eq end_sound
        simp only at end_eq
        rw [← end_eq]
        exact ⟨rfl, end_sound⟩

/-! ## Extents and links -/

/-- The extent has the parts of a link between its places. -/
structure Extent.Holds (found : Extent text) (place : Cursor text)
    (label : List Char) (opening : Char) (gap destination : List Char) : Prop where
  opened : place.Passes (label ++ [']', opening]) found.opened
  gap : found.opened.Passes gap found.destination
  destination : found.destination.Passes destination found.stop

theorem freshExtent_of_parts {place : Cursor text} {label gap destination later : List Char}
    {opening close : Char} (notMem : ']' ∉ label)
    (close_eq : destinationClose opening = some close) (blank : Blank gap)
    (isDestination : IsDestination close destination later)
    (rest_eq : place.rest = label ++ ']' :: opening :: (gap ++ (destination ++ later))) :
    ∃ found, freshExtent place = some found ∧
      found.Holds place label opening gap destination ∧ found.stop.rest = later := by
  rcases isDestination with ⟨body, punctuation, rfl, first, starts, trailing, stops⟩
  rcases Cursor.exists_find rest_eq notMem with ⟨labelEnd, label_eq, toLabelEnd, label_rest⟩
  have toOpening := Cursor.passes_next label_rest
  have opening_rest := Cursor.rest_next label_rest
  have toOpened := Cursor.passes_next opening_rest
  have opened_rest := Cursor.rest_next opening_rest
  have gapStops : StopsAt isBlank (body ++ close :: punctuation ++ later) := by
    apply StopsAt.append _ (by simp)
    intro c head_eq
    simpa [startsBlank, head_eq] using starts
  have toDestination := labelEnd.next.next.passes_skipWhile isBlank
  have destination_rest : (labelEnd.next.next.skipWhile isBlank).rest =
      body ++ close :: (punctuation ++ later) := by
    rw [Cursor.rest_skipWhile, opened_rest, dropWhile_front blank gapStops]
    simp
  rw [opened_rest, takeWhile_front blank gapStops] at toDestination
  rcases Cursor.exists_find destination_rest first with
    ⟨destinationEnd, end_eq, toEnd, end_rest⟩
  have toPunctuation := Cursor.passes_next end_rest
  have toStop := destinationEnd.next.passes_skipWhile isTrailing
  rw [Cursor.rest_next end_rest, takeWhile_front trailing stops] at toStop
  refine ⟨⟨labelEnd.next.next, labelEnd.next.next.skipWhile isBlank,
    destinationEnd.next.skipWhile isTrailing⟩, ?_, ⟨?_, toDestination, ?_⟩, ?_⟩
  · have peek_eq : labelEnd.next.peek = some opening := by
      rw [Cursor.peek, opening_rest]
      rfl
    simp [freshExtent, label_eq, peek_eq, close_eq, end_eq]
  · simpa using toLabelEnd.trans (toOpening.trans toOpened)
  · simpa using toEnd.trans (toPunctuation.trans toStop)
  · rw [Cursor.rest_skipWhile, Cursor.rest_next end_rest, dropWhile_front trailing stops]

/-- What completes a label can be taken apart. -/
theorem Completes.exists_parts {text : List Char} (completes : Completes text) :
    ∃ label opening close gap destination later,
      text = label ++ ']' :: opening :: (gap ++ (destination ++ later)) ∧ ']' ∉ label ∧
        destinationClose opening = some close ∧ Blank gap ∧
        IsDestination close destination later := by
  rcases completes with ⟨label, opening, close, behind, rfl, notMem, close_eq, mem⟩
  have visible := not_isBlank_close close_eq
  have split := (List.takeWhile_append_dropWhile (p := isBlank) (l := behind)).symm
  have mem' : close ∈ behind.dropWhile isBlank := by
    rw [split] at mem
    rcases List.mem_append.mp mem with inside | inside
    · exact absurd inside ((blank_takeWhile behind).notMem visible)
    · exact inside
  have starts := startsBlank_dropWhile behind
  rcases List.eq_append_cons_of_mem mem' with ⟨body, rest, rest_eq, first⟩
  have rest_split := (List.takeWhile_append_dropWhile (p := isTrailing) (l := rest)).symm
  refine ⟨label, opening, close, behind.takeWhile isBlank,
    body ++ close :: rest.takeWhile isTrailing, rest.dropWhile isTrailing, ?_, notMem, close_eq,
    blank_takeWhile behind, body, rest.takeWhile isTrailing, rfl, first, ?_,
    fun c => holds_of_mem_takeWhile, stopsAt_dropWhile isTrailing rest⟩
  · rw [List.append_assoc, List.cons_append, ← rest_split, ← rest_eq, ← split]
  · rw [rest_eq, rest_split, ← List.cons_append, ← List.append_assoc,
      startsBlank_append (by simp)] at starts
    exact starts

/-- Nothing is found that is not completed. -/
theorem completes_of_freshExtent {place : Cursor text} {found : Extent text}
    (found_eq : freshExtent place = some found) : Completes place.rest := by
  simp only [freshExtent, Option.bind_eq_bind, Option.bind_eq_some_iff] at found_eq
  rcases found_eq with ⟨labelEnd, label_eq, close, close_eq, destinationEnd, end_eq, _⟩
  rcases close_eq with ⟨opening, peek_eq, close_eq⟩
  rcases List.head?_eq_some_iff.mp peek_eq with ⟨later, opening_rest⟩
  rcases List.head?_eq_some_iff.mp (Cursor.peek_of_find label_eq) with ⟨behind, label_rest⟩
  rw [Cursor.rest_next label_rest] at opening_rest
  have place_rest := (Cursor.passes_find label_eq).rest_eq
  rw [label_rest, opening_rest] at place_rest
  refine ⟨_, opening, close, later, place_rest, ?_, close_eq, ?_⟩
  · intro mem
    simpa using holds_of_mem_takeWhile mem
  · have end_rest := (Cursor.passes_find end_eq).rest_eq
    rcases List.head?_eq_some_iff.mp (Cursor.peek_of_find end_eq) with ⟨rest, close_rest⟩
    have opened_rest : labelEnd.next.next.rest = later :=
      Cursor.rest_next (by rw [Cursor.rest_next label_rest, opening_rest])
    rw [Cursor.rest_skipWhile, opened_rest, close_rest] at end_rest
    have inside : close ∈ later.dropWhile isBlank := by
      rw [end_rest]
      simp
    exact (List.dropWhile_sublist isBlank).subset inside

/-! ## The scanner -/

section Scanner

variable {cursor : Cursor text} {memo : Memo text}

theorem look_of_link {opener gap destination later : List Char} {close : Char}
    (sound : memo.Sound) (boundary : cursor.IsBoundary) (isOpener : IsOpener opener close)
    (blank : Blank gap) (isDestination : IsDestination close destination later)
    (rest_eq : cursor.rest = opener ++ gap ++ destination ++ later) :
    ∃ next memo', look memo cursor = .construct (.link opener gap destination) next memo' ∧
      cursor.Passes (opener ++ gap ++ destination) next ∧ next.rest = later ∧ memo'.Sound := by
  rcases isOpener with ⟨label, opening, rfl, notMem, close_eq⟩
  have bracket : cursor.rest =
      '[' :: (label ++ ']' :: opening :: (gap ++ (destination ++ later))) := by
    simp [rest_eq]
  have toPlace := Cursor.passes_next bracket
  rcases freshExtent_of_parts notMem close_eq blank isDestination (Cursor.rest_next bracket) with
    ⟨found, found_eq, holds, stop_rest⟩
  rcases extent_spec sound boundary.next with ⟨extent_eq, sound'⟩
  rw [found_eq] at extent_eq
  have toOpened := toPlace.trans holds.opened
  refine ⟨found.stop, (extent memo cursor.next).2, ?_, ?_, stop_rest, sound'⟩
  · have peek_eq : cursor.peek = some '[' := by
      rw [Cursor.peek, bracket]
      rfl
    rw [look, if_pos peek_eq]
    split
    next none_eq =>
      rw [none_eq] at extent_eq
      cases extent_eq
    next some_eq =>
      rw [some_eq] at extent_eq
      cases extent_eq
      simp [toOpened.textTo_eq, holds.gap.textTo_eq, holds.destination.textTo_eq, some_eq]
  · simpa using toOpened.trans (holds.gap.trans holds.destination)

/-- Where a link begins, one is found. -/
theorem look_of_begins (sound : memo.Sound) (boundary : cursor.IsBoundary)
    (begins : Begins cursor.rest) :
    ∃ construct next memo', look memo cursor = .construct construct next memo' ∧
      cursor.Passes construct.source next ∧ grammar.Stands construct next.rest ∧ memo'.Sound := by
  rcases begins with ⟨rest, rest_eq, completes⟩
  rcases completes.exists_parts with
    ⟨label, opening, close, gap, destination, behind, rfl, notMem, close_eq, blank, isDestination⟩
  have isOpener : IsOpener ('[' :: (label ++ [']', opening])) close :=
    ⟨label, opening, rfl, notMem, close_eq⟩
  rcases look_of_link sound boundary isOpener blank isDestination (by simp [rest_eq]) with
    ⟨next, memo', look_eq, passes, next_rest, sound'⟩
  refine ⟨_, next, memo', look_eq, passes, ?_, sound'⟩
  rw [next_rest]
  exact ⟨_, _, _, close, rfl, isOpener, blank, isDestination⟩

/-- Where no link begins, the scanner moves on by one character. -/
theorem look_of_not_begins (sound : memo.Sound) (boundary : cursor.IsBoundary)
    (none : ¬Begins cursor.rest) :
    ∃ memo', look memo cursor = .nothing cursor.next memo' ∧ memo'.Sound := by
  by_cases bracket : cursor.peek = some '['
  · rcases List.head?_eq_some_iff.mp bracket with ⟨rest, rest_eq⟩
    rcases extent_spec sound boundary.next with ⟨extent_eq, sound'⟩
    have nothing : freshExtent cursor.next = .none := by
      rw [Option.eq_none_iff_forall_ne_some]
      intro found found_eq
      refine none ⟨rest, rest_eq, ?_⟩
      rw [← Cursor.rest_next rest_eq]
      exact completes_of_freshExtent found_eq
    rw [nothing] at extent_eq
    refine ⟨(extent memo cursor.next).2, ?_, sound'⟩
    rw [look, if_pos bracket]
    split
    next none_eq => rw [none_eq]
    next some_eq =>
      rw [some_eq] at extent_eq
      cases extent_eq
  · exact ⟨memo, by rw [look, if_neg bracket], sound⟩

end Scanner

theorem reads_scanner : scanner.Reads grammar (fun _ memo => memo.Sound) where
  sound_initial _ := Memo.sound_initial
  construct := by
    intro text memo later cursor next construct sound boundary look_eq
    have look_eq : look memo cursor = .construct construct next later := look_eq
    by_cases begins : Begins cursor.rest
    · rcases look_of_begins sound boundary begins with ⟨_, _, _, link_eq, passes, stands, sound'⟩
      rw [look_eq] at link_eq
      cases link_eq
      exact ⟨sound', passes, stands⟩
    · rcases look_of_not_begins sound boundary begins with ⟨memo', nothing_eq, _⟩
      rw [look_eq] at nothing_eq
      cases nothing_eq
  nothing := by
    intro text memo later cursor next sound boundary left look_eq
    have look_eq : look memo cursor = .nothing next later := look_eq
    rcases List.exists_cons_of_ne_nil left with ⟨c, rest, rest_eq⟩
    by_cases begins : Begins cursor.rest
    · rcases look_of_begins sound boundary begins with ⟨_, _, _, link_eq, _⟩
      rw [look_eq] at link_eq
      cases link_eq
    · rcases look_of_not_begins sound boundary begins with ⟨memo', nothing_eq, sound'⟩
      rw [look_eq] at nothing_eq
      cases nothing_eq
      refine ⟨sound', [c], Cursor.passes_next rest_eq, fun before idle => ?_⟩
      rw [Cursor.rest_next rest_eq]
      rw [rest_eq] at idle begins
      exact Nowhere.concat idle begins
  stands := by
    rintro text memo cursor _ behind sound boundary rest_eq
      ⟨opener, gap, destination, close, rfl, isOpener, blank, isDestination⟩
    rcases look_of_link sound boundary isOpener blank isDestination rest_eq with
      ⟨next, memo', look_eq, _, next_rest, _⟩
    exact ⟨next, memo', look_eq, next_rest⟩
  idle := by
    intro text memo cursor idle behind sound boundary rest_eq nonempty nowhere
    cases idle with
    | nil => exact absurd rfl nonempty
    | cons c rest =>
      have none : ¬Begins cursor.rest := by
        rw [rest_eq]
        exact nowhere.1
      rcases look_of_not_begins sound boundary none with ⟨memo', look_eq, _⟩
      exact ⟨_, memo', [c], rest, look_eq, rfl, Cursor.rest_next rest_eq, nowhere.2⟩

end Refill.Link
