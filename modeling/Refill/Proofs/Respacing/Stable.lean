import Refill.Proofs.Respacing.Cut

/-!
# Code spans and links in respaced texts

The grammars of code spans and of links are stable. For code spans this is because the runs
of backticks stay as they are. A bracket that begins no link does not begin one in a
respaced text, because no bracket comes next to another one that was apart from it
(`Link.completes_of_respaced`); and a link remains one, because nothing but tags part inside
its label (`Link.IsOpener.respaced`).
-/

namespace Refill

open Text

/-- What stops at a text stops at a respaced one, unless a bracket stands before it. -/
theorem StopsAt.respaced {border : Border} {holds : Char → Bool} {later further : List Char}
    {after : Option Char} (respaced : Respaced border none later further after)
    (blanks : ∀ c, isBlank c → holds c = false) (stops : StopsAt holds later) :
    StopsAt holds further := by
  intro c head_eq
  by_cases blank : isBlank c
  · exact blanks c blank
  · apply stops c
    exact respaced.head?_eq (by simp) (by simp) head_eq (by simpa using blank)

theorem not_isTrailing_of_isBlank (c : Char) (blank : isBlank c) : isTrailing c = false := by
  simp [isTrailing, blank]

namespace CodeSpan

theorem not_tick_of_isBlank (c : Char) (blank : isBlank c) : (c == '`') = false := by
  rw [beq_eq_false_iff_ne]
  rintro rfl
  cases blank

theorem Unmatched.respaced {before middle after : Option Char} {text other later further : List Char}
    (front : Respaced .noRun before text other middle)
    (back : Respaced .noRun middle later further after) (idle : Unmatched text later) :
    Unmatched other further where
  apart := by
    rintro ⟨ends, starts⟩
    rw [front.getLast?_eq] at ends
    have middle_eq := front.after_eq
    rw [ends, Option.some_or] at middle_eq
    rw [middle_eq] at back
    exact idle.apart ⟨ends, back.head?_eq (by simp) (by simp) starts (by decide)⟩
  nodup := by
    rw [runs_respaced front]
    exact idle.nodup
  disjoint := by
    rw [runs_respaced front, runs_respaced back]
    exact idle.disjoint

theorem IsSpan.respaced {span later further : List Char} {after : Option Char}
    (respaced : Respaced .noRun none later further after) (isSpan : IsSpan span later) :
    IsSpan span further := by
  rcases isSpan with ⟨fence, body, punctuation, isBody, rfl, trailing, stops, plain⟩
  refine ⟨fence, body, punctuation, isBody, rfl, trailing,
    StopsAt.respaced respaced not_isTrailing_of_isBlank stops, ?_⟩
  by_cases empty : punctuation = []
  · rw [empty, List.nil_append] at plain ⊢
    exact StopsAt.respaced respaced not_tick_of_isBlank plain
  · exact StopsAt.append (StopsAt.of_append plain) empty further

/-- Code spans remain what they are in respaced texts. -/
theorem stable_grammar : grammar.Stable .noRun .noRun where
  toSeamless := seamless_grammar
  wider _ _ := id
  blank_append_iff := Unmatched.blank_append_iff
  append_blank_iff := Unmatched.append_blank_iff
  idle := Unmatched.respaced
  stands := by
    rintro _ copy later further after alike respaced ⟨span, rfl, isSpan⟩
    cases alike
    exact ⟨span, rfl, isSpan.respaced respaced⟩

end CodeSpan

namespace Link

variable {border : Border} {before after : Option Char} {text other : List Char}

/-- Before a closing bracket, a visible character is that bracket or belongs to the label. -/
theorem split_label {gap rest label tail : List Char} {next : Char} (blank : Blank gap)
    (same : gap ++ next :: rest = label ++ ']' :: tail) :
    (next = ']' ∧ label = gap ∧ rest = tail) ∨
      ∃ inner, label = gap ++ next :: inner ∧ rest = inner ++ ']' :: tail := by
  rcases List.append_eq_append_iff.mp same with ⟨between, rfl, rest_eq⟩ | ⟨between, rfl, rest_eq⟩
  · cases between with
    | nil =>
      simp only [List.nil_append, List.cons.injEq] at rest_eq
      exact Or.inl ⟨rest_eq.1, by simp, rest_eq.2⟩
    | cons c inner =>
      simp only [List.cons_append, List.cons.injEq] at rest_eq
      rcases rest_eq with ⟨rfl, rfl⟩
      exact Or.inr ⟨inner, rfl, rfl⟩
  · cases between with
    | nil =>
      simp only [List.nil_append, List.cons.injEq] at rest_eq
      exact Or.inl ⟨rest_eq.1.symm, by simp, rest_eq.2.symm⟩
    | cons c inner =>
      simp only [List.cons_append, List.cons.injEq] at rest_eq
      rcases rest_eq with ⟨rfl, _⟩
      exact absurd (by simp) (blank.notMem (c := ']') (by decide))

theorem split_visible {gap rest tail : List Char} {next first : Char} (blank : Blank gap)
    (visible : isBlank first = false) (same : gap ++ next :: rest = first :: tail) :
    gap = [] ∧ next = first ∧ rest = tail := by
  cases gap with
  | nil =>
    simp only [List.nil_append, List.cons.injEq] at same
    exact ⟨rfl, same⟩
  | cons c gap =>
    simp only [List.cons_append, List.cons.injEq] at same
    have inside := blank.head
    rw [same.1, visible] at inside
    cases inside

theorem not_isBlank_opening {opening close : Char}
    (close_eq : destinationClose opening = some close) : isBlank opening = false := by
  rcases destinationClose_eq close_eq with ⟨rfl, _⟩ | ⟨rfl, _⟩ <;> decide

/-- What completes a label in a respaced text completes it in the text itself. -/
theorem completes_of_respaced (respaced : Respaced border before text other after)
    (completes : Completes other) : Completes text := by
  induction respaced with
  | nil before => exact completes
  | @cons before after next gap blanks text more visible replaces rest ih =>
    rcases completes with ⟨label, opening, close, later, same, notMem, close_eq, mem⟩
    rcases split_label replaces.blank_other same with ⟨rfl, rfl, rfl⟩ | ⟨inner, rfl, rfl⟩
    · have openingVisible := not_isBlank_opening close_eq
      generalize rest_eq : opening :: later = behind at rest
      cases rest with
      | nil => cases rest_eq
      | @cons _ _ second inner others text more _ between respaced =>
        rcases split_visible between.blank_other openingVisible rest_eq.symm with ⟨rfl, rfl, rfl⟩
        have glued : inner = [] := by
          by_contra parted
          exact between.remains parted (by simp) (by simp) rfl
        refine ⟨gap, second, close, text, by simp [glued], ?_, close_eq, ?_⟩
        · exact replaces.blank.notMem (by decide)
        · exact (respaced.mem_iff (not_isBlank_close close_eq)).mp mem
    · have notInner : ']' ∉ inner := fun mem => notMem (by simp [mem])
      rcases ih ⟨inner, opening, close, later, rfl, notInner, close_eq, mem⟩ with
        ⟨front, bracket, last, behind, rfl, notFront, last_eq, inside⟩
      have other : ']' ≠ next := by
        rintro rfl
        exact notMem (by simp)
      refine ⟨gap ++ next :: front, bracket, last, behind, by simp, ?_, last_eq, inside⟩
      simp [replaces.blank.notMem (c := ']') (by decide), other, notFront]

theorem startsBlank_of_begins {text : List Char} (begins : Begins text) : startsBlank text = false := by
  rcases begins with ⟨behind, rfl, _⟩
  rfl

/-- Where no link begins, none begins in a respaced text. -/
theorem nowhere_respaced {middle : Option Char} {later further : List Char}
    (front : Respaced border before text other middle)
    (back : Respaced border middle later further after) (nowhere : Nowhere Begins text later) :
    Nowhere Begins other further := by
  induction front with
  | nil before => trivial
  | @cons before middle next gap blanks text more visible replaces rest ih =>
    rcases nowhere_append.mp nowhere with ⟨_, first, inside⟩
    refine nowhere_append.mpr ⟨nowhere_of_blank startsBlank_of_begins replaces.blank_other, ?_, ih back inside⟩
    rintro ⟨behind, same, completes⟩
    cases same
    exact first ⟨_, rfl, completes_of_respaced (rest.append back) completes⟩

theorem exists_label {label : List Char} {opening : Char} (notMem : ']' ∉ label)
    (visible : isBlank opening = false) (noTag : opening ≠ '<')
    (respaced : Respaced .byTag before text other after) (text_eq : text = label ++ [']', opening]) :
    ∃ inner, other = inner ++ [']', opening] ∧ ']' ∉ inner := by
  induction respaced generalizing label with
  | nil before => simp at text_eq
  | @cons before after next gap blanks text more _ replaces rest ih =>
    rcases split_label replaces.blank text_eq with ⟨rfl, rfl, rest_eq⟩ | ⟨inner, rfl, rest_eq⟩
    · clear ih
      cases rest with
      | nil => cases rest_eq
      | @cons _ _ second gap' others text more _ between respaced =>
        rcases split_visible between.blank visible rest_eq with ⟨rfl, rfl, rfl⟩
        have glued : others = [] := by
          by_contra parted
          rcases between.apart rfl parted ']' rfl with same | same
          · cases same
          · exact noTag same
        have ended : more = [] := respaced.nil_iff.mp rfl
        exact ⟨blanks, by simp [glued, ended], replaces.blank_other.notMem (by decide)⟩
    · have notInner : ']' ∉ inner := fun mem => notMem (by simp [mem])
      rcases ih notInner rest_eq with ⟨copy, rfl, notCopy⟩
      have other : ']' ≠ next := by
        rintro rfl
        exact notMem (by simp)
      refine ⟨blanks ++ next :: copy, by simp, ?_⟩
      simp [replaces.blank_other.notMem (c := ']') (by decide), other, notCopy]

/-- Nothing but tags part inside the label of a link. -/
theorem IsOpener.respaced {opener copy : List Char} {close : Char}
    (alike : Alike .byTag opener copy) (isOpener : IsOpener opener close) :
    IsOpener copy close := by
  rcases isOpener with ⟨label, opening, rfl, notMem, close_eq⟩
  rcases alike with ⟨first, rest, more, after, same, rfl, _, respaced⟩
  have noTag : opening ≠ '<' := by
    rcases destinationClose_eq close_eq with ⟨rfl, _⟩ | ⟨rfl, _⟩ <;> decide
  cases same
  rcases exists_label notMem (not_isBlank_opening close_eq) noTag respaced rfl with
    ⟨inner, rfl, notInner⟩
  exact ⟨inner, opening, rfl, notInner, close_eq⟩

/-- Links remain what they are in respaced texts, if nothing but tags part inside their labels. -/
theorem stable_grammar : grammar.Stable .byTag .noRun where
  toSeamless := seamless_grammar
  wider _ _ := Border.noRun_of_byTag
  blank_append_iff := by
    intro blanks text later blank
    exact nowhere_append.trans (and_iff_right (nowhere_of_blank startsBlank_of_begins blank))
  append_blank_iff := by
    intro text blanks later blank
    exact nowhere_append.trans (and_iff_left (nowhere_of_blank startsBlank_of_begins blank))
  idle := nowhere_respaced
  stands := by
    rintro _ copy later further after alike respaced
      ⟨opener, gap, destination, close, rfl, isOpener, _, body, punctuation, rfl, notMem, starts,
        trailing, stops⟩
    cases alike with
    | link _ alike blank =>
      exact ⟨_, _, _, close, rfl, isOpener.respaced alike, blank, body, punctuation, rfl, notMem,
        starts, trailing, StopsAt.respaced respaced not_isTrailing_of_isBlank stops⟩

end Link

end Refill
