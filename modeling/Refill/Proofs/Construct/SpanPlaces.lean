import Refill.Proofs.Construct.Occurrence

/-!
# Where the code spans are

Whether spans are those of a text can be told from the places of its runs of backticks. Each
span begins with a maximal run and is closed by the next one of the same length, and no run
outside the spans has the length of a run further on (`Paired`). That determines the spans
(`Paired.unique`), since a span that only one of two such lists has would begin with a run
that the other one leaves unmatched. The spans the scanner finds are such a list
(`tokens_around_spans`).
-/

namespace Refill.CodeSpan

open Text

/-- A maximal run of so many backticks begins at the place. -/
def IsRunAt (text : List Char) (start count : Nat) : Prop :=
  ∃ before behind, text = before ++ (ticks count ++ behind) ∧ before.length = start ∧ 0 < count ∧
    before.getLast? ≠ some '`' ∧ StartsPlain behind

/-- The places where a code span begins and ends. -/
structure Bounds where
  start : Nat
  stop : Nat

/-- The place lies in the span. -/
def Bounds.Holds (span : Bounds) (place : Nat) : Prop :=
  span.start ≤ place ∧ place < span.stop

/-- A span between fences of the given length, of which the second one begins at the given place.
It is the first one behind the beginning, and the punctuation that follows it ends the span. -/
structure Fenced (text : List Char) (span : Bounds) (fence closer : Nat) : Prop where
  opening : IsRunAt text span.start fence
  closing : IsRunAt text closer fence
  lt_closer : span.start < closer
  interior : ∀ place, span.start < place → place < closer → ¬IsRunAt text place fence
  le_stop : closer + fence ≤ span.stop
  trailing : ∀ place, closer + fence ≤ place → place < span.stop →
    ∃ c, text[place]? = some c ∧ isTrailing c
  stops : ∀ c, text[span.stop]? = some c → isTrailing c = false

/-- A code span stands between the bounds. -/
def IsSpanAt (text : List Char) (span : Bounds) : Prop :=
  ∃ fence closer, Fenced text span fence closer

/-- From the place on, the text has the given code spans: they lie one behind the other, and no run
outside them has the length of one further on. -/
structure Paired (text : List Char) (place : Nat) (spans : List Bounds) : Prop where
  isSpan : ∀ span ∈ spans, IsSpanAt text span
  behind : ∀ span ∈ spans, place ≤ span.start
  apart : spans.Pairwise fun first second => first.stop ≤ second.start
  unmatched : ∀ start count, place ≤ start → IsRunAt text start count →
    (∀ span ∈ spans, ¬span.Holds start) → ∀ later, start < later → ¬IsRunAt text later count

def Bounds.of (found : Occurrence) : Bounds :=
  ⟨found.start, found.stop⟩

/-- The span as a construct of the text, of which it is a token. -/
def Bounds.occurrence (text : List Char) (span : Bounds) : Occurrence where
  start := span.start
  stop := span.stop
  tokens := [⟨.atomic, stretch text span.start span.stop, blankBefore text span.start⟩]

variable {text front back : List Char} {start place count : Nat}

/-! ## Runs at their places -/

/-- Where so many backticks are cut, they meet. -/
theorem meet_of_ticks (ticks_eq : ticks count = front ++ back) (front_nonempty : front ≠ [])
    (back_nonempty : back ≠ []) : Meet front back := by
  rcases List.replicate_eq_append_iff.mp ticks_eq with ⟨_, front_eq, back_eq⟩
  constructor
  · rw [front_eq]
    exact getLast?_ticks (List.length_pos_iff.mpr front_nonempty)
  · rw [back_eq, ← ticks, ticks_eq_cons (List.length_pos_iff.mpr back_nonempty)]
    rfl

namespace IsRunAt

theorem positive (run : IsRunAt text start count) : 0 < count := by
  rcases run with ⟨_, _, _, _, positive, _⟩
  exact positive

theorem le_length (run : IsRunAt text start count) : start + count ≤ text.length := by
  rcases run with ⟨before, behind, rfl, rfl, _⟩
  simp only [List.length_append, length_ticks]
  omega

/-- Only one maximal run begins at a place. -/
theorem count_unique {other : Nat} (left : IsRunAt text start count)
    (right : IsRunAt text start other) : count = other := by
  rcases left with ⟨before, behind, text_eq, length_eq, _, _, plain⟩
  rcases right with ⟨before', behind', text_eq', length_eq', _, _, plain'⟩
  rw [text_eq] at text_eq'
  rcases List.append_inj text_eq' (length_eq.trans length_eq'.symm) with ⟨_, rest_eq⟩
  exact (ticks_append_inj rest_eq plain plain').1

theorem mem_runs (run : IsRunAt text start count) : count ∈ runs text := by
  rcases run with ⟨before, behind, rfl, _, positive, ends, plain⟩
  rw [runs_append (not_meet_of_getLast ends), runs_ticks positive plain]
  simp

/-- A run in two texts side by side lies in one of them, unless backticks meet between them. -/
theorem of_append (run : IsRunAt (front ++ back) start count) (apart : ¬Meet front back) :
    IsRunAt front start count ∨
      ∃ place, start = front.length + place ∧ IsRunAt back place count := by
  rcases run with ⟨before, behind, both_eq, rfl, positive, ends, plain⟩
  rcases side_of_append_eq both_eq with
    ⟨more, front_eq, rfl⟩ | ⟨between, rfl, back_eq⟩ |
      ⟨inside, beyond, ticks_eq, insideLeft, beyondLeft, rfl, rfl⟩
  · exact Or.inl ⟨before, more, front_eq, rfl, positive, ends, plain.of_append⟩
  · right
    refine ⟨between.length, by simp, between, behind, back_eq, rfl, positive, ?_, plain⟩
    intro last
    apply ends
    rw [List.getLast?_append, last, Option.some_or]
  · -- The run would reach from one text into the other, but backticks do not meet there.
    exfalso
    apply apart
    rcases meet_of_ticks ticks_eq insideLeft beyondLeft with ⟨ends_inside, begins⟩
    refine ⟨?_, ?_⟩
    · rwa [getLast?_append before insideLeft]
    · rwa [List.head?_append_of_ne_nil _ beyondLeft]

/-- A run behind the front is one of the back. -/
theorem behind_front (run : IsRunAt (front ++ back) start count) (apart : ¬Meet front back)
    (le : front.length ≤ start) : ∃ place, start = front.length + place ∧ IsRunAt back place count := by
  rcases run.of_append apart with inside | behind
  · have le_length := inside.le_length
    have positive := inside.positive
    omega
  · exact behind

theorem eq_zero_of_ticks {other : Nat} (run : IsRunAt (ticks other) start count) : start = 0 := by
  rcases run with ⟨before, behind, ticks_eq, rfl, positive, ends, _⟩
  by_contra nonzero
  have nonempty : before ≠ [] := fun empty => nonzero (List.length_eq_zero_iff.mpr empty)
  have behind_nonempty : ticks count ++ behind ≠ [] := by simp [ticks_eq_cons positive]
  exact ends (meet_of_ticks ticks_eq nonempty behind_nonempty).1

/-- Two maximal runs of one length are the same if each length occurs but once. -/
theorem eq_of_nodup {other : Nat} (run : IsRunAt text start count) (again : IsRunAt text other count)
    (nodup : (runs text).Nodup) : other = start := by
  rcases run with ⟨before, behind, rfl, rfl, positive, ends, plain⟩
  have apart : ¬Meet before (ticks count ++ behind) := not_meet_of_getLast ends
  rw [runs_append apart, runs_ticks positive plain, List.nodup_append] at nodup
  rcases nodup with ⟨_, nodup_behind, disjoint⟩
  rcases again.of_append apart with inside | ⟨place, rfl, inside⟩
  · exact absurd rfl (disjoint count inside.mem_runs count List.mem_cons_self)
  · rcases inside.of_append (not_meet_of_startsPlain plain) with same | ⟨further, rfl, found⟩
    · rw [same.eq_zero_of_ticks, Nat.add_zero]
    · exact absurd found.mem_runs (List.nodup_cons.mp nodup_behind).1

end IsRunAt

/-! ## Spans at their places -/

section Span

variable {span other : Bounds} {fence closer again : Nat}

theorem Fenced.closer_le (left : Fenced text span fence closer) (right : Fenced text other fence again)
    (start_eq : span.start = other.start) : closer ≤ again := by
  by_contra behind
  have lt_again := right.lt_closer
  exact left.interior again (by omega) (by omega) right.closing

theorem Fenced.stop_le (left : Fenced text span fence closer)
    (right : Fenced text other fence closer) : span.stop ≤ other.stop := by
  by_contra behind
  rcases left.trailing other.stop right.le_stop (by omega) with ⟨c, at_stop, trailing⟩
  have stops := right.stops c at_stop
  rw [trailing] at stops
  cases stops

theorem IsSpanAt.lt_stop (isSpan : IsSpanAt text span) : span.start < span.stop := by
  rcases isSpan with ⟨fence, closer, fenced⟩
  have lt_closer := fenced.lt_closer
  have le_stop := fenced.le_stop
  omega

/-- At most one code span begins at a place. -/
theorem IsSpanAt.unique (left : IsSpanAt text span) (right : IsSpanAt text other)
    (start_eq : span.start = other.start) : span = other := by
  rcases left with ⟨fence, closer, left⟩
  rcases right with ⟨fence', again, right⟩
  have opening := left.opening
  rw [start_eq] at opening
  have fence_eq := opening.count_unique right.opening
  subst fence_eq
  have closer_eq := Nat.le_antisymm (left.closer_le right start_eq)
    (right.closer_le left start_eq.symm)
  subst closer_eq
  have stop_eq := Nat.le_antisymm (left.stop_le right) (right.stop_le left)
  cases span
  cases other
  simp_all

end Span

/-! ## No others can be paired -/

namespace Paired

variable {span other : Bounds} {spans others : List Bounds}

theorem head_le (paired : Paired text place (span :: spans)) (mem : other ∈ span :: spans) :
    span.start ≤ other.start := by
  rcases List.mem_cons.mp mem with rfl | mem
  · exact Nat.le_refl _
  · have lt_stop := (paired.isSpan span List.mem_cons_self).lt_stop
    have le := (List.pairwise_cons.mp paired.apart).1 other mem
    omega

theorem tail (paired : Paired text place (span :: spans)) : Paired text span.stop spans := by
  rcases List.pairwise_cons.mp paired.apart with ⟨behind, apart⟩
  refine ⟨?_, behind, apart, ?_⟩
  · intro later mem
    exact paired.isSpan later (List.mem_cons_of_mem span mem)
  · intro start count le run outside
    have lt_stop := (paired.isSpan span List.mem_cons_self).lt_stop
    have le_start := paired.behind span List.mem_cons_self
    apply paired.unmatched start count (by omega) run
    intro held mem holds
    rcases List.mem_cons.mp mem with rfl | mem
    · exact Nat.not_lt.mpr le holds.2
    · exact outside held mem holds

/-- No span is missed: where one begins, one of the spans lies. -/
theorem exists_holds (paired : Paired text place spans) (isSpan : IsSpanAt text other)
    (le : place ≤ other.start) : ∃ span ∈ spans, span.Holds other.start := by
  by_contra none
  rcases isSpan with ⟨fence, closer, fenced⟩
  apply paired.unmatched other.start fence le fenced.opening _ closer fenced.lt_closer fenced.closing
  intro span mem holds
  exact none ⟨span, mem, holds⟩

/-- The first span begins no later than one that stands anywhere in the text. -/
theorem start_le (paired : Paired text place (span :: spans)) (isSpan : IsSpanAt text other)
    (le : place ≤ other.start) : span.start ≤ other.start := by
  rcases paired.exists_holds isSpan le with ⟨held, mem, holds⟩
  exact Nat.le_trans (paired.head_le mem) holds.1

/-- A span can be put before others if no run before it is repeated further on. -/
theorem cons (isSpan : IsSpanAt text span) (paired : Paired text span.stop spans)
    (le_start : place ≤ span.start)
    (unmatched : ∀ start count, place ≤ start → start < span.start → IsRunAt text start count →
      ∀ later, start < later → ¬IsRunAt text later count) :
    Paired text place (span :: spans) := by
  refine ⟨?_, ?_, List.pairwise_cons.mpr ⟨paired.behind, paired.apart⟩, ?_⟩
  · intro held mem
    rcases List.mem_cons.mp mem with rfl | mem
    · exact isSpan
    · exact paired.isSpan held mem
  · intro held mem
    rcases List.mem_cons.mp mem with rfl | mem
    · exact le_start
    · have lt_stop := isSpan.lt_stop
      have le := paired.behind held mem
      omega
  · intro start count le run outside
    by_cases before : start < span.start
    · exact unmatched start count le before run
    · have behind : span.stop ≤ start := by
        by_contra inside
        exact outside span List.mem_cons_self ⟨Nat.not_lt.mp before, Nat.not_le.mp inside⟩
      apply paired.unmatched start count behind run
      intro held mem
      exact outside held (List.mem_cons_of_mem span mem)

theorem unique (left : Paired text place spans) (right : Paired text place others) :
    others = spans := by
  induction spans generalizing place others with
  | nil =>
    cases others with
    | nil => rfl
    | cons other others =>
      rcases left.exists_holds (right.isSpan other List.mem_cons_self)
        (right.behind other List.mem_cons_self) with ⟨_, mem, _⟩
      cases mem
  | cons span spans ih =>
    have isSpan := left.isSpan span List.mem_cons_self
    have le_start := left.behind span List.mem_cons_self
    cases others with
    | nil =>
      rcases right.exists_holds isSpan le_start with ⟨_, mem, _⟩
      cases mem
    | cons other others =>
      have isOther := right.isSpan other List.mem_cons_self
      have le_other := right.behind other List.mem_cons_self
      have start_eq := Nat.le_antisymm (right.start_le isSpan le_start)
        (left.start_le isOther le_other)
      have same := isOther.unique isSpan start_eq
      subst same
      rw [ih left.tail right.tail]

end Paired

/-! ## Spans of the grammar -/

section Grammar

variable {before span later idle behind : List Char}

theorem not_meet_append (apart : ¬Meet front (back ++ behind)) (inner : ¬Meet back behind) :
    ¬Meet (front ++ back) behind := by
  by_cases empty : back = []
  · subst empty
    simpa using apart
  · rintro ⟨ends, starts⟩
    rw [getLast?_append front empty] at ends
    exact inner ⟨ends, starts⟩

/-- No run goes on behind a span. -/
theorem IsSpan.not_meet (isSpan : IsSpan span later) : ¬Meet span later := by
  rcases isSpan with ⟨fence, body, punctuation, _, rfl, trailing, _, plain⟩
  by_cases empty : punctuation = []
  · subst empty
    exact not_meet_of_startsPlain plain
  · apply not_meet_of_getLast
    rw [getLast?_append _ empty]
    intro last
    have tick := trailing '`' (List.mem_of_getLast? last)
    revert tick
    decide

/-- No run of the length of the fence begins between the fences. -/
theorem IsBody.not_isRunAt {fence : Nat} {body : List Char} (isBody : IsBody fence body)
    (text_eq : text = (before ++ ticks fence) ++ (body ++ behind))
    (lt : before.length < place) (lt_closer : place < before.length + fence + body.length) :
    ¬IsRunAt text place fence := by
  intro run
  subst text_eq
  have opened := isBody.plain.append isBody.nonempty behind
  rcases run.of_append (not_meet_of_startsPlain opened) with inside | ⟨within, rfl, inside⟩
  · have le_length := inside.le_length
    simp only [List.length_append, length_ticks] at le_length
    omega
  · rcases inside.of_append (not_meet_of_getLast isBody.ends) with inside | ⟨beyond, rfl, _⟩
    · exact isBody.other inside.mem_runs
    · simp only [List.length_append, length_ticks] at lt_closer
      omega

theorem isSpanAt (isSpan : IsSpan span later) (text_eq : text = before ++ (span ++ later))
    (apart : ¬Meet before (span ++ later)) :
    IsSpanAt text ⟨before.length, before.length + span.length⟩ := by
  rcases isSpan with ⟨fence, body, punctuation, isBody, rfl, trailing, stops, plain⟩
  have positive := isBody.positive
  have at_body : text = (before ++ ticks fence) ++
      (body ++ (ticks fence ++ (punctuation ++ later))) := by simp [text_eq]
  have at_closer : text = (before ++ ticks fence ++ body) ++
      (ticks fence ++ (punctuation ++ later)) := by simp [text_eq]
  have at_punctuation : text = (before ++ ticks fence ++ body ++ ticks fence) ++
      (punctuation ++ later) := by simp [text_eq]
  have at_later : text = (before ++ (ticks fence ++ body ++ ticks fence ++ punctuation)) ++
      later := by simp [text_eq]
  have length_eq : (ticks fence ++ body ++ ticks fence ++ punctuation).length =
      fence + body.length + fence + punctuation.length := by
    simp only [List.length_append, length_ticks]
  refine ⟨fence, before.length + fence + body.length, ?_⟩
  constructor
  case opening =>
    refine ⟨before, _, by rw [at_body, List.append_assoc], rfl, positive, ?_,
      isBody.plain.append isBody.nonempty _⟩
    intro last
    apply apart
    exact ⟨last, by simp [ticks_eq_cons positive]⟩
  case closing =>
    refine ⟨_, _, at_closer, by simp [Nat.add_assoc], positive, ?_, plain⟩
    rw [getLast?_append _ isBody.nonempty]
    exact isBody.ends
  case lt_closer =>
    dsimp only
    omega
  case interior =>
    intro place lt lt_closer
    exact isBody.not_isRunAt at_body lt lt_closer
  case le_stop =>
    dsimp only
    omega
  case trailing =>
    intro place le lt_stop
    dsimp only at lt_stop
    have front_eq : (before ++ ticks fence ++ body ++ ticks fence).length =
        before.length + fence + body.length + fence := by
      simp only [List.length_append, length_ticks]
    have le_place : (before ++ ticks fence ++ body ++ ticks fence).length ≤ place := by omega
    rcases getElem?_inside at_punctuation le_place (by omega) with ⟨c, mem, at_place⟩
    exact ⟨c, at_place, trailing c mem⟩
  case stops =>
    intro c at_stop
    rw [getElem?_behind at_later List.length_append.symm] at at_stop
    simpa using stops c at_stop

/-- A run in an idle text is not repeated further on. -/
theorem Unmatched.not_isRunAt (unmatched : Unmatched idle behind)
    (text_eq : text = front ++ (idle ++ behind)) (apart : ¬Meet front (idle ++ behind))
    (le : front.length ≤ start) (lt : start < front.length + idle.length)
    (run : IsRunAt text start count) {later : Nat} (lt_later : start < later) :
    ¬IsRunAt text later count := by
  intro again
  subst text_eq
  rcases run.behind_front apart le with ⟨place, rfl, within⟩
  rcases again.behind_front apart (by omega) with ⟨next, rfl, next_within⟩
  rcases within.of_append unmatched.apart with first | ⟨beyond, rfl, _⟩
  · rcases next_within.of_append unmatched.apart with second | ⟨beyond, rfl, second⟩
    · have same := first.eq_of_nodup second unmatched.nodup
      omega
    · exact unmatched.disjoint count first.mem_runs second.mem_runs
  · omega

/-- The spans of a cut that fits the grammar are paired. -/
theorem paired_of_fits {cut : Cut} (fits : cut.Fits grammar) (apart : ¬Meet front cut.source)
    (text_eq : text = front ++ cut.source) :
    Paired text front.length ((cut.occurrences front.length).map Bounds.of) := by
  induction cut generalizing front with
  | last idle =>
    have unmatched : Unmatched idle [] := fits
    have whole : text = front ++ (idle ++ []) := by simpa [Cut.source] using text_eq
    rw [Cut.source, ← List.append_nil idle] at apart
    refine ⟨by simp [Cut.occurrences], by simp [Cut.occurrences], by simp [Cut.occurrences], ?_⟩
    intro start count le run _ later lt_later
    have inside := run.le_length
    have positive := run.positive
    simp only [whole, List.length_append, List.length_nil] at inside
    exact unmatched.not_isRunAt whole apart le (by omega) run lt_later
  | before idle construct later ih =>
    rcases fits with ⟨unmatched, ⟨span, rfl, isSpan⟩, fits⟩
    have unmatched : Unmatched idle (span ++ later.source) := unmatched
    have whole : text = front ++ (idle ++ (span ++ later.source)) := by
      simpa [Cut.source, Construct.source] using text_eq
    have split : text = (front ++ idle) ++ (span ++ later.source) := by simp [whole]
    have passed : text = (front ++ idle ++ span) ++ later.source := by simp [whole]
    have front_apart : ¬Meet front (idle ++ (span ++ later.source)) := by
      simpa [Cut.source, Construct.source] using apart
    have idle_apart := not_meet_append front_apart unmatched.apart
    have rest := ih fits (not_meet_append idle_apart isSpan.not_meet) passed
    have first := isSpanAt isSpan split idle_apart
    rw [List.length_append, List.length_append] at rest
    rw [List.length_append] at first
    apply Paired.cons first rest (Nat.le_add_right _ _)
    intro start count le lt_span run further
    exact unmatched.not_isRunAt whole front_apart le lt_span run

/-- The bounds of a span tell its token. -/
theorem occurrence_of_fits {cut : Cut} (fits : cut.Fits grammar) (ends : endsBlank front = false)
    (text_eq : text = front ++ cut.source) :
    ((cut.occurrences front.length).map Bounds.of).map (Bounds.occurrence text) =
      cut.occurrences front.length := by
  induction cut generalizing front with
  | last idle => rfl
  | before idle construct later ih =>
    have tight := tileable_grammar.tight fits.2.1
    rcases fits with ⟨_, ⟨span, rfl, isSpan⟩, fits⟩
    have tight : Tight span := tight
    have split : text = (front ++ idle) ++ span ++ later.source := by
      simpa [Cut.source, Construct.source] using text_eq
    have rest := ih fits (tight.endsBlank_append_left _) split
    have span_eq : stretch text (front.length + idle.length)
        (front.length + idle.length + span.length) = span :=
      stretch_append split (by simp) rfl
    have blank_eq : blankBefore text (front.length + idle.length) = endsBlank idle := by
      rw [blankBefore_append (split.trans (List.append_assoc _ _ _)) (by simp),
        endsBlank_behind ends]
    simp only [List.length_append] at rest
    simp only [Cut.occurrences, List.map_cons, Construct.source, rest, Bounds.occurrence, Bounds.of,
      span_eq, blank_eq, Construct.tokens]

end Grammar

/-- The scanner yields the tokens around spans that pair the runs of backticks, and no other spans
do that. -/
theorem tokens_around_spans (text : List Char) :
    ∃ spans, Paired text 0 spans ∧
      scanner.tokens text = tokensAround text 0 (spans.map (Bounds.occurrence text)) ∧
      ∀ others, Paired text 0 others → others = spans := by
  have fits := reads_scanner.fits_cut text
  have whole : text = [] ++ (scanner.cut text).source := (reads_scanner.source_cut text).symm
  have paired := paired_of_fits fits (by simp [Meet]) whole
  have tokens_eq := Cut.tokensAround_occurrences tileable_grammar fits rfl whole
  rw [← occurrence_of_fits fits rfl whole] at tokens_eq
  exact ⟨_, paired, tokens_eq.symm, fun others => paired.unique⟩

end Refill.CodeSpan
