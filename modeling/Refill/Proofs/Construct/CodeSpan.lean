import Refill.Proofs.Construct.Grammar
import Refill.Proofs.Construct.Runs

/-!
# The grammar of code spans

A code span is a run of backticks, a body in which no maximal run has the same length,
another run of that length, and the punctuation behind it. Text outside the spans is
idle if no two of its runs have the same length and none has the length of a run further
on. The scanner reads this grammar (`reads_scanner`).
-/

namespace Refill.CodeSpan

open Text

variable {text : List Char}

/-- A body between two fences of the given length. -/
structure IsBody (fence : Nat) (body : List Char) : Prop where
  positive : 0 < fence
  nonempty : body ≠ []
  plain : StartsPlain body
  ends : body.getLast? ≠ some '`'
  other : fence ∉ runs body

/-- The text is a code span, when the given characters come behind it. -/
def IsSpan (span later : List Char) : Prop :=
  ∃ fence body punctuation, IsBody fence body ∧
    span = ticks fence ++ body ++ ticks fence ++ punctuation ∧
    (∀ c ∈ punctuation, isTrailing c) ∧ StopsAt isTrailing later ∧
    StartsPlain (punctuation ++ later)

/-- No run of backticks in the text has the length of one further on, and its last run ends
with it. -/
structure Unmatched (front later : List Char) : Prop where
  apart : ¬Meet front later
  nodup : (runs front).Nodup
  disjoint : ∀ fence ∈ runs front, fence ∉ runs later

def grammar : Grammar where
  Stands construct later := ∃ span, construct = .codeSpan span ∧ IsSpan span later
  Idle := Unmatched
  idle_nil later := ⟨by simp [Meet], by simp, by simp⟩
  source_ne_nil := by
    rintro _ later ⟨_, rfl, fence, body, punctuation, isBody, rfl, _⟩
    simp [Construct.source, isBody.nonempty]

/-! ## Runs at a cursor -/

section Run

variable {cursor : Cursor text} {count : Nat} {behind : List Char}

theorem runLength_eq (rest_eq : cursor.rest = ticks count ++ behind)
    (plain : StartsPlain behind) : cursor.runLength '`' = count := by
  rw [Cursor.runLength, rest_eq, takeWhile_front (fun _ => mem_ticks) plain, length_ticks]

theorem passes_skipRun (rest_eq : cursor.rest = ticks count ++ behind)
    (plain : StartsPlain behind) : cursor.Passes (ticks count) (cursor.skipRun '`') := by
  have passes := cursor.passes_skipWhile (· == '`')
  rwa [rest_eq, takeWhile_front (fun _ => mem_ticks) plain] at passes

theorem rest_skipRun (rest_eq : cursor.rest = ticks count ++ behind)
    (plain : StartsPlain behind) : (cursor.skipRun '`').rest = behind := by
  rw [Cursor.skipRun, Cursor.rest_skipWhile, rest_eq,
    dropWhile_front (fun _ => mem_ticks) plain]

/-- The search for a backtick stops at the first run. -/
theorem exists_firstRun_of_find {run : Cursor text} (found : cursor.find '`' = some run) :
    ∃ before, FirstRun cursor.rest before (run.runLength '`') (run.skipRun '`').rest ∧
      cursor.Passes (before ++ ticks (run.runLength '`')) (run.skipRun '`') := by
  have mem : '`' ∈ cursor.rest := by
    by_contra missing
    rw [Cursor.find_eq_none_iff.mpr missing] at found
    cases found
  rcases exists_firstRun mem with ⟨before, count, behind, first⟩
  have toRun := Cursor.passes_find found
  rw [first.before_eq] at toRun
  have run_rest : run.rest = ticks count ++ behind := by
    have both := toRun.rest_eq
    rw [first.text_eq] at both
    exact (List.append_cancel_left both).symm
  rw [runLength_eq run_rest first.plain, rest_skipRun run_rest first.plain]
  exact ⟨before, first, toRun.trans (passes_skipRun run_rest first.plain)⟩

theorem exists_run_of_peek (peek_eq : cursor.peek = some '`') :
    ∃ count behind, 0 < count ∧ cursor.rest = ticks count ++ behind ∧ StartsPlain behind := by
  rcases List.head?_eq_some_iff.mp peek_eq with ⟨rest, rest_eq⟩
  rcases exists_ticks cursor.rest with ⟨count, count_eq⟩
  refine ⟨count, cursor.rest.dropWhile (· == '`'), ?_, ?_, stopsAt_dropWhile _ _⟩
  · rw [Nat.pos_iff_ne_zero]
    rintro rfl
    simp [rest_eq, ticks] at count_eq
  · rw [← count_eq, List.takeWhile_append_dropWhile]

theorem peek_of_rest (positive : 0 < count) (rest_eq : cursor.rest = ticks count ++ behind) :
    cursor.peek = some '`' := by
  rw [Cursor.peek, rest_eq, ticks_eq_cons positive]
  rfl

end Run

/-! ## The end of a span -/

/-- If nothing closes a fence, no run of its length follows. -/
theorem notMem_runs_of_closing {fence : Nat} {cursor : Cursor text}
    (closing_eq : closing fence cursor = none) : fence ∉ runs cursor.rest := by
  fun_induction closing fence cursor with
  | case1 cursor found =>
    rw [runs_of_notMem (Cursor.find_eq_none_iff.mp found)]
    simp
  | case2 => cases closing_eq
  | case3 cursor run found run_le run_lt other ih =>
    rcases exists_firstRun_of_find found with ⟨before, first, _⟩
    rw [first.runs_eq]
    simp only [List.mem_cons, not_or]
    exact ⟨Ne.symm other, ih closing_eq⟩

/-- What closes a fence is the first run of its length. -/
theorem exists_body_of_closing {fence : Nat} {cursor closed : Cursor text}
    (closing_eq : closing fence cursor = some closed) :
    ∃ body, cursor.Passes (body ++ ticks fence) closed ∧ 0 < fence ∧ fence ∉ runs body ∧
      body.getLast? ≠ some '`' ∧ StartsPlain closed.rest := by
  fun_induction closing fence cursor with
  | case1 => cases closing_eq
  | case2 cursor run found run_le run_lt length_eq =>
    cases closing_eq
    rcases exists_firstRun_of_find found with ⟨before, first, passes⟩
    rw [length_eq] at first passes
    refine ⟨before, passes, first.positive, ?_, ?_, first.plain⟩
    · simp [runs_of_notMem first.notMem]
    · exact fun ends => first.notMem (List.mem_of_getLast? ends)
  | case3 cursor run found run_le run_lt other ih =>
    rcases ih closing_eq with ⟨body, toClosed, positive, missing, ends, plain⟩
    rcases exists_firstRun_of_find found with ⟨before, first, toBehind⟩
    -- The rest of the body comes right behind a maximal run, so it is not empty.
    have bodyPlain : StartsPlain (body ++ ticks fence) := by
      have behindPlain := first.plain
      rw [toClosed.rest_eq] at behindPlain
      exact behindPlain.of_append
    have nonempty : body ≠ [] := by
      rintro rfl
      rw [List.nil_append, ticks_eq_cons positive] at bodyPlain
      simpa using bodyPlain '`' rfl
    have first' : FirstRun (before ++ (ticks (run.runLength '`') ++ body)) before
        (run.runLength '`') body :=
      ⟨rfl, first.notMem, first.positive, bodyPlain.of_append⟩
    refine ⟨before ++ (ticks (run.runLength '`') ++ body), ?_, positive, ?_, ?_, plain⟩
    · simpa using toBehind.trans toClosed
    · rw [first'.runs_eq]
      simp only [List.mem_cons, not_or]
      exact ⟨Ne.symm other, missing⟩
    · rw [getLast?_append _ (by simp [nonempty]), getLast?_append _ nonempty]
      exact ends

/-- The first run of its length closes a fence. -/
theorem exists_closing {fence : Nat} {cursor : Cursor text} {body later : List Char}
    (rest_eq : cursor.rest = body ++ (ticks fence ++ later)) (positive : 0 < fence)
    (missing : fence ∉ runs body) (ends : body.getLast? ≠ some '`') (plain : StartsPlain later) :
    ∃ closed, closing fence cursor = some closed ∧ closed.rest = later := by
  fun_induction closing fence cursor generalizing body with
  | case1 cursor found =>
    have absent := Cursor.find_eq_none_iff.mp found
    rw [rest_eq, ticks_eq_cons positive] at absent
    simp at absent
  | case2 cursor run found run_le run_lt length_eq =>
    rcases exists_firstRun_of_find found with ⟨before, first, _⟩
    refine ⟨_, rfl, ?_⟩
    by_cases mem : '`' ∈ body
    · rcases exists_firstRun mem with ⟨front, count, back, bodyFirst⟩
      have whole := bodyFirst.append ends (ticks fence ++ later)
      rw [← rest_eq] at whole
      rcases first.unique whole with ⟨_, count_eq, _⟩
      rw [bodyFirst.runs_eq, ← count_eq, length_eq] at missing
      simp at missing
    · have whole : FirstRun cursor.rest body fence later := ⟨rest_eq, mem, positive, plain⟩
      exact (first.unique whole).2.2
  | case3 cursor run found run_le run_lt other ih =>
    rcases exists_firstRun_of_find found with ⟨before, first, _⟩
    by_cases mem : '`' ∈ body
    · rcases exists_firstRun mem with ⟨front, count, back, bodyFirst⟩
      have whole := bodyFirst.append ends (ticks fence ++ later)
      rw [← rest_eq] at whole
      rcases first.unique whole with ⟨_, _, behind_eq⟩
      rw [bodyFirst.runs_eq] at missing
      exact ih behind_eq (fun inside => missing (List.mem_cons_of_mem count inside))
        (bodyFirst.behind_ends ends).2
    · have whole : FirstRun cursor.rest body fence later := ⟨rest_eq, mem, positive, plain⟩
      exact absurd (first.unique whole).2.1 other

/-! ## The scanner -/

section Scanner

variable {cursor : Cursor text}

theorem look_of_other (other : cursor.peek ≠ some '`') :
    look () cursor = .nothing cursor.next () := by
  rw [look, if_neg other]

/-- A run that nothing closes is passed over whole. -/
theorem look_of_unmatched {count : Nat} {behind : List Char} (positive : 0 < count)
    (rest_eq : cursor.rest = ticks count ++ behind) (plain : StartsPlain behind)
    (missing : count ∉ runs behind) : look () cursor = .nothing (cursor.skipRun '`') () := by
  rw [look, if_pos (peek_of_rest positive rest_eq)]
  dsimp only
  split
  · rfl
  next closed closing_eq =>
    rw [runLength_eq rest_eq plain] at closing_eq
    rcases exists_body_of_closing closing_eq with ⟨body, passes, _, _, ends, closedPlain⟩
    rw [← rest_skipRun rest_eq plain, passes.rest_eq, List.append_assoc, runs_append,
      runs_ticks positive closedPlain] at missing
    · simp at missing
    · exact not_meet_of_getLast ends

/-- A run at which nothing is found has no closing run. -/
theorem unmatched_of_look {count : Nat} {behind : List Char} {next : Cursor text} {memo : Unit}
    (positive : 0 < count) (rest_eq : cursor.rest = ticks count ++ behind)
    (plain : StartsPlain behind) (look_eq : look () cursor = .nothing next memo) :
    next = cursor.skipRun '`' ∧ count ∉ runs behind := by
  rw [look, if_pos (peek_of_rest positive rest_eq), runLength_eq rest_eq plain] at look_eq
  dsimp only at look_eq
  split at look_eq
  next closing_eq =>
    cases look_eq
    refine ⟨rfl, ?_⟩
    rw [← rest_skipRun rest_eq plain]
    exact notMem_runs_of_closing closing_eq
  · cases look_eq

theorem look_of_isSpan {span later : List Char} (rest_eq : cursor.rest = span ++ later)
    (isSpan : IsSpan span later) :
    ∃ next, look () cursor = .construct (.codeSpan span) next () ∧ next.rest = later := by
  rcases isSpan with ⟨fence, body, punctuation, isBody, rfl, trailing, stops, plain⟩
  have run_eq : cursor.rest = ticks fence ++ (body ++ (ticks fence ++ (punctuation ++ later))) := by
    simp [rest_eq]
  have opened := isBody.plain.append isBody.nonempty (ticks fence ++ (punctuation ++ later))
  rcases exists_closing (rest_skipRun run_eq opened) isBody.positive isBody.other isBody.ends
    plain with ⟨closed, closing_eq, closed_rest⟩
  have toOpened := passes_skipRun run_eq opened
  rcases exists_body_of_closing closing_eq with ⟨again, toClosed, _⟩
  have toStop := closed.passes_skipWhile isTrailing
  have stop_rest : (closed.skipWhile isTrailing).rest = later := by
    rw [Cursor.rest_skipWhile, closed_rest, dropWhile_front trailing stops]
  have passes := (toOpened.trans toClosed).trans toStop
  have span_eq := passes.rest_eq
  rw [stop_rest, rest_eq] at span_eq
  refine ⟨closed.skipWhile isTrailing, ?_, stop_rest⟩
  rw [look, if_pos (peek_of_rest isBody.positive run_eq), runLength_eq run_eq opened]
  simp only [closing_eq, passes.textTo_eq, ← List.append_cancel_right span_eq]

theorem isSpan_of_look {construct : Construct} {next : Cursor text} {memo : Unit}
    (look_eq : look () cursor = .construct construct next memo) :
    ∃ span, construct = .codeSpan span ∧ cursor.Passes span next ∧ IsSpan span next.rest := by
  by_cases tick : cursor.peek = some '`'
  · rcases exists_run_of_peek tick with ⟨fence, behind, positive, rest_eq, opened⟩
    rw [look, if_pos tick, runLength_eq rest_eq opened] at look_eq
    dsimp only at look_eq
    split at look_eq
    · cases look_eq
    next closed closing_eq =>
      rcases exists_body_of_closing closing_eq with ⟨body, toClosed, _, missing, ends, plain⟩
      have toStop := closed.passes_skipWhile isTrailing
      have passes := ((passes_skipRun rest_eq opened).trans toClosed).trans toStop
      -- The body comes right behind a maximal run, so it is not empty.
      have bodyPlain : StartsPlain (body ++ ticks fence) := by
        rw [← rest_skipRun rest_eq opened, toClosed.rest_eq] at opened
        exact opened.of_append
      have nonempty : body ≠ [] := by
        rintro rfl
        rw [List.nil_append, ticks_eq_cons positive] at bodyPlain
        simpa using bodyPlain '`' rfl
      cases look_eq
      refine ⟨_, rfl, ?_, fence, body, closed.rest.takeWhile isTrailing,
        ⟨positive, nonempty, bodyPlain.of_append, ends, missing⟩, ?_, ?_,
        stopsAt_dropWhile _ _, ?_⟩
      · rw [passes.textTo_eq]
        exact passes
      · rw [passes.textTo_eq]
        simp
      · exact fun c mem => holds_of_mem_takeWhile mem
      · rw [Cursor.rest_skipWhile, List.takeWhile_append_dropWhile]
        exact plain
  · rw [look_of_other tick] at look_eq
    cases look_eq

end Scanner

/-! ## Idle text -/

namespace Unmatched

variable {c : Char} {front back later : List Char} {count : Nat}

theorem concat (idle : Unmatched front (c :: later)) (other : c ≠ '`') :
    Unmatched (front ++ [c]) later := by
  have runs_eq : runs (front ++ [c]) = runs front := by
    rw [runs_append (not_meet_of_startsPlain (stopsAt_cons (by simpa using other))),
      runs_cons other]
    simp
  refine ⟨not_meet_of_getLast (by simpa using other), ?_, ?_⟩
  · rw [runs_eq]
    exact idle.nodup
  · rw [runs_eq]
    intro fence mem
    have missing := idle.disjoint fence mem
    rwa [runs_cons other] at missing

theorem append_ticks (idle : Unmatched front (ticks count ++ later)) (positive : 0 < count)
    (plain : StartsPlain later) (missing : count ∉ runs later) :
    Unmatched (front ++ ticks count) later := by
  have apart : ¬Meet front (ticks count) := by
    rintro ⟨ends, _⟩
    exact idle.apart ⟨ends, by rw [ticks_eq_cons positive]; rfl⟩
  have runs_eq : runs (front ++ ticks count) = runs front ++ [count] := by
    rw [runs_append apart]
    simpa using @runs_ticks count [] positive stopsAt_nil
  refine ⟨not_meet_of_startsPlain plain, ?_, ?_⟩
  · rw [runs_eq, List.nodup_append]
    refine ⟨idle.nodup, by simp, ?_⟩
    intro fence mem last lastMem same
    have fresh := idle.disjoint fence mem
    rw [runs_ticks positive plain] at fresh
    simp only [List.mem_singleton] at lastMem
    exact fresh (by simp [same, lastMem])
  · rw [runs_eq]
    intro fence mem
    rcases List.mem_append.mp mem with mem | mem
    · have fresh := idle.disjoint fence mem
      rw [runs_ticks positive plain] at fresh
      exact fun inside => fresh (List.mem_cons_of_mem count inside)
    · simp only [List.mem_singleton] at mem
      rwa [mem]

theorem apart_of_append (idle : Unmatched (front ++ back) later) : ¬Meet back later := by
  rintro ⟨ends, start⟩
  refine idle.apart ⟨?_, start⟩
  rw [List.getLast?_append, ends, Option.some_or]

theorem of_cons (idle : Unmatched (c :: back) later) (other : c ≠ '`') : Unmatched back later where
  apart := @apart_of_append [c] back later idle
  nodup := by
    have nodup := idle.nodup
    rwa [runs_cons other] at nodup
  disjoint := by
    have disjoint := idle.disjoint
    rwa [runs_cons other] at disjoint

theorem of_ticks (idle : Unmatched (ticks count ++ back) later) (positive : 0 < count)
    (plain : StartsPlain back) : Unmatched back later ∧ count ∉ runs (back ++ later) := by
  have apart := idle.apart_of_append
  have nodup := idle.nodup
  have disjoint := idle.disjoint
  rw [runs_ticks positive plain] at nodup disjoint
  rw [List.nodup_cons] at nodup
  refine ⟨⟨apart, nodup.2, fun fence mem => disjoint fence (List.mem_cons_of_mem count mem)⟩, ?_⟩
  rw [runs_append apart, List.mem_append, not_or]
  exact ⟨nodup.1, disjoint count List.mem_cons_self⟩

/-- An idle text goes on behind its first run, or behind its first character if that is none. -/
theorem exists_ticks_or_cons (idle : Unmatched front later) (nonempty : front ≠ []) :
    (∃ count back, 0 < count ∧ front = ticks count ++ back ∧ StartsPlain back ∧
      StartsPlain (back ++ later)) ∨ ∃ c back, front = c :: back ∧ c ≠ '`' := by
  cases front with
  | nil => exact absurd rfl nonempty
  | cons c rest =>
    by_cases tick : c = '`'
    · left
      rcases exists_ticks (c :: rest) with ⟨count, count_eq⟩
      have split := (List.takeWhile_append_dropWhile (p := (· == '`')) (l := c :: rest)).symm
      rw [count_eq] at split
      have plain := stopsAt_dropWhile (· == '`') (c :: rest)
      have positive : 0 < count := by
        rw [Nat.pos_iff_ne_zero]
        rintro rfl
        simp [tick, ticks] at count_eq
      refine ⟨count, _, positive, split, plain, ?_⟩
      by_cases whole : (c :: rest).dropWhile (· == '`') = []
      · rw [whole, List.append_nil] at split
        rw [whole, List.nil_append, startsPlain_iff]
        intro start
        apply idle.apart
        rw [split]
        exact ⟨getLast?_ticks positive, start⟩
      · exact StopsAt.append plain whole later
    · exact Or.inr ⟨c, rest, rfl, tick⟩

end Unmatched

theorem reads_scanner : scanner.Reads grammar (fun _ _ => True) where
  sound_initial _ := trivial
  construct := by
    intro text _ _ cursor next construct _ _ look_eq
    rcases isSpan_of_look look_eq with ⟨span, rfl, passes, isSpan⟩
    exact ⟨trivial, passes, span, rfl, isSpan⟩
  nothing := by
    intro text _ _ cursor next _ _ left look_eq
    refine ⟨trivial, ?_⟩
    by_cases tick : cursor.peek = some '`'
    · rcases exists_run_of_peek tick with ⟨count, behind, positive, rest_eq, plain⟩
      rcases unmatched_of_look positive rest_eq plain look_eq with ⟨rfl, missing⟩
      refine ⟨ticks count, passes_skipRun rest_eq plain, ?_⟩
      intro before idle
      rw [rest_skipRun rest_eq plain]
      rw [rest_eq] at idle
      exact Unmatched.append_ticks idle positive plain missing
    · rcases List.exists_cons_of_ne_nil left with ⟨c, rest, rest_eq⟩
      have look_eq : look () cursor = .nothing next () := look_eq
      rw [look_of_other tick] at look_eq
      cases look_eq
      refine ⟨[c], Cursor.passes_next rest_eq, ?_⟩
      intro before idle
      rw [Cursor.rest_next rest_eq]
      rw [rest_eq] at idle
      exact Unmatched.concat idle (by simpa [Cursor.peek, rest_eq] using tick)
  stands := by
    rintro text _ cursor _ behind _ _ rest_eq ⟨span, rfl, isSpan⟩
    rcases look_of_isSpan rest_eq isSpan with ⟨next, look_eq, next_rest⟩
    exact ⟨next, (), look_eq, next_rest⟩
  idle := by
    intro text _ cursor idle behind _ _ rest_eq nonempty unmatched
    rcases Unmatched.exists_ticks_or_cons unmatched nonempty with
      ⟨count, back, positive, rfl, plain, apart⟩ | ⟨c, back, rfl, other⟩
    · rcases Unmatched.of_ticks unmatched positive plain with ⟨rest, missing⟩
      rw [List.append_assoc] at rest_eq
      exact ⟨_, (), ticks count, back, look_of_unmatched positive rest_eq apart missing, rfl,
        rest_skipRun rest_eq apart, rest⟩
    · have tick : cursor.peek ≠ some '`' := by simpa [Cursor.peek, rest_eq] using other
      exact ⟨_, (), [c], back, look_of_other tick, rfl, Cursor.rest_next rest_eq,
        Unmatched.of_cons unmatched other⟩

end Refill.CodeSpan
