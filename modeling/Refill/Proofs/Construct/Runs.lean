import Refill.Construct.CodeSpan
import Refill.Proofs.Text.Front

/-!
# Runs of backticks

Only the lengths of the maximal runs of backticks decide where the code spans of a text
are. `runs` lists these lengths in order. Two texts can be put side by side without
changing them (`runs_append`) unless backticks meet at the seam.
-/

namespace Refill.CodeSpan

open Text

def ticks (count : Nat) : List Char :=
  List.replicate count '`'

/-- The text does not begin with a backtick. -/
def StartsPlain (text : List Char) : Prop :=
  StopsAt (· == '`') text

/-- A run of backticks goes on from the first text into the second. -/
def Meet (front back : List Char) : Prop :=
  front.getLast? = some '`' ∧ back.head? = some '`'

/-- The lengths of the maximal runs of backticks in so many backticks and the text behind them. -/
def runsFrom (count : Nat) : List Char → List Nat
  | [] => if count = 0 then [] else [count]
  | c :: rest =>
      if c = '`' then runsFrom (count + 1) rest
      else if count = 0 then runsFrom 0 rest
      else count :: runsFrom 0 rest

def runs (text : List Char) : List Nat :=
  runsFrom 0 text

/-! ## Where runs begin and end -/

theorem mem_ticks {count : Nat} {c : Char} (mem : c ∈ ticks count) : (c == '`') = true := by
  simpa using List.eq_of_mem_replicate mem

theorem ticks_eq_cons {count : Nat} (positive : 0 < count) :
    ticks count = '`' :: ticks (count - 1) := by
  cases count with
  | zero => cases positive
  | succ count => rfl

theorem ticks_eq_concat {count : Nat} (positive : 0 < count) :
    ticks count = ticks (count - 1) ++ ['`'] := by
  cases count with
  | zero => cases positive
  | succ count => exact List.replicate_succ'

theorem getLast?_ticks {count : Nat} (positive : 0 < count) :
    (ticks count).getLast? = some '`' := by
  simp [ticks_eq_concat positive]

@[simp]
theorem length_ticks (count : Nat) : (ticks count).length = count :=
  List.length_replicate

theorem startsPlain_iff {text : List Char} : StartsPlain text ↔ text.head? ≠ some '`' := by
  cases text with
  | nil => simp [StartsPlain, stopsAt_nil]
  | cons c rest => simp [StartsPlain, StopsAt]

theorem not_meet_of_startsPlain {front back : List Char} (plain : StartsPlain back) :
    ¬Meet front back :=
  fun meet => startsPlain_iff.mp plain meet.2

theorem not_meet_of_getLast {front back : List Char} (ends : front.getLast? ≠ some '`') :
    ¬Meet front back :=
  fun meet => ends meet.1

/-- How far a run goes is told by the text it begins. -/
theorem ticks_append_inj {count other : Nat} {behind otherBehind : List Char}
    (same : ticks count ++ behind = ticks other ++ otherBehind) (plain : StartsPlain behind)
    (otherPlain : StartsPlain otherBehind) : count = other ∧ behind = otherBehind := by
  have ticks_eq : ticks count = ticks other := by
    rw [← takeWhile_front (fun _ => mem_ticks) plain, same,
      takeWhile_front (fun _ => mem_ticks) otherPlain]
  have count_eq : count = other := by simpa using congrArg List.length ticks_eq
  subst count_eq
  exact ⟨rfl, List.append_cancel_left same⟩

/-- The first run of backticks in a text, with what stands before and behind it. -/
structure FirstRun (text before : List Char) (count : Nat) (behind : List Char) : Prop where
  text_eq : text = before ++ (ticks count ++ behind)
  notMem : '`' ∉ before
  positive : 0 < count
  plain : StartsPlain behind

namespace FirstRun

variable {text before behind : List Char} {count : Nat}

theorem startsAt (first : FirstRun text before count behind) :
    StopsAt (· != '`') (ticks count ++ behind) := by
  rw [ticks_eq_cons first.positive]
  exact stopsAt_cons (by simp)

theorem before_eq (first : FirstRun text before count behind) :
    text.takeWhile (· != '`') = before := by
  rw [first.text_eq]
  refine takeWhile_front ?_ first.startsAt
  intro c mem
  simp only [bne_iff_ne, ne_eq]
  rintro rfl
  exact first.notMem mem

theorem unique {otherBefore otherBehind : List Char} {otherCount : Nat}
    (first : FirstRun text before count behind)
    (other : FirstRun text otherBefore otherCount otherBehind) :
    before = otherBefore ∧ count = otherCount ∧ behind = otherBehind := by
  have before_eq : before = otherBefore := first.before_eq.symm.trans other.before_eq
  subst before_eq
  have run_eq : ticks count ++ behind = ticks otherCount ++ otherBehind :=
    List.append_cancel_left (first.text_eq.symm.trans other.text_eq)
  exact ⟨rfl, ticks_append_inj run_eq first.plain other.plain⟩

/-- What stands behind the run ends as the whole text does, if that is not with a backtick. -/
theorem behind_ends (first : FirstRun text before count behind)
    (ends : text.getLast? ≠ some '`') : behind ≠ [] ∧ behind.getLast? ≠ some '`' := by
  have nonempty : behind ≠ [] := by
    rintro rfl
    apply ends
    rw [first.text_eq, List.append_nil, ticks_eq_concat first.positive, ← List.append_assoc,
      List.getLast?_concat]
  refine ⟨nonempty, ?_⟩
  rwa [first.text_eq, getLast?_append _ (by simp [nonempty]), getLast?_append _ nonempty] at ends

theorem append (first : FirstRun text before count behind) (ends : text.getLast? ≠ some '`')
    (later : List Char) : FirstRun (text ++ later) before count (behind ++ later) where
  text_eq := by simp [first.text_eq]
  notMem := first.notMem
  positive := first.positive
  plain := first.plain.append (first.behind_ends ends).1 later

end FirstRun

theorem exists_ticks (text : List Char) :
    ∃ count, text.takeWhile (· == '`') = ticks count := by
  refine ⟨(text.takeWhile (· == '`')).length, List.eq_replicate_of_mem ?_⟩
  intro c mem
  simpa using holds_of_mem_takeWhile mem

theorem exists_firstRun {text : List Char} (mem : '`' ∈ text) :
    ∃ before count behind, FirstRun text before count behind := by
  have split := (List.takeWhile_append_dropWhile (p := (· != '`')) (l := text)).symm
  have starts := stopsAt_dropWhile (· != '`') text
  cases rest_eq : text.dropWhile (· != '`') with
  | nil =>
    rw [List.dropWhile_eq_nil_iff] at rest_eq
    simpa using rest_eq '`' mem
  | cons c rest =>
    rw [rest_eq] at split starts
    have tick : c = '`' := by simpa using starts c rfl
    rcases exists_ticks (c :: rest) with ⟨count, count_eq⟩
    refine ⟨text.takeWhile (· != '`'), count, (c :: rest).dropWhile (· == '`'), ?_, ?_, ?_,
      stopsAt_dropWhile _ _⟩
    · rw [← count_eq, List.takeWhile_append_dropWhile]
      exact split
    · intro inside
      simpa using holds_of_mem_takeWhile inside
    · rw [Nat.pos_iff_ne_zero]
      rintro rfl
      simp [tick, ticks] at count_eq

/-! ## Lengths of runs -/

@[simp]
theorem runs_nil : runs [] = [] := rfl

theorem runs_cons {c : Char} (other : c ≠ '`') (rest : List Char) :
    runs (c :: rest) = runs rest := by
  simp [runs, runsFrom, other]

theorem runsFrom_eq {count : Nat} {text : List Char} (positive : 0 < count)
    (plain : StartsPlain text) : runsFrom count text = count :: runs text := by
  have nonzero : count ≠ 0 := Nat.pos_iff_ne_zero.mp positive
  cases text with
  | nil => simp [runsFrom, runs, nonzero]
  | cons c rest =>
    have other : c ≠ '`' := by simpa using plain c rfl
    simp [runsFrom, runs, other, nonzero]

theorem runsFrom_ticks (count more : Nat) (text : List Char) :
    runsFrom count (ticks more ++ text) = runsFrom (count + more) text := by
  induction more generalizing count with
  | zero => rfl
  | succ more ih =>
    rw [show ticks (more + 1) = '`' :: ticks more from rfl]
    simp only [List.cons_append, runsFrom, if_true, ih]
    congr 1
    omega

theorem runs_ticks {count : Nat} {text : List Char} (positive : 0 < count)
    (plain : StartsPlain text) : runs (ticks count ++ text) = count :: runs text := by
  rw [runs, runsFrom_ticks, Nat.zero_add, runsFrom_eq positive plain]

theorem runsFrom_append {count : Nat} {front back : List Char} (nonempty : front ≠ [])
    (apart : ¬Meet front back) :
    runsFrom count (front ++ back) = runsFrom count front ++ runs back := by
  induction front generalizing count with
  | nil => exact absurd rfl nonempty
  | cons c rest ih =>
    by_cases last : rest = []
    · subst last
      by_cases tick : c = '`'
      · have plain : StartsPlain back :=
          startsPlain_iff.mpr fun start => apart ⟨by simp [tick], start⟩
        simp [runsFrom, tick, runsFrom_eq (Nat.succ_pos count) plain]
      · by_cases zero : count = 0
        · simp [runsFrom, tick, zero, runs]
        · simp [runsFrom, tick, zero, runs]
    · have restApart : ¬Meet rest back := by
        rintro ⟨ends, start⟩
        refine apart ⟨?_, start⟩
        rwa [List.getLast?_cons_of_ne_nil last]
      by_cases tick : c = '`'
      · simp [runsFrom, tick, ih last restApart]
      · by_cases zero : count = 0
        · simp [runsFrom, tick, zero, ih last restApart]
        · simp [runsFrom, tick, zero, ih last restApart]

/-- Texts side by side have the runs of both, unless backticks meet between them. -/
theorem runs_append {front back : List Char} (apart : ¬Meet front back) :
    runs (front ++ back) = runs front ++ runs back := by
  by_cases empty : front = []
  · simp [empty]
  · exact runsFrom_append empty apart

theorem runs_of_notMem {text : List Char} (missing : '`' ∉ text) : runs text = [] := by
  induction text with
  | nil => rfl
  | cons c rest ih =>
    have other : c ≠ '`' := fun same => missing (by simp [same])
    rw [runs_cons other]
    exact ih fun mem => missing (List.mem_cons_of_mem c mem)

theorem runs_append_of_notMem {front : List Char} (missing : '`' ∉ front) (back : List Char) :
    runs (front ++ back) = runs back := by
  rw [runs_append, runs_of_notMem missing, List.nil_append]
  apply not_meet_of_getLast
  intro ends
  exact missing (List.mem_of_getLast? ends)

theorem FirstRun.runs_eq {text before behind : List Char} {count : Nat}
    (first : FirstRun text before count behind) : runs text = count :: runs behind := by
  rw [first.text_eq, runs_append_of_notMem first.notMem, runs_ticks first.positive first.plain]

end Refill.CodeSpan
