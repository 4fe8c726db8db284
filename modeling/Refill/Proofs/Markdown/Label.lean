import Refill.Proofs.Markdown.Seam

/-!
# Labels of whole lines

A label may go on over several lines, but not past a blank line (`givesUp_blank`). So a label that
begins in lines before a blank one ends in them, whatever stands behind (`label_go_lines`).
-/

namespace Refill.Markdown

variable {lineBreak : List Char → Option Nat} {lines tail other : List Char} {room : Nat}

/-- A label whose latest character is a line end is given up in the text, where at most so many
characters are passed over. -/
def GivesUp (lineBreak : List Char → Option Nat) (room : Nat) (tail : List Char) : Prop :=
  ∀ scan : LabelScan, scan.broken = true → scan.skip ≤ room → label?.go lineBreak scan tail = none

/-- A label does not go on behind a blank line. -/
theorem givesUp_blank {blanks : List Char} (blank : ∀ c ∈ blanks, c = ' ' ∨ c = '\t' ∨ c = '\r')
    (back : List Char) : GivesUp lineBreak blanks.length (blanks ++ '\n' :: back) := by
  intro scan broken within
  induction blanks generalizing scan with
  | nil =>
    have skip_eq : scan.skip = 0 := Nat.le_zero.mp within
    rw [List.nil_append, label?.go.eq_def]
    simp [skip_eq, broken, isLineEnd]
  | cons c blanks ih =>
    rw [List.forall_mem_cons] at blank
    rw [List.length_cons] at within
    rw [List.cons_append, label?.go.eq_def]
    dsimp only
    split
    · refine ih blank.2 _ broken ?_
      dsimp only
      omega
    · have later : label?.go lineBreak scan.pushBlank (blanks ++ '\n' :: back) = none := by
        refine ih blank.2 _ broken ?_
        dsimp only [LabelScan.pushBlank]
        omega
      rcases blank.1 with rfl | rfl | rfl
      · simp [isLineEnd, isGap, later]
      · simp [isLineEnd, isGap, later]
      · simp [isLineEnd]

/-- Behind a line end a label goes on in the same way before both texts, in the same line. -/
def BreaksAlike (lineBreak : List Char → Option Nat) (lines tail other : List Char) (room : Nat) :
    Prop :=
  ∀ inner, inner <:+ lines → lineBreak (inner ++ tail) = lineBreak (inner ++ other) ∧
    ∀ skip, lineBreak (inner ++ tail) = some skip → skip ≤ inner.length + room

theorem Closed.length_pos {c : Char} (closed : Closed (c :: lines)) (inLine : c ≠ '\n') :
    0 < lines.length := by
  apply List.length_pos_iff.mpr
  rintro rfl
  exact inLine closed.eq_feed

/-- The last line feed of whole lines is not escaped. -/
theorem Closed.length_pos_of_escape {escaped : Char}
    (closed : Closed ('\\' :: escaped :: lines)) : 0 < lines.length := by
  apply List.length_pos_iff.mpr
  rintro rfl
  rw [(closed.of_suffix (List.suffix_cons _ _)).eq_feed] at closed
  exact closed.plain (List.suffix_refl _)

/-- From the scan on, a label ends in the same way before both texts, and in the lines if at all. -/
def EndsAlike (lineBreak : List Char → Option Nat) (scan : LabelScan)
    (lines tail other : List Char) : Prop :=
  label?.go lineBreak scan (lines ++ tail) = label?.go lineBreak scan (lines ++ other) ∧
    ∀ length name, label?.go lineBreak scan (lines ++ tail) = some (length, name) →
      length < scan.length + lines.length

/-- Behind one more character a label ends alike, whatever has become of the scan there. -/
def GoesOnAlike (lineBreak : List Char → Option Nat) (scan : LabelScan)
    (lines tail other : List Char) (room : Nat) : Prop :=
  ∀ next : LabelScan, next.length = scan.length + 1 → next.skip ≤ lines.length + room →
    (lines.length ≤ next.skip → next.broken = true) → EndsAlike lineBreak next lines tail other

variable {scan : LabelScan} {c : Char}

theorem endsAlike_of_none (gives : label?.go lineBreak scan (lines ++ tail) = none)
    (otherGives : label?.go lineBreak scan (lines ++ other) = none) :
    EndsAlike lineBreak scan lines tail other := by
  refine ⟨by rw [gives, otherGives], fun length name found => ?_⟩
  rw [gives] at found
  cases found

/-- A label that goes on alike from a later scan does so from the earlier one. -/
theorem EndsAlike.of_go {next : LabelScan} {inner : List Char}
    (alike : EndsAlike lineBreak next inner tail other)
    (goes : ∀ text, text = tail ∨ text = other →
      label?.go lineBreak scan (lines ++ text) = label?.go lineBreak next (inner ++ text))
    (le : next.length + inner.length ≤ scan.length + lines.length) :
    EndsAlike lineBreak scan lines tail other := by
  rw [EndsAlike, goes tail (.inl rfl), goes other (.inr rfl)]
  exact ⟨alike.1, fun length name found => (alike.2 length name found).trans_le le⟩

theorem GoesOnAlike.cons (goesOn : GoesOnAlike lineBreak scan lines tail other room)
    (next : LabelScan) (length_eq : next.length = scan.length + 1)
    (kept : next.skip ≤ lines.length + room) (broken : lines.length ≤ next.skip → next.broken = true)
    (goes : ∀ text, text = tail ∨ text = other →
      label?.go lineBreak scan (c :: lines ++ text) = label?.go lineBreak next (lines ++ text)) :
    EndsAlike lineBreak scan (c :: lines) tail other := by
  apply (goesOn next length_eq kept broken).of_go goes
  rw [length_eq, List.length_cons]
  omega

/-- A line end of whole lines is read with the line feed that belongs to it and with what begins the
line behind it, which stands in the lines too. -/
theorem label_go_lineEnd (lineBreak : List Char → Option Nat) (closed : Closed (c :: lines))
    (ended : isLineEnd c = true) (read : scan.skip = 0) (small : scan.size < 1000) :
    ∃ inner extra, inner <:+ lines ∧ inner.length + extra = lines.length ∧ ∀ text,
      label?.go lineBreak scan (c :: lines ++ text) =
        if scan.broken then none
        else
          (lineBreak (inner ++ text)).bind fun skip =>
            label?.go lineBreak { scan.pushBlank with broken := true, skip := skip + extra }
              (lines ++ text) := by
  have plain : (c == '[') = false ∧ (c == ']') = false ∧ (c == '\\') = false := by
    rw [isLineEnd, Bool.or_eq_true, beq_iff_eq, beq_iff_eq] at ended
    rcases ended with rfl | rfl <;> decide
  have unfolded (text : List Char) := label?.go.eq_def lineBreak scan (c :: (lines ++ text))
  simp only [read, Nat.lt_irrefl, if_false, Nat.not_le_of_lt small, decide_false, plain.1, plain.2.1,
    plain.2.2, Bool.or_self, Bool.false_eq_true, ended, if_true] at unfolded
  by_cases pair : c = '\r' ∧ lines.head? = some '\n'
  · rcases pair with ⟨rfl, starts⟩
    rcases lines with _ | ⟨d, inner⟩
    · cases starts
    obtain rfl : d = '\n' := by simpa using starts
    refine ⟨inner, 1, List.suffix_cons _ _, rfl, fun text => ?_⟩
    rw [List.cons_append, unfolded]
    congr 1
    simp only [List.cons_append, List.head?_cons, beq_self_eq_true, Bool.and_self, if_true,
      List.drop_succ_cons, List.drop_zero]
    rcases lineBreak (inner ++ text) with _ | skip <;> rfl
  · refine ⟨lines, 0, List.suffix_refl _, rfl, fun text => ?_⟩
    have alone : (c == '\r' && (lines ++ text).head? == some '\n') = false := by
      rcases lines with _ | ⟨d, lines⟩
      · rw [closed.eq_feed]
        rfl
      · simpa using pair
    rw [List.cons_append, unfolded]
    congr 1
    simp only [alone, Bool.false_eq_true, if_false, Nat.add_zero]
    rcases lineBreak (lines ++ text) with _ | skip <;> rfl

theorem endsAlike_lineEnd (closed : Closed (c :: lines)) (ended : isLineEnd c = true)
    (read : scan.skip = 0) (small : scan.size < 1000)
    (breaks : BreaksAlike lineBreak lines tail other room)
    (goesOn : GoesOnAlike lineBreak scan lines tail other room) :
    EndsAlike lineBreak scan (c :: lines) tail other := by
  rcases label_go_lineEnd lineBreak closed ended read small with ⟨inner, extra, suffix, length_eq, goes⟩
  rcases breaks inner suffix with ⟨break_eq, within⟩
  by_cases broken : scan.broken = true
  · apply endsAlike_of_none
    · rw [goes, if_pos broken]
    · rw [goes, if_pos broken]
  simp only [broken, Bool.false_eq_true, if_false] at goes
  rcases found : lineBreak (inner ++ tail) with _ | skip
  · apply endsAlike_of_none
    · rw [goes, found, Option.bind_none]
    · rw [goes, ← break_eq, found, Option.bind_none]
  · have := within skip found
    apply goesOn.cons { scan.pushBlank with broken := true, skip := skip + extra } rfl
    · dsimp only
      omega
    · exact fun _ => rfl
    · rintro text (rfl | rfl)
      · rw [goes, found, Option.bind_some]
      · rw [goes, ← break_eq, found, Option.bind_some]

theorem endsAlike_close (read : scan.skip = 0) (small : scan.size < 1000)
    (further : 0 < lines.length) : EndsAlike lineBreak scan (']' :: lines) tail other := by
  have closes (text : List Char) : label?.go lineBreak scan (']' :: lines ++ text) =
      if scan.solid then some (scan.length + 1, trimName scan.name) else none := by
    rw [List.cons_append, label?.go.eq_def]
    simp [read, Nat.not_le_of_lt small]
  refine ⟨by rw [closes, closes], fun length name found => ?_⟩
  rw [closes] at found
  split at found
  · cases found
    rw [List.length_cons]
    omega
  · cases found

/-- A label that begins in whole lines, behind which it is given up, ends in them if it ends. -/
theorem label_go_lines (closed : Closed lines) (ends : GivesUp lineBreak room tail)
    (otherEnds : GivesUp lineBreak room other) (breaks : BreaksAlike lineBreak lines tail other room)
    (kept : scan.skip ≤ lines.length + room)
    (broken : lines.length ≤ scan.skip → scan.broken = true) :
    EndsAlike lineBreak scan lines tail other := by
  induction count_eq : lines.length using Nat.strong_induction_on generalizing scan lines with
  | _ count ih =>
    subst count_eq
    rcases lines with _ | ⟨c, lines⟩
    · apply endsAlike_of_none
      · exact ends scan (broken (Nat.zero_le _)) (by simpa using kept)
      · exact otherEnds scan (broken (Nat.zero_le _)) (by simpa using kept)
    -- behind some characters of the lines the label goes on alike, by the induction
    have later {inner : List Char} (suffix : inner <:+ c :: lines)
        (shorter : inner.length < (c :: lines).length) {next : LabelScan}
        (kept : next.skip ≤ inner.length + room)
        (broken : inner.length ≤ next.skip → next.broken = true) :
        EndsAlike lineBreak next inner tail other :=
      ih inner.length shorter (closed.of_suffix suffix)
        (fun text textSuffix => breaks text (textSuffix.trans suffix)) kept broken rfl
    have goesOn : GoesOnAlike lineBreak scan lines tail other room :=
      fun next _ => later (List.suffix_cons c lines) (Nat.lt_succ_self _)
    have unfolded (text : List Char) := label?.go.eq_def lineBreak scan (c :: lines ++ text)
    simp only [List.cons_append] at unfolded
    rw [List.length_cons] at kept broken
    by_cases skips : 0 < scan.skip
    · simp only [skips, if_true] at unfolded
      apply goesOn.cons { scan.pushBlank with skip := scan.skip - 1 } rfl
      · dsimp only
        omega
      · dsimp only
        intro short
        apply broken
        omega
      · exact fun text _ => unfolded text
    have read : scan.skip = 0 := Nat.eq_zero_of_not_pos skips
    simp only [skips, if_false] at unfolded
    by_cases full : (1000 ≤ scan.size || c == '[') = true
    · simp only [full, if_true] at unfolded
      exact endsAlike_of_none (unfolded tail) (unfolded other)
    simp only [full, Bool.false_eq_true, if_false] at unfolded
    rw [Bool.or_eq_true, decide_eq_true_eq, not_or, Nat.not_le] at full
    by_cases close : c = ']'
    · subst close
      exact endsAlike_close read full.1 (closed.length_pos (by decide))
    simp only [beq_iff_eq, close, if_false] at unfolded
    by_cases escape : c = '\\'
    · subst escape
      rcases lines with _ | ⟨escaped, lines⟩
      · exact absurd (closed.length_pos (by decide)) (Nat.lt_irrefl 0)
      have further := closed.length_pos_of_escape
      simp only [if_true] at unfolded
      have suffix : lines <:+ '\\' :: escaped :: lines := ⟨['\\', escaped], rfl⟩
      have alike : EndsAlike lineBreak (scan.pushEscaped escaped) lines tail other := by
        apply later suffix _ (Nat.zero_le _)
        · exact fun short => absurd short (Nat.not_le_of_lt further)
        · simp only [List.length_cons]
          omega
      apply alike.of_go (fun text _ => unfolded text)
      simp only [LabelScan.pushEscaped, List.length_cons]
      omega
    by_cases ended : isLineEnd c = true
    · apply endsAlike_lineEnd closed ended read full.1 _ goesOn
      exact fun inner suffix => breaks inner (suffix.trans (List.suffix_cons c lines))
    have further := closed.length_pos (by rintro rfl; exact ended rfl)
    simp only [escape, ended, Bool.false_eq_true, if_false] at unfolded
    by_cases gap : isGap c = true
    · simp only [gap, if_true] at unfolded
      apply goesOn.cons scan.pushBlank rfl
      · dsimp only [LabelScan.pushBlank]
        omega
      · dsimp only [LabelScan.pushBlank]
        omega
      · exact fun text _ => unfolded text
    · simp only [gap, Bool.false_eq_true, if_false] at unfolded
      apply goesOn.cons (scan.push c) rfl (Nat.zero_le _)
      · exact fun short => absurd short (Nat.not_le_of_lt further)
      · exact fun text _ => unfolded text

end Refill.Markdown
