import Mathlib.Data.List.Find
import Mathlib.Data.List.TakeWhile
import Refill.Markdown.Container
import Refill.Proofs.Markdown.Lines

/-!
# What a line tells

Whether a line opens or closes a block is told by the line itself: the tests give the same on the
line and on all that is left of the document. Code fences look up to the next line feed, which may
be further, and the label of a footnote may go on behind a backslash.
-/

namespace Refill.Markdown

variable {rest : List Char}

/-! ## Fronts of a line -/

theorem isLineEnd_iff {c : Char} : isLineEnd c ↔ c = '\n' ∨ c = '\r' := by
  simp [isLineEnd]

theorem line_of_inLine {c : Char} (inLine : isLineEnd c = false) (rest : List Char) :
    line (c :: rest) = c :: line rest := by
  simp [line, inLine]

theorem line_of_lineEnd {c : Char} (ends : isLineEnd c) (rest : List Char) :
    line (c :: rest) = [] := by
  simp [line, ends]

theorem line_length_le (rest : List Char) : (line rest).length ≤ rest.length :=
  (List.takeWhile_prefix _).length_le

theorem line_line (rest : List Char) : line (line rest) = line rest := by
  rw [line, line, List.takeWhile_idem]

theorem takeWhile_line {holds : Char → Bool} (stops : ∀ c, isLineEnd c → holds c = false)
    (rest : List Char) : (line rest).takeWhile holds = rest.takeWhile holds := by
  rw [line, List.takeWhile_takeWhile]
  congr 1
  funext c
  cases ends : isLineEnd c <;> simp [stops, ends]

theorem lengthWhile_line {holds : Char → Bool} (stops : ∀ c, isLineEnd c → holds c = false)
    (rest : List Char) : lengthWhile holds (line rest) = lengthWhile holds rest := by
  rw [lengthWhile_eq, lengthWhile_eq, takeWhile_line stops]

theorem lengthWhile_le_line {holds : Char → Bool} (stops : ∀ c, isLineEnd c → holds c = false)
    (rest : List Char) : lengthWhile holds rest ≤ (line rest).length := by
  rw [lengthWhile_eq, ← takeWhile_line stops]
  exact (List.takeWhile_prefix _).length_le

theorem takeWhile_drop {holds : Char → Bool} {count : Nat}
    (le : count ≤ (rest.takeWhile holds).length) :
    (rest.drop count).takeWhile holds = (rest.takeWhile holds).drop count := by
  induction count generalizing rest with
  | zero => rfl
  | succ count ih =>
    cases rest with
    | nil => rfl
    | cons c rest =>
      cases held : holds c with
      | false => simp [held] at le
      | true =>
        rw [List.takeWhile_cons_of_pos held] at le ⊢
        exact ih (Nat.le_of_succ_le_succ le)

theorem drop_line {count : Nat} (le : count ≤ (line rest).length) :
    line (rest.drop count) = (line rest).drop count :=
  takeWhile_drop le

theorem head?_all_line {holds : Char → Bool} (ended : ∀ c, isLineEnd c → holds c)
    (rest : List Char) : (line rest).head?.all holds = rest.head?.all holds := by
  cases rest with
  | nil => rfl
  | cons c rest => cases ends : isLineEnd c <;> simp [line, ends, ended]

theorem head?_any_line {holds : Char → Bool} (stops : ∀ c, isLineEnd c → holds c = false)
    (rest : List Char) : (line rest).head?.any holds = rest.head?.any holds := by
  cases rest with
  | nil => rfl
  | cons c rest => cases ends : isLineEnd c <;> simp [line, ends, stops]

theorem head?_beq_line {m : Char} (inLine : isLineEnd m = false) (rest : List Char) :
    ((line rest).head? == some m) = (rest.head? == some m) := by
  have ended : ∀ c, isLineEnd c → (c == m) = false := by
    intro c ends
    rw [beq_eq_false_iff_ne]
    rintro rfl
    rw [ends] at inLine
    cases inLine
  have found (text : List Char) : (text.head? == some m) = text.head?.any (· == m) := by
    cases text <;> rfl
  rw [found, found, head?_any_line ended]

theorem one_le_line {m : Char} (inLine : isLineEnd m = false)
    (starts : (rest.head? == some m) = true) : 1 ≤ (line rest).length := by
  rcases rest with _ | ⟨c, rest⟩
  · simp at starts
  · have same : c = m := by simpa using starts
    rw [same, line_of_inLine inLine]
    simp

theorem isPrefixOf_line {p : List Char} (inLine : p.all (!isLineEnd ·))
    (rest : List Char) : p.isPrefixOf (line rest) = p.isPrefixOf rest := by
  induction p generalizing rest with
  | nil => simp
  | cons mark p ih =>
    rw [List.all_cons, Bool.and_eq_true, Bool.not_eq_true'] at inLine
    cases rest with
    | nil => rfl
    | cons c rest =>
      cases ends : isLineEnd c with
      | true =>
        have other : mark ≠ c := by
          rintro rfl
          rw [ends] at inLine
          cases inLine.1
        simp [line_of_lineEnd ends, List.isPrefixOf, other]
      | false => simp [line_of_inLine ends, List.isPrefixOf, ih inLine.2]

theorem isSome_lineEnd (rest : List Char) : (lineEnd? rest).isSome = rest.head?.all isLineEnd := by
  unfold lineEnd?
  split
  · rfl
  · rfl
  · next c _ _ => cases ends : isLineEnd c <;> simp [ends]

theorem isSome_lineEnd_line (rest : List Char) :
    (lineEnd? (line rest)).isSome = (lineEnd? rest).isSome := by
  rw [isSome_lineEnd, isSome_lineEnd, head?_all_line fun _ ends => ends]

theorem isGap_eq_false_of_isLineEnd (c : Char) (ends : isLineEnd c) : isGap c = false := by
  rcases isLineEnd_iff.mp ends with rfl | rfl <;> rfl

theorem isBlankLine_eq (rest : List Char) :
    isBlankLine rest = (rest.dropWhile isGap).head?.all isLineEnd := by
  rw [isBlankLine, blankLine?, drop_lengthWhile, Option.isSome_map, isSome_lineEnd]

theorem isBlankLine_line (rest : List Char) : isBlankLine (line rest) = isBlankLine rest := by
  have within := lengthWhile_le_line isGap_eq_false_of_isLineEnd rest
  rw [isBlankLine_eq, isBlankLine_eq, ← drop_lengthWhile, ← drop_lengthWhile,
    lengthWhile_line isGap_eq_false_of_isLineEnd, ← drop_line within, head?_all_line fun _ ends => ends]

/-! ## Tests of a line -/

theorem beq_eq_false_of_isLineEnd {mark : Char} (inLine : isLineEnd mark = false) (c : Char)
    (ends : isLineEnd c) : (c == mark) = false := by
  rw [beq_eq_false_iff_ne]
  rintro rfl
  rw [ends] at inLine
  cases inLine

theorem runLength_line {m : Char} (inLine : isLineEnd m = false) (rest : List Char) :
    runLength m (line rest) = runLength m rest :=
  lengthWhile_line (beq_eq_false_of_isLineEnd inLine) rest

theorem runLength_le_line {m : Char} (inLine : isLineEnd m = false) (rest : List Char) :
    runLength m rest ≤ (line rest).length :=
  lengthWhile_le_line (beq_eq_false_of_isLineEnd inLine) rest

theorem isSome_thematicBreak_line (rest : List Char) :
    (thematicBreak? (line rest)).isSome = (thematicBreak? rest).isSome := by
  cases rest with
  | nil => rfl
  | cons c rest =>
    cases ends : isLineEnd c with
    | true =>
      rw [line_of_lineEnd ends]
      rcases isLineEnd_iff.mp ends with rfl | rfl <;> rfl
    | false =>
      have told := line_line (c :: rest)
      rw [line_of_inLine ends] at told ⊢
      unfold thematicBreak?
      simp only [told, line_of_inLine ends]
      split
      · split <;> rfl
      · rfl

theorem opensHeading_line (rest : List Char) : opensHeading (line rest) = opensHeading rest := by
  have within := runLength_le_line (m := '#') rfl rest
  have white : ∀ c, isLineEnd c → isWhite c := fun c ends => by simp [isWhite, ends]
  unfold opensHeading
  simp only [runLength_line (m := '#') rfl, ← drop_line within, head?_all_line white]

theorem isSome_underline_line (rest : List Char) :
    (underline? (line rest)).isSome = (underline? rest).isSome := by
  cases rest with
  | nil => rfl
  | cons c rest =>
    cases ends : isLineEnd c with
    | true =>
      rw [line_of_lineEnd ends]
      rcases isLineEnd_iff.mp ends with rfl | rfl <;> rfl
    | false =>
      have within := runLength_le_line ends (c :: rest)
      have blank := isBlankLine_line ((c :: rest).drop (runLength c (c :: rest)))
      have run := runLength_line ends (c :: rest)
      rw [drop_line within] at blank
      rw [line_of_inLine ends] at blank run ⊢
      unfold underline?
      simp only
      split
      · rw [run, Option.isSome_map, Option.isSome_map]
        exact blank
      · rfl

/-- A fence is told by the text up to the next line feed. -/
theorem fence_takeWhile (rest : List Char) :
    fence? (rest.takeWhile (· != '\n')) = fence? rest := by
  rcases rest with _ | ⟨c, rest⟩
  · rfl
  by_cases feed : c = '\n'
  · subst feed
    rfl
  have run : runLength c ((c :: rest).takeWhile (· != '\n')) = runLength c (c :: rest) := by
    rw [runLength, runLength, lengthWhile_eq, lengthWhile_eq, List.takeWhile_takeWhile]
    congr 2
    funext d
    by_cases same : d = c <;> simp [same, feed]
  have within : runLength c (c :: rest) ≤ ((c :: rest).takeWhile (· != '\n')).length := by
    rw [← run, runLength, lengthWhile_eq]
    exact (List.takeWhile_prefix _).length_le
  have info : (((c :: rest).takeWhile (· != '\n')).drop (runLength c (c :: rest))).takeWhile
      (· != '\n') = ((c :: rest).drop (runLength c (c :: rest))).takeWhile (· != '\n') := by
    rw [← takeWhile_drop within, List.takeWhile_idem]
  have front : (c :: rest).takeWhile (· != '\n') = c :: rest.takeWhile (· != '\n') := by
    simp [feed]
  rw [front] at run info ⊢
  unfold fence?
  simp only [run, info]

theorem isDigit_eq_false_of_isLineEnd (c : Char) (ends : isLineEnd c) : c.isDigit = false := by
  rcases isLineEnd_iff.mp ends with rfl | rfl <;> rfl

theorem itemMark_line (rest : List Char) : itemMark? (line rest) = itemMark? rest := by
  cases rest with
  | nil => rfl
  | cons c rest =>
    cases ends : isLineEnd c with
    | true =>
      rw [line_of_lineEnd ends]
      rcases isLineEnd_iff.mp ends with rfl | rfl <;> rfl
    | false =>
      have digits := takeWhile_line isDigit_eq_false_of_isLineEnd (c :: rest)
      have within := lengthWhile_le_line isDigit_eq_false_of_isLineEnd (c :: rest)
      rw [lengthWhile_eq] at within
      have behind := drop_line within
      rw [line_of_inLine ends] at digits behind ⊢
      unfold itemMark?
      simp only [digits, ← behind]
      split
      · rfl
      · rcases (c :: rest).drop ((c :: rest).takeWhile Char.isDigit).length with _ | ⟨d, later⟩
        · rfl
        · cases ended : isLineEnd d with
          | true =>
            rw [line_of_lineEnd ended]
            rcases isLineEnd_iff.mp ended with rfl | rfl <;> simp
          | false => rw [line_of_inLine ended]

theorem itemMark_length_le {mark : ItemMark} (mark_eq : itemMark? rest = some mark) :
    1 ≤ mark.length ∧ mark.length ≤ rest.length := by
  unfold itemMark? at mark_eq
  rcases rest with _ | ⟨c, rest⟩
  · cases mark_eq
  simp only at mark_eq
  split at mark_eq
  · cases mark_eq
    simp
  · have digits := (List.takeWhile_prefix Char.isDigit (l := c :: rest)).length_le
    rcases behind : (c :: rest).drop ((c :: rest).takeWhile Char.isDigit).length with _ | ⟨d, later⟩
    · simp [behind] at mark_eq
    · have left := congrArg List.length behind
      simp only [List.length_drop, List.length_cons] at left digits
      simp only [behind] at mark_eq
      split at mark_eq
      · cases mark_eq
        simp only [List.length_cons]
        omega
      · cases mark_eq

theorem itemMark_le_line {mark : ItemMark} (mark_eq : itemMark? rest = some mark) :
    mark.length ≤ (line rest).length := by
  rw [← itemMark_line] at mark_eq
  exact (itemMark_length_le mark_eq).2

theorem itemInterrupts_line (inTable current : Bool) (rest : List Char) :
    itemInterrupts inTable current (line rest) = itemInterrupts inTable current rest := by
  have ended : ∀ c, isLineEnd c → (c == ' ' || c == '\t' || isLineEnd c) := by
    intro c ends
    simp [ends]
  unfold itemInterrupts
  rw [itemMark_line]
  split
  · rfl
  · next mark mark_eq =>
    simp only [← drop_line (itemMark_le_line mark_eq), head?_all_line ended, isBlankLine_line]

/-! ## Rows of a table -/

theorem delimiterColumns_line (rest : List Char) :
    delimiterColumns? (line rest) = delimiterColumns? rest := by
  have within := runLength_le_line (m := ' ') rfl rest
  unfold delimiterColumns?
  simp only [runLength_line (m := ' ') rfl, ← drop_line within, line_line]

/-! ## Destinations -/

theorem isPunctuation_eq_false_of_isLineEnd (c : Char) (ends : isLineEnd c) :
    isPunctuation c = false := by
  rcases isLineEnd_iff.mp ends with rfl | rfl <;> rfl

theorem inLine_of_isPunctuation {c : Char} (punctuation : isPunctuation c) :
    isLineEnd c = false := by
  cases ends : isLineEnd c with
  | false => rfl
  | true => simp [isPunctuation_eq_false_of_isLineEnd c ends] at punctuation

theorem exists_cons_of_line {first : Char} {later : List Char} (line_eq : line rest = first :: later) :
    ∃ behind, rest = first :: behind := by
  rcases rest with _ | ⟨c, rest⟩
  · cases line_eq
  cases ends : isLineEnd c with
  | true =>
    rw [line_of_lineEnd ends] at line_eq
    cases line_eq
  | false =>
    rw [line_of_inLine ends] at line_eq
    cases line_eq
    exact ⟨rest, rfl⟩

theorem pointed_line (length : Nat) (rest : List Char) :
    destination?.pointed length (line rest) = destination?.pointed length rest := by
  fun_induction destination?.pointed length rest with
  | case1 => rfl
  | case2 length rest => simp [line_of_inLine (c := '>') rfl, destination?.pointed]
  | case3 length c rest punctuation ih =>
    rw [line_of_inLine rfl, line_of_inLine (inLine_of_isPunctuation punctuation)]
    simp [destination?.pointed, punctuation, ih]
  | case4 length c rest plain ih =>
    rw [line_of_inLine rfl, ← ih]
    cases ends : isLineEnd c with
    | true => simp [line_of_lineEnd ends, destination?.pointed, isLineEnd]
    | false => simp [line_of_inLine ends, destination?.pointed, plain]
  | case5 length c rest notClose notEscape stops =>
    cases ends : isLineEnd c with
    | true => simp [line_of_lineEnd ends, destination?.pointed]
    | false =>
      have mark : c = '<' := by simpa [ends] using stops
      simp [mark, line_of_inLine (c := '<') rfl, destination?.pointed]
  | case6 length c rest notClose notEscape goesOn ih =>
    have ends : isLineEnd c = false := by
      simp only [Bool.or_eq_true, not_or, Bool.not_eq_true] at goesOn
      exact goesOn.1
    rw [line_of_inLine ends, destination?.pointed.eq_4 _ _ _ notClose, if_neg goesOn, ih]
    intro first later slash line_eq
    rcases exists_cons_of_line line_eq with ⟨behind, rest_eq⟩
    exact notEscape first behind slash rest_eq

theorem bare_line (depth length nested : Nat) (rest : List Char) :
    destination?.bare depth length nested (line rest) =
      destination?.bare depth length nested rest := by
  induction size : rest.length using Nat.strong_induction_on generalizing length nested rest with
  | _ size ih =>
    rcases rest with _ | ⟨c, rest⟩
    · rfl
    rw [List.length_cons] at size
    by_cases escape : c = '\\' ∧ ∃ d behind, rest = d :: behind
    · rcases escape with ⟨rfl, d, behind, rfl⟩
      rw [List.length_cons] at size
      have later := ih (behind.length + 1) (by omega) (length + 1) nested (d :: behind) rfl
      rw [line_of_inLine rfl]
      cases ends : isLineEnd d with
      | true =>
        rw [line_of_lineEnd ends] at later ⊢
        rw [destination?.bare, if_neg (by simp [isPunctuation_eq_false_of_isLineEnd d ends]), ← later]
        simp [destination?.bare]
      | false =>
        rw [line_of_inLine ends] at later ⊢
        rw [destination?.bare, destination?.bare, later,
          ih behind.length (by omega) (length + 2) nested behind rfl]
    · have later (length nested : Nat) := ih rest.length (by omega) length nested rest rfl
      have plain : ∀ d behind, c = '\\' → rest = d :: behind → False :=
        fun d behind slash rest_eq => escape ⟨slash, d, behind, rest_eq⟩
      rw [destination?.bare.eq_3 _ _ _ _ _ plain]
      cases ends : isLineEnd c with
      | true =>
        have blank : c ≤ ' ' := by
          rcases isLineEnd_iff.mp ends with rfl | rfl <;> decide
        rw [line_of_lineEnd ends, if_pos blank]
        rfl
      | false =>
        rw [line_of_inLine ends, destination?.bare.eq_3]
        · simp only [later]
        · intro d behind slash line_eq
          rcases exists_cons_of_line line_eq with ⟨later, rest_eq⟩
          exact plain d later slash rest_eq

theorem destination_line (depth : Nat) (rest : List Char) :
    destination? depth (line rest) = destination? depth rest := by
  rcases rest with _ | ⟨c, rest⟩
  · rfl
  by_cases pointed : c = '<'
  · rw [pointed, line_of_inLine rfl]
    exact pointed_line 1 rest
  · have bare (text : List Char) (other : text.head? ≠ some '<') :
        destination? depth text = destination?.bare depth 0 0 text := by
      rcases text with _ | ⟨d, text⟩
      · rfl
      · unfold destination?
        split
        · simp_all
        · rfl
    have other : (line (c :: rest)).head? ≠ some '<' := by
      intro starts
      have told := head?_beq_line (m := '<') rfl (c :: rest)
      simp [starts, pointed] at told
    rw [bare _ other, bare _ (by simpa using pointed), bare_line]

theorem pointed_le {length found : Nat}
    (found_eq : destination?.pointed length rest = some found) : found ≤ length + rest.length := by
  fun_induction destination?.pointed length rest with
  | case1 => cases found_eq
  | case2 length rest =>
    cases found_eq
    simp
  | case3 length c rest punctuation ih =>
    have later := ih found_eq
    simp only [List.length_cons]
    omega
  | case4 length c rest plain ih =>
    have later := ih found_eq
    simp only [List.length_cons] at later ⊢
    omega
  | case5 => cases found_eq
  | case6 length c rest _ _ goesOn ih =>
    have later := ih found_eq
    simp only [List.length_cons]
    omega

theorem bare_le {depth length nested found : Nat}
    (found_eq : destination?.bare depth length nested rest = some found) :
    found ≤ length + rest.length := by
  fun_induction destination?.bare depth length nested rest with
  | case1 | case5 | case9 =>
    cases found_eq
    exact Nat.le_add_right _ _
  | case2 | case6 | case7 => cases found_eq
  | case3 length nested c rest punctuation ih =>
    have later := ih found_eq
    simp only [List.length_cons]
    omega
  | case4 length nested c rest plain ih =>
    have later := ih found_eq
    simp only [List.length_cons] at later ⊢
    omega
  | case8 | case10 | case11 =>
    rename_i ih
    have later := ih found_eq
    simp only [List.length_cons]
    omega

theorem destination_le {depth length : Nat} (found : destination? depth rest = some length) :
    length ≤ (line rest).length := by
  rw [← destination_line] at found
  unfold destination? at found
  split at found
  · next inner line_eq =>
    have inside := pointed_le found
    rw [line_eq, List.length_cons]
    omega
  · have inside := bare_le found
    omega

/-! ## Lines that are the same -/

section Same

variable {other : List Char}

/-- What a line tells is the same where the line is. -/
theorem eq_of_line {α : Type} {f : List Char → α} (told : ∀ rest, f (line rest) = f rest)
    (line_eq : line rest = line other) : f rest = f other := by
  rw [← told rest, line_eq, told]

theorem head_of_line {c : Char} (inLine : isLineEnd c = false) (line_eq : line rest = line other) :
    (rest.head? == some c) = (other.head? == some c) :=
  eq_of_line (f := fun rest => rest.head? == some c) (head?_beq_line inLine) line_eq

theorem line_drop_one {c : Char} (inLine : isLineEnd c = false)
    (starts : (rest.head? == some c) = true) (line_eq : line rest = line other) :
    line (rest.drop 1) = line (other.drop 1) := by
  have positive := one_le_line inLine starts
  rw [drop_line positive, line_eq, drop_line (line_eq ▸ positive)]

end Same

end Refill.Markdown
