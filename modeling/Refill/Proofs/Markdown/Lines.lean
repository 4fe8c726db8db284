import Mathlib.Data.List.Chain
import Refill.Proofs.Markdown.Places
import Refill.Proofs.Text.Trim

/-!
# Lines of text

A block of text is read line by line (`textStep`). It ends within the document, and a line of it
breaks only if one of the document ends in a backslash or a blank (`not_unbroken_textBlock`).
-/

namespace Refill.Markdown

theorem isBlank_of_isLineEnd {c : Char} (ends : isLineEnd c) : Text.isBlank c := by
  have either : c = '\n' ∨ c = '\r' := by simpa [isLineEnd] using ends
  rcases either with rfl | rfl <;> rfl

theorem isBlank_of_isGap {c : Char} (gap : isGap c) : Text.isBlank c := by
  have either : ((c = ' ' ∨ c = '\t') ∨ c = '\x0b') ∨ c = '\x0c' := by simpa [isGap] using gap
  rcases either with ((rfl | rfl) | rfl) | rfl <;> rfl

theorem isBlank_of_isWhite {c : Char} (white : isWhite c) : Text.isBlank c := by
  rcases Bool.or_eq_true_iff.mp white with gap | ends
  · exact isBlank_of_isGap gap
  · exact isBlank_of_isLineEnd ends

theorem lengthWhile_eq (holds : Char → Bool) (rest : List Char) :
    lengthWhile holds rest = (rest.takeWhile holds).length := by
  have counted (count : Nat) :
      lengthWhile.go holds count rest = count + (rest.takeWhile holds).length := by
    induction rest generalizing count with
    | nil => rfl
    | cons c rest ih =>
      cases held : holds c with
      | true =>
        rw [lengthWhile.go, if_pos held, ih, List.takeWhile_cons_of_pos held, List.length_cons]
        omega
      | false => simp [lengthWhile.go, held]
  rw [lengthWhile, counted, Nat.zero_add]

theorem drop_lengthWhile (holds : Char → Bool) (rest : List Char) :
    rest.drop (lengthWhile holds rest) = rest.dropWhile holds := by
  have parted := @List.drop_left _ (rest.takeWhile holds) (rest.dropWhile holds)
  rwa [List.takeWhile_append_dropWhile, ← lengthWhile_eq] at parted

theorem le_lineLength (rest : List Char) : (line rest).length ≤ lineLength rest := by
  rw [lineLength, lengthWhile_eq, line]
  exact Nat.le_add_right _ _

/-- What ends a line is made of line ends. -/
theorem exists_of_lineEnd {rest : List Char} {length : Nat} (ends : lineEnd? rest = some length) :
    ∃ ended behind, rest = ended ++ behind ∧ ended.length = length ∧
      (∀ c ∈ ended, isLineEnd c) ∧ (rest ≠ [] → ended ≠ []) := by
  unfold lineEnd? at ends
  split at ends
  · cases ends
    exact ⟨[], [], rfl, rfl, by simp, id⟩
  · cases ends
    exact ⟨['\r', '\n'], _, rfl, rfl, by simp [isLineEnd], by simp⟩
  · next c _ _ =>
    split at ends
    · next isEnd =>
      cases ends
      exact ⟨[c], _, rfl, rfl, by simpa using isEnd, by simp⟩
    · cases ends

theorem lineLength_le (rest : List Char) : lineLength rest ≤ rest.length := by
  have parted := congrArg List.length
    (List.takeWhile_append_dropWhile (p := (!isLineEnd ·)) (l := rest))
  rw [List.length_append] at parted
  rw [lineLength, drop_lengthWhile, lengthWhile_eq]
  rcases ends : lineEnd? (rest.dropWhile (!isLineEnd ·)) with _ | length
  · simp only [Option.getD_none]
    omega
  · rcases exists_of_lineEnd ends with ⟨ended, behind, behind_eq, rfl, _⟩
    rw [behind_eq, List.length_append] at parted
    simp only [Option.getD_some]
    omega

/-- What is left behind a line begins with its end. -/
theorem exists_lineEnd {rest : List Char} (goesOn : rest.drop (lineLength rest) ≠ []) :
    ∃ e behind, rest = line rest ++ e :: behind ∧ isLineEnd e := by
  have behind_ne : rest.dropWhile (!isLineEnd ·) ≠ [] := by
    intro empty
    apply goesOn
    have shorter := (List.drop_suffix_drop_left rest (le_lineLength rest)).length_le
    rw [line, ← lengthWhile_eq, drop_lengthWhile, empty] at shorter
    exact List.eq_nil_of_length_eq_zero (Nat.le_zero.mp shorter)
  rcases List.exists_cons_of_ne_nil behind_ne with ⟨e, behind, behind_eq⟩
  refine ⟨e, behind, ?_, ?_⟩
  · rw [line, ← behind_eq, List.takeWhile_append_dropWhile]
  · have stops := Text.stopsAt_dropWhile (!isLineEnd ·) rest e (by rw [behind_eq]; rfl)
    simpa using stops

/-- A line that is not blank has something behind its indentation. -/
theorem rest_indent_ne_nil {margin : Margin} (filled : blankLine? margin.rest = none) (wanted : Nat) :
    (margin.indent wanted).2.place.rest ≠ [] := by
  rcases margin.exists_indentation wanted with ⟨passed, blank, rest_eq, _⟩
  intro empty
  rw [empty, List.append_nil] at rest_eq
  have gaps : ∀ c ∈ passed, isGap c := by
    intro c mem
    rcases blank c mem with rfl | rfl <;> rfl
  have passes : passed.dropWhile isGap = [] := List.dropWhile_eq_nil_iff.mpr gaps
  rw [Margin.rest, rest_eq, blankLine?, drop_lengthWhile, passes] at filled
  cases filled

theorem line_ne_nil {rest behind : List Char} {c : Char} (rest_eq : rest = c :: behind)
    (inLine : isLineEnd c = false) : line rest ≠ [] := by
  simp [line, rest_eq, inLine]

theorem lineLength_pos {rest : List Char} (left : rest ≠ []) : 0 < lineLength rest := by
  rcases List.exists_cons_of_ne_nil left with ⟨c, behind, rfl⟩
  cases ends : isLineEnd c with
  | false =>
    have shown : line (c :: behind) ≠ [] := line_ne_nil rfl ends
    have shown := List.length_pos_iff.mpr shown
    exact Nat.lt_of_lt_of_le shown (le_lineLength _)
  | true =>
    rw [lineLength, drop_lengthWhile, lengthWhile_eq, List.dropWhile_cons_of_neg (by simp [ends])]
    unfold lineEnd?
    split <;> simp_all

theorem Margin.exists_of_not_atLineEnd {margin : Margin} (inside : margin.atLineEnd = false) :
    ∃ c behind, margin.place.rest = c :: behind ∧ isLineEnd c = false := by
  rw [atLineEnd, rest] at inside
  rcases rest_eq : margin.place.rest with _ | ⟨c, behind⟩
  · simp [rest_eq] at inside
  · exact ⟨c, behind, rfl, by simpa [rest_eq] using inside⟩

/-! ## Lines that may break -/

/-- If a line ends with the second character, the first one does not break it. -/
def Holds (c e : Char) : Prop :=
  isLineEnd e → c ≠ '\\' ∧ isGap c = false

/-- No line of the text ends in a backslash or a blank. -/
def Unbroken (text : List Char) : Prop :=
  text.IsChain Holds

instance (c e : Char) : Decidable (Holds c e) :=
  inferInstanceAs (Decidable (isLineEnd e → c ≠ '\\' ∧ isGap c = false))

instance (text : List Char) : Decidable (Unbroken text) :=
  inferInstanceAs (Decidable (text.IsChain Holds))

theorem Unbroken.of_infix {text part : List Char} (unbroken : Unbroken text) (inside : part <:+: text) :
    Unbroken part :=
  List.IsChain.infix unbroken inside

theorem Unbroken.holds {front back : List Char} {c e : Char}
    (unbroken : Unbroken (front ++ c :: e :: back)) : Holds c e :=
  (List.isChain_cons_cons.mp (unbroken.of_infix (List.suffix_append _ _).isInfix)).1

theorem exists_concat_of_lengthWhile {holds : Char → Bool} {content : List Char}
    (some_length : lengthWhile holds content.reverse ≠ 0) :
    ∃ front c, content = front ++ [c] ∧ holds c := by
  rcases List.eq_nil_or_concat' content with rfl | ⟨front, c, rfl⟩
  · simp [lengthWhile_eq] at some_length
  · refine ⟨front, c, rfl, ?_⟩
    by_contra fails
    simp [lengthWhile_eq, fails] at some_length

/-- The content of a line that breaks ends in a backslash or a blank. -/
theorem exists_of_breakPlace {indent offset : Nat} {content : List Char}
    (shown : indent = 0 ∨ content ≠ [])
    (breaks : breakPlace? indent offset content ≠ none) :
    ∃ front c, content = front ++ [c] ∧ (c = '\\' ∨ isGap c) := by
  unfold breakPlace? at breaks
  simp only at breaks
  by_cases odd : runLength '\\' content.reverse % 2 = 1
  · have slash : lengthWhile (· == '\\') content.reverse ≠ 0 := by
      intro none
      rw [runLength, none] at odd
      cases odd
    rcases exists_concat_of_lengthWhile slash with ⟨front, c, content_eq, c_eq⟩
    exact ⟨front, c, content_eq, Or.inl (by simpa using c_eq)⟩
  · rw [if_neg odd] at breaks
    have blank : lengthWhile isGap content.reverse ≠ 0 := by
      intro none
      rw [none] at breaks
      -- without a blank at its end only a line without content could count the blanks before it
      have empty : content = [] := by
        by_contra filled
        have positive := List.length_pos_iff.mpr filled
        simp [Nat.ne_of_lt positive] at breaks
      rcases shown with rfl | filled
      · simp [empty] at breaks
      · exact filled empty
    rcases exists_concat_of_lengthWhile blank with ⟨front, c, content_eq, gap⟩
    exact ⟨front, c, content_eq, Or.inr gap⟩

/-- A line breaks within its content, or in the blanks before it. -/
theorem breakPlace_bounds {indent offset place : Nat} {content : List Char} (le : indent ≤ offset)
    (breaks : breakPlace? indent offset content = some place) :
    offset - indent ≤ place ∧ place < offset + content.length := by
  have counted (holds : Char → Bool) : lengthWhile holds content.reverse ≤ content.length := by
    rw [lengthWhile_eq]
    exact (List.takeWhile_prefix holds).length_le.trans List.length_reverse.le
  have slashes : runLength '\\' content.reverse ≤ content.length := counted _
  have blanks := counted isGap
  have among (blanks : Nat) (within : blanks ≤ content.length + indent)
      (breaks : (if 2 ≤ blanks then some (offset + content.length - blanks) else none) = some place) :
      offset - indent ≤ place ∧ place < offset + content.length := by
    split at breaks
    · rw [Option.some.injEq] at breaks
      omega
    · cases breaks
  unfold breakPlace? at breaks
  simp only at breaks
  by_cases odd : runLength '\\' content.reverse % 2 = 1
  · rw [if_pos odd, Option.some.injEq] at breaks
    omega
  · rw [if_neg odd] at breaks
    split at breaks
    · exact among _ (by omega) breaks
    · exact among _ (by omega) breaks

/-! ## Blocks of text -/

variable {containers : List Container} {fuel indent : Nat} {place : Place}

/-- What the line at a place is to the block of text that it begins: it may be the last one, with or
without an underline, or the block goes on at a later place. -/
inductive TextStep (containers : List Container) (fuel indent : Nat) (place : Place) :
    TextBlock → Prop
  | underlined {next : Place} (before : place.Before next) :
      TextStep containers fuel indent place ⟨[⟨line place.rest, none⟩], true, next⟩
  | last : TextStep containers fuel indent place
      ⟨[⟨line place.rest, none⟩], false, place.advance (lineLength place.rest)⟩
  | more {later : Place} {c : Char} {behind : List Char} {columns : Nat}
      (before : (place.advance (lineLength place.rest)).Before later)
      (columns_eq : later.offset = place.offset + lineLength place.rest + columns)
      (rest_eq : later.rest = c :: behind) (inLine : isLineEnd c = false) :
      TextStep containers fuel indent place
        { textBlock containers fuel columns later with
          lines := ⟨line place.rest, breakPlace? indent place.offset (line place.rest)⟩ ::
            (textBlock containers fuel columns later).lines }

theorem textStep (containers : List Container) (fuel indent : Nat) (place : Place) :
    TextStep containers fuel indent place (textBlock containers (fuel + 1) indent place) := by
  unfold textBlock
  simp only
  have indented := (Container.before_enterAll containers
    (place.advance (lineLength place.rest))).trans (Margin.before_indentBy _ 4)
  split
  · exact .underlined (((place.before_advance _).trans indented).advance _)
  · split
    · exact .last
    · next goesOn =>
      simp only [Bool.or_eq_true, not_or, Bool.not_eq_true] at goesOn
      rcases Margin.exists_of_not_atLineEnd goesOn.2 with ⟨c, behind, rest_eq, inLine⟩
      have before := indented.trans (Margin.before_skipIndent _)
      exact .more before (Nat.add_sub_cancel' before.offset_le).symm rest_eq inLine

theorem before_textBlock (containers : List Container) (fuel indent : Nat) (place : Place) :
    place.Before (textBlock containers fuel indent place).next := by
  induction fuel generalizing indent place with
  | zero => exact .refl _
  | succ fuel ih =>
    have step := textStep containers fuel indent place
    generalize textBlock containers (fuel + 1) indent place = block at step ⊢
    cases step with
    | underlined before => exact before
    | last => exact place.before_advance _
    | more before => exact ((place.before_advance _).trans before).trans (ih _ _)

/-- A paragraph goes on at least to the end of its first line. -/
theorem before_next_textBlock
    (paragraph : (textBlock containers (fuel + 1) indent place).underlined = false) :
    (place.advance (lineLength place.rest)).Before
      (textBlock containers (fuel + 1) indent place).next := by
  have step := textStep containers fuel indent place
  generalize textBlock containers (fuel + 1) indent place = block at step paragraph ⊢
  cases step with
  | underlined => cases paragraph
  | last => exact .refl _
  | more before => exact before.trans (before_textBlock ..)

/-- A paragraph ends within the document. -/
theorem next_textBlock_le
    (paragraph : (textBlock containers fuel indent place).underlined = false) :
    (textBlock containers fuel indent place).next.offset ≤ place.offset + place.rest.length := by
  induction fuel generalizing indent place with
  | zero => exact Nat.le_add_right _ _
  | succ fuel ih =>
    have step := textStep containers fuel indent place
    generalize textBlock containers (fuel + 1) indent place = block at step paragraph ⊢
    cases step with
    | underlined => cases paragraph
    | last => exact Nat.add_le_add_left (lineLength_le place.rest) place.offset
    | more before _ rest_eq =>
      rw [← ((place.before_advance _).trans before).offset_add_length (by simp [rest_eq])]
      exact ih paragraph

/-- The lines of a block of text break within the block, or in the blanks before it. -/
theorem breakAt_textBlock (le : indent ≤ place.offset) :
    ∀ line ∈ (textBlock containers fuel indent place).lines, ∀ offset, line.breakAt = some offset →
      place.offset - indent ≤ offset ∧
        offset < (textBlock containers fuel indent place).next.offset := by
  induction fuel generalizing indent place with
  | zero => simp [textBlock]
  | succ fuel ih =>
    have step := textStep containers fuel indent place
    generalize textBlock containers (fuel + 1) indent place = block at step ⊢
    cases step with
    | underlined => simp
    | last => simp
    | @more later c behind columns before columns_eq =>
      have reached := (before_textBlock containers fuel columns later).offset_le
      have shown := le_lineLength place.rest
      rw [List.forall_mem_cons]
      constructor
      · intro offset breaks
        have bounds := breakPlace_bounds le breaks
        dsimp only
        omega
      · intro other mem offset breaks
        have le : columns ≤ later.offset := by omega
        have bounds := ih le other mem offset breaks
        dsimp only
        omega

/-- A line of a paragraph or heading breaks only if one ends in a backslash or a blank. -/
theorem not_unbroken_textBlock (shown : indent = 0 ∨ line place.rest ≠ []) :
    ∀ line ∈ (textBlock containers fuel indent place).lines, line.breakAt ≠ none →
      ¬Unbroken place.rest := by
  induction fuel generalizing indent place with
  | zero => simp [textBlock]
  | succ fuel ih =>
    have step := textStep containers fuel indent place
    generalize textBlock containers (fuel + 1) indent place = block at step ⊢
    cases step with
    | underlined => simp
    | last => simp
    | more before _ rest_eq inLine =>
      rw [List.forall_mem_cons]
      constructor
      · intro breaks unbroken
        have left : place.rest.drop (lineLength place.rest) ≠ [] :=
          before.rest_ne_nil (by simp [rest_eq])
        rcases exists_of_breakPlace shown breaks with ⟨front, last, content_eq, marks⟩
        rcases exists_lineEnd left with ⟨e, later, split_eq, ends⟩
        rw [content_eq, List.append_assoc, List.singleton_append] at split_eq
        rw [split_eq] at unbroken
        rcases unbroken.holds ends with ⟨noSlash, noGap⟩
        simp [noSlash, noGap] at marks
      · intro other mem breaks unbroken
        have suffix := ((place.before_advance _).trans before).rest_suffix
        exact ih (Or.inr (line_ne_nil rest_eq inLine)) other mem breaks
          (unbroken.of_infix suffix.isInfix)

end Refill.Markdown
