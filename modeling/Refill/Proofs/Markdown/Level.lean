import Refill.Proofs.Markdown.Html

/-!
# Texts that begin with the same lines

Two texts that are the same up to a line feed give the same in all tests of a line (`Level`). Margins
and containers take up characters of one line only (`Place.SameLine`).
-/

namespace Refill.Markdown

/-! ## Texts that are the same up to a line feed -/

/-- The texts are equal, or at least up to a line feed that both have. -/
def Level (rest other : List Char) : Prop :=
  rest = other ∨ ∃ front back behind, rest = front ++ '\n' :: back ∧ other = front ++ '\n' :: behind

theorem takeWhile_feed {holds : Char → Bool} (stops : holds '\n' = false) (front back : List Char) :
    (front ++ '\n' :: back).takeWhile holds = front.takeWhile holds := by
  induction front with
  | nil => simp [stops]
  | cons c front ih => cases held : holds c <;> simp [held, ih]

theorem lengthWhile_feed {h : Char → Bool} (stops : h '\n' = false)
    (front back : List Char) :
    lengthWhile h (front ++ '\n' :: back) ≤ front.length := by
  rw [lengthWhile_eq, takeWhile_feed stops]
  exact (List.takeWhile_prefix _).length_le

theorem line_feed (front back : List Char) :
    (line (front ++ '\n' :: back)).length ≤ front.length := by
  rw [line, takeWhile_feed rfl]
  exact (List.takeWhile_prefix _).length_le

theorem feedLength_feed (front back : List Char) :
    feedLength (front ++ '\n' :: back) ≤ front.length + 1 := by
  have short := lengthWhile_feed (h := (· != '\n')) rfl front back
  unfold feedLength
  dsimp only
  split <;> omega

theorem lineLength_feed (front back : List Char) :
    lineLength (front ++ '\n' :: back) ≤ front.length + 1 := by
  induction front with
  | nil => exact le_refl 1
  | cons c front ih =>
    cases ends : isLineEnd c with
    | false =>
      have later : lineLength (c :: (front ++ '\n' :: back)) =
          lineLength (front ++ '\n' :: back) + 1 := by
        simp [lineLength, lengthWhile_eq, ends]
        omega
      rw [List.cons_append, later, List.length_cons]
      omega
    | true =>
      have ended : lineLength (c :: (front ++ '\n' :: back)) =
          (lineEnd? (c :: (front ++ '\n' :: back))).getD 0 := by
        simp [lineLength, lengthWhile_eq, ends]
      have most : (lineEnd? (c :: (front ++ '\n' :: back))).getD 0 ≤ 2 := by
        unfold lineEnd?
        split <;> try split
        all_goals simp
      rw [List.cons_append, ended, List.length_cons]
      omega

namespace Level

variable {rest other : List Char}

theorem takeWhile_eq {holds : Char → Bool} (level : Level rest other) (stops : holds '\n' = false) :
    rest.takeWhile holds = other.takeWhile holds := by
  rcases level with rfl | ⟨front, back, behind, rfl, rfl⟩
  · rfl
  · rw [takeWhile_feed stops, takeWhile_feed stops]

theorem line_eq (level : Level rest other) : line rest = line other :=
  level.takeWhile_eq rfl

theorem eq_of_line {α : Type} {f : List Char → α} (told : ∀ rest, f (line rest) = f rest)
    (level : Level rest other) : f rest = f other :=
  Markdown.eq_of_line told level.line_eq

theorem lengthWhile_eq {holds : Char → Bool} (level : Level rest other)
    (stops : holds '\n' = false) : lengthWhile holds rest = lengthWhile holds other := by
  rw [Markdown.lengthWhile_eq, Markdown.lengthWhile_eq, level.takeWhile_eq stops]

theorem head?_eq (level : Level rest other) : rest.head? = other.head? := by
  rcases level with rfl | ⟨front, back, behind, rfl, rfl⟩
  · rfl
  · cases front <;> rfl

theorem drop {count : Nat} (level : Level rest other) (le : count ≤ (line rest).length) :
    Level (rest.drop count) (other.drop count) := by
  rcases level with rfl | ⟨front, back, behind, rfl, rfl⟩
  · exact Or.inl rfl
  · have within : count ≤ front.length := le.trans (line_feed front back)
    right
    refine ⟨front.drop count, back, behind, ?_, ?_⟩ <;> exact List.drop_append_of_le_length within

theorem lineEnd_eq (level : Level rest other) : lineEnd? rest = lineEnd? other := by
  rcases level with rfl | ⟨front, back, behind, rfl, rfl⟩
  · rfl
  · rcases front with _ | ⟨c, _ | ⟨d, front⟩⟩
    · rfl
    · by_cases carriage : c = '\r'
      · subst carriage
        rfl
      · simp [lineEnd?, carriage]
    · by_cases carriage : c = '\r' ∧ d = '\n'
      · rcases carriage with ⟨rfl, rfl⟩
        rfl
      · simp only [List.cons_append]
        unfold lineEnd?
        split <;> simp_all

theorem lineLength_eq (level : Level rest other) : lineLength rest = lineLength other := by
  have within : lengthWhile (!isLineEnd ·) rest ≤ (line rest).length :=
    (Markdown.lengthWhile_eq _ _).le
  rw [lineLength, lineLength, ← level.lengthWhile_eq rfl, (level.drop within).lineEnd_eq]

theorem blankLine_eq (level : Level rest other) : blankLine? rest = blankLine? other := by
  have within := lengthWhile_le_line isGap_eq_false_of_isLineEnd rest
  rw [blankLine?, blankLine?, ← level.lengthWhile_eq rfl, (level.drop within).lineEnd_eq]

theorem isBlankLine_eq (level : Level rest other) : isBlankLine rest = isBlankLine other := by
  rw [isBlankLine, isBlankLine, level.blankLine_eq]

theorem isEmpty_eq (level : Level rest other) : rest.isEmpty = other.isEmpty := by
  rcases level with rfl | ⟨front, back, behind, rfl, rfl⟩
  · rfl
  · cases front <;> rfl

theorem fence_eq (level : Level rest other) : fence? rest = fence? other := by
  rw [← fence_takeWhile, ← fence_takeWhile other, level.takeWhile_eq rfl]

theorem underline_eq (level : Level rest other) : underline? rest = underline? other := by
  have head_eq := level.head?_eq
  rcases rest with _ | ⟨mark, rest⟩ <;> rcases other with _ | ⟨also, other⟩
  · rfl
  · simp at head_eq
  · simp at head_eq
  · obtain rfl : mark = also := by simpa using head_eq
    by_cases marks : mark = '=' ∨ mark = '-'
    · have inLine : isLineEnd mark = false := by rcases marks with rfl | rfl <;> rfl
      have within := runLength_le_line inLine (mark :: rest)
      have run_eq : runLength mark (mark :: rest) = runLength mark (mark :: other) :=
        level.lengthWhile_eq (beq_eq_false_of_isLineEnd inLine '\n' rfl)
      simp only [underline?, ← run_eq, (level.drop within).blankLine_eq]
    · simp only [not_or] at marks
      simp [underline?, marks]

theorem feedLength_eq {front back behind : List Char} :
    feedLength (front ++ '\n' :: back) = feedLength (front ++ '\n' :: behind) := by
  have length_eq {back : List Char} : lengthWhile (· != '\n') (front ++ '\n' :: back) =
      (front.takeWhile (· != '\n')).length := by
    rw [Markdown.lengthWhile_eq, takeWhile_feed rfl]
  have within := (List.takeWhile_prefix (l := front) (· != '\n')).length_le
  simp only [feedLength, length_eq, List.drop_append_of_le_length within, List.isEmpty_iff,
    List.append_eq_nil_iff, List.cons_ne_nil, and_false]

end Level

/-! ## Places of one line -/

/-- No line ends between the places. -/
def Place.SameLine (place later : Place) : Prop :=
  ∃ passed, (∀ c ∈ passed, isLineEnd c = false) ∧ place.rest = passed ++ later.rest

namespace Place.SameLine

variable {place later last : Place}

theorem refl (place : Place) : place.SameLine place :=
  ⟨[], by simp, rfl⟩

theorem trans (first : place.SameLine later) (second : later.SameLine last) :
    place.SameLine last := by
  rcases first with ⟨passed, inLine, rest_eq⟩
  rcases second with ⟨more, moreInLine, later_eq⟩
  refine ⟨passed ++ more, ?_, ?_⟩
  · intro c mem
    rcases List.mem_append.mp mem with front | back
    · exact inLine c front
    · exact moreInLine c back
  · rw [rest_eq, later_eq, List.append_assoc]

theorem of_le {count : Nat} (le : count ≤ (line place.rest).length) :
    place.SameLine (place.advance count) := by
  refine ⟨place.rest.take count, ?_, (List.take_append_drop count place.rest).symm⟩
  intro c mem
  have inside : c ∈ line place.rest := by
    have whole : place.rest.take count <+: line place.rest :=
      List.prefix_of_prefix_length_le (List.take_prefix _ _) (List.takeWhile_prefix _)
        ((List.length_take_le _ _).trans le)
    exact whole.mem mem
  simpa using Text.holds_of_mem_takeWhile inside

theorem lt_length {front back : List Char} (same : place.SameLine later)
    (rest_eq : place.rest = front ++ '\n' :: back) : back.length < later.rest.length := by
  rcases same with ⟨passed, inLine, parted⟩
  rw [parted] at rest_eq
  rcases List.append_eq_append_iff.mp rest_eq with ⟨more, _, later_eq⟩ | ⟨more, passed_eq, feed_eq⟩
  · rw [later_eq, List.length_append, List.length_cons]
    omega
  · rcases more with _ | ⟨c, more⟩
    · rw [List.nil_append] at feed_eq
      rw [← feed_eq, List.length_cons]
      omega
    · obtain ⟨rfl, _⟩ : '\n' = c ∧ back = more ++ later.rest := by simpa using feed_eq
      exact absurd (inLine '\n' (by simp [passed_eq])) (by decide)

end Place.SameLine

theorem isLineEnd_eq_false_of_indentation {c : Char} (blank : c = ' ' ∨ c = '\t') :
    isLineEnd c = false := by
  rcases blank with rfl | rfl <;> rfl

namespace Margin

theorem sameLine_indent (margin : Margin) (wanted : Nat) :
    margin.place.SameLine (margin.indent wanted).2.place := by
  rcases margin.exists_indentation wanted with ⟨passed, blank, rest_eq, _⟩
  exact ⟨passed, fun c mem => isLineEnd_eq_false_of_indentation (blank c mem), rest_eq⟩

theorem sameLine_indentBy (margin : Margin) (wanted : Nat) :
    margin.place.SameLine (margin.indentBy wanted).2.place :=
  margin.sameLine_indent wanted

theorem sameLine_skipIndent (margin : Margin) :
    margin.place.SameLine margin.skipIndent.place := by
  apply Place.SameLine.of_le
  apply lengthWhile_le_line
  intro c ends
  rcases isLineEnd_iff.mp ends with rfl | rfl <;> rfl

theorem sameLine_quoteMark {margin behind : Margin} (mark : margin.quoteMark? = some behind) :
    margin.place.SameLine behind.place := by
  unfold quoteMark? at mark
  split at mark
  · next starts =>
    cases mark
    have within : 1 ≤ (line margin.place.rest).length :=
      one_le_line (m := '>') rfl (beq_iff_eq.mpr starts)
    exact (Place.SameLine.of_le within).trans (sameLine_indent (margin.pass 1) 1)
  · cases mark

end Margin

namespace Container

theorem sameLine_indented {margin behind : Margin} {columns : Nat}
    (enters : enter?.indented? margin columns = some behind) :
    margin.place.SameLine behind.place := by
  unfold enter?.indented? at enters
  simp only at enters
  split at enters
  · cases enters
    exact margin.sameLine_indentBy columns
  · cases enters

theorem sameLine_enter? {margin behind : Margin} {container : Container}
    (enters : container.enter? margin = some behind) : margin.place.SameLine behind.place := by
  cases container with
  | quote => exact (margin.sameLine_indent 3).trans (Margin.sameLine_quoteMark enters)
  | list delimiter tight =>
    cases enters
    exact .refl _
  | item indent => exact sameLine_indented enters
  | footnote => exact sameLine_indented enters

theorem sameLine_enter (containers : List Container) (margin : Margin) :
    margin.place.SameLine (enter containers margin).2.place := by
  fun_induction enter containers margin with
  | case1 => exact .refl _
  | case2 => exact .refl _
  | case3 margin container inner behind enters count last enter_eq ih =>
    rw [enter_eq] at ih
    exact (sameLine_enter? enters).trans ih

theorem sameLine_enterAll (containers : List Container) (place : Place) :
    place.SameLine (enterAll containers place).2.place :=
  sameLine_enter containers (.start place)

end Container

end Refill.Markdown
