import Refill.Proofs.Markdown.Level

/-!
# Documents that part at a paragraph

Two documents may be the same up to a paragraph and part there (`Seam`). A blank line stands before
the paragraph, and it begins with the same character in both. What is read before it does not tell
the documents apart: a place in the one document is turned into the place that is as far on in the
other (`Place.turn`), and so are the margins behind containers.
-/

namespace Refill.Markdown

/-- Lines that all have their ends, of which no backslash takes the last one out. -/
structure Closed (lines : List Char) : Prop where
  feed : ∀ front last, lines = front ++ [last] → last = '\n'
  plain : ¬['\\', '\n'] <:+ lines

theorem Closed.of_suffix {lines inner : List Char} (closed : Closed lines)
    (suffix : inner <:+ lines) : Closed inner where
  feed := by
    rintro front last rfl
    rcases suffix with ⟨before, lines_eq⟩
    rw [← List.append_assoc] at lines_eq
    exact closed.feed _ _ lines_eq.symm
  plain := fun escaped => closed.plain (escaped.trans suffix)

theorem Closed.eq_feed {c : Char} (closed : Closed [c]) : c = '\n' :=
  closed.feed [] c rfl

/-- A document up to a paragraph that a blank line sets off, and two texts that may follow. -/
structure Seam where
  /-- The lines before the blank one, with their ends. -/
  lines : List Char
  /-- What the blank line holds. -/
  blanks : List Char
  /-- The spaces before the paragraph. -/
  indent : List Char
  old : List Char
  new : List Char
  closed : Closed lines
  blank : ∀ c ∈ blanks, c = ' ' ∨ c = '\t' ∨ c = '\r'
  spaces : ∀ c ∈ indent, c = ' '
  starts : ∃ c back behind,
    old = c :: back ∧ new = c :: behind ∧ isWhite c = false ∧ c ≠ '>'

namespace Seam

variable (seam : Seam)

def source : List Char :=
  seam.lines ++ (seam.blanks ++ '\n' :: (seam.indent ++ seam.old))

/-- The length of what is left at the beginning of the line of the paragraph. -/
def edge : Nat :=
  seam.indent.length + seam.old.length

/-- The length of what is left at the beginning of the blank line. -/
def gap : Nat :=
  seam.blanks.length + 1 + seam.edge

/-- What is left of the one document where the rest is left of the other. -/
def turn (rest : List Char) : List Char :=
  rest.take (rest.length - seam.old.length) ++ seam.new

/-- What is left above the line of the paragraph. -/
structure Above (rest : List Char) : Prop where
  suffix : rest <:+ seam.source
  longer : seam.edge < rest.length

/-- What is left above the blank line. -/
structure Inside (rest : List Char) : Prop where
  suffix : rest <:+ seam.source
  longer : seam.gap < rest.length

/-- What is left at the beginning of the line of the paragraph, or above it. -/
structure Ahead (rest : List Char) : Prop where
  suffix : rest <:+ seam.source
  longer : seam.edge ≤ rest.length

/-- What is left at the beginning of the blank line, or above it. -/
structure Upto (rest : List Char) : Prop where
  suffix : rest <:+ seam.source
  longer : seam.gap ≤ rest.length

end Seam

def Place.turn (seam : Seam) (place : Place) : Place :=
  { place with rest := seam.turn place.rest }

def Margin.turn (seam : Seam) (margin : Margin) : Margin :=
  { margin with place := margin.place.turn seam }

variable {seam : Seam}

/-! ## What is left of the documents -/

namespace Seam

section Rest

variable {rest : List Char}

@[simp]
theorem turn_append (front : List Char) : seam.turn (front ++ seam.old) = front ++ seam.new := by
  simp [turn]

theorem suffix_of_length_le (suffix : rest <:+ seam.source) (le : seam.old.length ≤ rest.length) :
    seam.old <:+ rest := by
  have whole : seam.old <:+ seam.source :=
    ⟨seam.lines ++ (seam.blanks ++ '\n' :: seam.indent), by simp [source]⟩
  exact List.suffix_of_suffix_length_le whole suffix le

theorem head?_turn (reaches : seam.old <:+ rest) : (seam.turn rest).head? = rest.head? := by
  rcases reaches with ⟨front, rfl⟩
  rcases seam.starts with ⟨c, back, behind, old_eq, new_eq, _⟩
  rw [turn_append, old_eq, new_eq]
  cases front <;> rfl

theorem isEmpty_turn (reaches : seam.old <:+ rest) : (seam.turn rest).isEmpty = rest.isEmpty := by
  have head_eq := head?_turn reaches
  generalize seam.turn rest = turned at head_eq ⊢
  rcases turned with _ | ⟨c, turned⟩ <;> rcases rest with _ | ⟨d, rest⟩
  · rfl
  · simp at head_eq
  · simp at head_eq
  · rfl

/-- A blank or the mark of a quote is not the first character of the paragraph. -/
theorem reaches_tail {c : Char} (reaches : seam.old <:+ c :: rest)
    (passes : isWhite c = true ∨ c = '>') : seam.old <:+ rest := by
  rcases List.suffix_cons_iff.mp reaches with old_eq | later
  · rcases seam.starts with ⟨first, back, behind, starts, _, solid, unquoted⟩
    rw [old_eq, List.cons.injEq] at starts
    rcases starts with ⟨rfl, _⟩
    rcases passes with white | quoted
    · rw [solid] at white
      cases white
    · exact absurd quoted unquoted
  · exact later

theorem exists_turn_cons {c : Char} (reaches : seam.old <:+ c :: rest) :
    ∃ later, seam.turn (c :: rest) = c :: later := by
  have head_eq := seam.head?_turn reaches
  rcases turn_eq : seam.turn (c :: rest) with _ | ⟨first, later⟩
  · simp [turn_eq] at head_eq
  · obtain rfl : first = c := by simpa [turn_eq] using head_eq
    exact ⟨later, rfl⟩

theorem turn_cons {c : Char} (reaches : seam.old <:+ rest) :
    seam.turn (c :: rest) = c :: seam.turn rest := by
  rcases reaches with ⟨front, rfl⟩
  rw [← List.cons_append, turn_append, turn_append, List.cons_append]

theorem reaches_drop {count : Nat} (reaches : seam.old <:+ rest)
    (le : count + seam.old.length ≤ rest.length) : seam.old <:+ rest.drop count := by
  apply List.suffix_of_suffix_length_le reaches (List.drop_suffix count rest)
  rw [List.length_drop]
  omega

theorem turn_drop {count : Nat} (reaches : seam.old <:+ rest)
    (le : count + seam.old.length ≤ rest.length) :
    seam.turn (rest.drop count) = (seam.turn rest).drop count := by
  rcases reaches with ⟨front, rfl⟩
  rw [List.length_append] at le
  have within : count ≤ front.length := by omega
  rw [turn_append, List.drop_append_of_le_length within, List.drop_append_of_le_length within,
    turn_append]

theorem turn_of_reaches (reaches : seam.old <:+ rest) :
    ∃ front, rest = front ++ seam.old ∧ seam.turn rest = front ++ seam.new := by
  rcases reaches with ⟨front, rfl⟩
  exact ⟨front, rfl, turn_append front⟩

theorem exists_of_suffix_append {front back : List Char} (suffix : rest <:+ front ++ back)
    (longer : back.length < rest.length) : ∃ inner, inner ≠ [] ∧ inner <:+ front ∧
      rest = inner ++ back := by
  rcases List.suffix_of_suffix_length_le (List.suffix_append front back) suffix longer.le with
    ⟨inner, rfl⟩
  refine ⟨inner, ?_, ?_, rfl⟩
  · rintro rfl
    simp at longer
  · rcases suffix with ⟨before, whole⟩
    rw [← List.append_assoc, List.append_cancel_right_eq] at whole
    exact ⟨before, whole⟩

theorem edge_lt_gap (seam : Seam) : seam.edge < seam.gap := by
  unfold gap
  omega

theorem old_le_edge (seam : Seam) : seam.old.length ≤ seam.edge :=
  Nat.le_add_left _ _

theorem length_gap (seam : Seam) :
    (seam.blanks ++ '\n' :: (seam.indent ++ seam.old)).length = seam.gap := by
  simp only [gap, edge, List.length_append, List.length_cons]
  omega

theorem Inside.above (inside : seam.Inside rest) : seam.Above rest :=
  ⟨inside.suffix, seam.edge_lt_gap.trans inside.longer⟩

theorem Upto.above (upto : seam.Upto rest) : seam.Above rest :=
  ⟨upto.suffix, Nat.lt_of_lt_of_le seam.edge_lt_gap upto.longer⟩

theorem Above.ahead (above : seam.Above rest) : seam.Ahead rest :=
  ⟨above.suffix, above.longer.le⟩

theorem Upto.ahead (upto : seam.Upto rest) : seam.Ahead rest :=
  upto.above.ahead

theorem Ahead.reaches (ahead : seam.Ahead rest) : seam.old <:+ rest :=
  seam.suffix_of_length_le ahead.suffix (seam.old_le_edge.trans ahead.longer)

theorem Above.ahead_of_le {count : Nat} (above : seam.Above rest)
    (le : count + seam.edge ≤ rest.length) : seam.Ahead (rest.drop count) where
  suffix := (List.drop_suffix count rest).trans above.suffix
  longer := by
    rw [List.length_drop]
    omega

theorem Ahead.above_or_edge (ahead : seam.Ahead rest) :
    seam.Above rest ∨ rest = seam.indent ++ seam.old := by
  rcases ahead.longer.eq_or_lt with length_eq | longer
  · right
    have whole : seam.indent ++ seam.old <:+ seam.source :=
      ⟨seam.lines ++ (seam.blanks ++ ['\n']), by simp [source]⟩
    rw [edge, ← List.length_append] at length_eq
    exact (List.suffix_of_suffix_length_le ahead.suffix whole length_eq.ge).eq_of_length
      length_eq.symm
  · exact Or.inl ⟨ahead.suffix, longer⟩

theorem Inside.upto (inside : seam.Inside rest) : seam.Upto rest :=
  ⟨inside.suffix, inside.longer.le⟩

theorem Inside.upto_of_le {count : Nat} (inside : seam.Inside rest)
    (le : count + seam.gap ≤ rest.length) : seam.Upto (rest.drop count) where
  suffix := (List.drop_suffix count rest).trans inside.suffix
  longer := by
    rw [List.length_drop]
    omega

theorem Above.of_le {count : Nat} (above : seam.Above rest)
    (le : count + seam.edge < rest.length) : seam.Above (rest.drop count) where
  suffix := (List.drop_suffix count rest).trans above.suffix
  longer := by
    rw [List.length_drop]
    omega

theorem Inside.of_le {count : Nat} (inside : seam.Inside rest)
    (le : count + seam.gap < rest.length) : seam.Inside (rest.drop count) where
  suffix := (List.drop_suffix count rest).trans inside.suffix
  longer := by
    rw [List.length_drop]
    omega

theorem Above.reaches (above : seam.Above rest) : seam.old <:+ rest :=
  seam.suffix_of_length_le above.suffix (seam.old_le_edge.trans above.longer.le)

/-- Above the line of the paragraph a line feed follows, in front of that line. -/
theorem Above.exists_feed (above : seam.Above rest) :
    ∃ front, rest = front ++ '\n' :: (seam.indent ++ seam.old) := by
  have whole : rest <:+ (seam.lines ++ seam.blanks ++ ['\n']) ++ (seam.indent ++ seam.old) := by
    simpa [source] using above.suffix
  have longer := above.longer
  rw [edge, ← List.length_append] at longer
  rcases exists_of_suffix_append whole longer with ⟨inner, nonempty, ⟨before, inner_eq⟩, rfl⟩
  rcases List.eq_nil_or_concat' inner with rfl | ⟨front, last, rfl⟩
  · exact absurd rfl nonempty
  · rw [← List.append_assoc] at inner_eq
    obtain ⟨_, rfl⟩ : before ++ front = seam.lines ++ seam.blanks ∧ last = '\n' := by
      simpa using List.append_inj' inner_eq rfl
    exact ⟨front, by simp⟩

/-- Above the blank line there is a part of the lines before it, which ends in a line feed. -/
theorem Inside.exists_lines (inside : seam.Inside rest) :
    ∃ front, front ++ ['\n'] <:+ seam.lines ∧
      rest = front ++ '\n' :: (seam.blanks ++ '\n' :: (seam.indent ++ seam.old)) := by
  have longer := inside.longer
  rw [← seam.length_gap] at longer
  rcases exists_of_suffix_append inside.suffix longer with ⟨inner, nonempty, suffix, rfl⟩
  rcases List.eq_nil_or_concat' inner with rfl | ⟨front, last, rfl⟩
  · exact absurd rfl nonempty
  · obtain rfl := (seam.closed.of_suffix suffix).feed front last rfl
    exact ⟨front, suffix, by simp⟩

/-- What is left above the line of the paragraph, but not above the blank line, is blank. -/
theorem Above.inside_or_blank (above : seam.Above rest) :
    seam.Inside rest ∨ ∃ inner, (∀ c ∈ inner, c = ' ' ∨ c = '\t' ∨ c = '\r') ∧
      rest = inner ++ '\n' :: (seam.indent ++ seam.old) := by
  by_cases longer : seam.gap < rest.length
  · exact Or.inl ⟨above.suffix, longer⟩
  · right
    have whole : seam.blanks ++ '\n' :: (seam.indent ++ seam.old) <:+ seam.source :=
      List.suffix_append _ _
    have le := Nat.le_of_not_lt longer
    rw [← seam.length_gap] at le
    rcases List.suffix_of_suffix_length_le above.suffix whole le with ⟨passed, blanks_eq⟩
    rcases above.exists_feed with ⟨front, rfl⟩
    have front_eq : passed ++ front = seam.blanks := by
      rw [← List.append_assoc, List.append_cancel_right_eq] at blanks_eq
      exact blanks_eq
    refine ⟨front, fun c mem => ?_, rfl⟩
    apply seam.blank c
    rw [← front_eq]
    exact List.mem_append_right passed mem

/-- Above the line of the paragraph the documents are level. -/
theorem Above.level (above : seam.Above rest) : Level rest (seam.turn rest) := by
  rcases above.exists_feed with ⟨front, rfl⟩
  right
  refine ⟨front, seam.indent ++ seam.old, seam.indent ++ seam.new, rfl, ?_⟩
  have turned := seam.turn_append (front ++ '\n' :: seam.indent)
  simpa using turned

theorem Above.line_lt (above : seam.Above rest) :
    (line rest).length + seam.edge < rest.length := by
  rcases above.exists_feed with ⟨front, rfl⟩
  have short := line_feed front (seam.indent ++ seam.old)
  simp only [List.length_append, List.length_cons, edge]
  omega

theorem Above.lineLength_le (above : seam.Above rest) :
    lineLength rest + seam.edge ≤ rest.length := by
  rcases above.exists_feed with ⟨front, rfl⟩
  have short := lineLength_feed front (seam.indent ++ seam.old)
  simp only [List.length_append, List.length_cons, edge]
  omega

theorem Above.feedLength_le (above : seam.Above rest) :
    feedLength rest + seam.edge ≤ rest.length := by
  rcases above.exists_feed with ⟨front, rfl⟩
  have short := feedLength_feed front (seam.indent ++ seam.old)
  simp only [List.length_append, List.length_cons, edge]
  omega

theorem Above.feedLength_turn (above : seam.Above rest) :
    feedLength (seam.turn rest) = feedLength rest := by
  rcases above.exists_feed with ⟨front, rfl⟩
  have turned := seam.turn_append (front ++ '\n' :: seam.indent)
  rw [List.append_assoc, List.append_assoc, List.cons_append, List.cons_append] at turned
  rw [turned]
  exact Level.feedLength_eq

theorem Inside.line_lt (inside : seam.Inside rest) :
    (line rest).length + seam.gap < rest.length := by
  rcases inside.exists_lines with ⟨front, _, rfl⟩
  have short := line_feed front (seam.blanks ++ '\n' :: (seam.indent ++ seam.old))
  rw [List.length_append, List.length_cons, seam.length_gap]
  omega

theorem Inside.lineLength_le (inside : seam.Inside rest) :
    lineLength rest + seam.gap ≤ rest.length := by
  rcases inside.exists_lines with ⟨front, _, rfl⟩
  have short := lineLength_feed front (seam.blanks ++ '\n' :: (seam.indent ++ seam.old))
  rw [List.length_append, List.length_cons, seam.length_gap]
  omega

theorem Inside.feedLength_le (inside : seam.Inside rest) :
    feedLength rest + seam.gap ≤ rest.length := by
  rcases inside.exists_lines with ⟨front, _, rfl⟩
  have short := feedLength_feed front (seam.blanks ++ '\n' :: (seam.indent ++ seam.old))
  rw [List.length_append, List.length_cons, seam.length_gap]
  omega

theorem take_turn {count : Nat} (reaches : seam.old <:+ rest)
    (le : count + seam.old.length ≤ rest.length) : (seam.turn rest).take count = rest.take count := by
  rcases reaches with ⟨front, rfl⟩
  rw [List.length_append] at le
  have within : count ≤ front.length := by omega
  rw [turn_append, List.take_append_of_le_length within, List.take_append_of_le_length within]

end Rest

section Blank

variable {inner back : List Char}

/-- The blank line is blank from each of its characters on. -/
theorem head?_of_blank (blank : ∀ c ∈ inner, c = ' ' ∨ c = '\t' ∨ c = '\r')
    {holds : Char → Bool} (stops : holds '\n' = false ∧ holds '\r' = false) :
    (holds ' ' && holds '\t') →
      ((inner ++ '\n' :: back).dropWhile holds).head?.all isLineEnd := by
  intro passes
  rw [Bool.and_eq_true] at passes
  induction inner with
  | nil => simp [stops, isLineEnd]
  | cons c inner ih =>
    rw [List.forall_mem_cons] at blank
    rcases blank.1 with rfl | rfl | rfl
    · simpa [passes] using ih blank.2
    · simpa [passes] using ih blank.2
    · simp [stops, isLineEnd]

theorem isBlankLine_of_blank (blank : ∀ c ∈ inner, c = ' ' ∨ c = '\t' ∨ c = '\r') :
    isBlankLine (inner ++ '\n' :: back) := by
  rw [isBlankLine_eq]
  exact head?_of_blank blank ⟨rfl, rfl⟩ rfl

end Blank

theorem Above.inside_of_filled {rest : List Char} (above : seam.Above rest)
    (filled : isBlankLine rest = false) : seam.Inside rest := by
  rcases above.inside_or_blank with inside | ⟨inner, blank, rfl⟩
  · exact inside
  · rw [isBlankLine_of_blank blank] at filled
    cases filled

end Seam

/-! ## Places and margins -/

namespace Place

variable {place later : Place} {count : Nat}

@[simp]
theorem offset_turn (seam : Seam) (place : Place) : (place.turn seam).offset = place.offset := rfl

@[simp]
theorem rest_turn (seam : Seam) (place : Place) :
    (place.turn seam).rest = seam.turn place.rest := rfl

theorem advance_turn (reaches : seam.old <:+ place.rest)
    (le : count + seam.old.length ≤ place.rest.length) :
    (place.turn seam).advance count = (place.advance count).turn seam := by
  simp [turn, advance, seam.turn_drop reaches le]

theorem SameLine.suffix (same : place.SameLine later) : later.rest <:+ place.rest := by
  rcases same with ⟨passed, _, rest_eq⟩
  exact ⟨passed, rest_eq.symm⟩

/-- A place stays above the paragraph for its line. -/
theorem SameLine.above (same : place.SameLine later) (above : seam.Above place.rest) :
    seam.Above later.rest := by
  refine ⟨same.suffix.trans above.suffix, ?_⟩
  rcases above.exists_feed with ⟨front, rest_eq⟩
  have longer := same.lt_length rest_eq
  rwa [List.length_append] at longer

theorem SameLine.inside (same : place.SameLine later) (inside : seam.Inside place.rest) :
    seam.Inside later.rest := by
  refine ⟨same.suffix.trans inside.suffix, ?_⟩
  rcases inside.exists_lines with ⟨front, _, rest_eq⟩
  have longer := same.lt_length rest_eq
  rwa [seam.length_gap] at longer

end Place

theorem Seam.Above.advance_turn {place : Place} {count : Nat} (above : seam.Above place.rest)
    (le : count + seam.edge ≤ place.rest.length) :
    (place.turn seam).advance count = (place.advance count).turn seam := by
  apply Place.advance_turn above.reaches
  have := seam.old_le_edge
  omega

theorem Seam.Inside.advance_turn {place : Place} {count : Nat} (inside : seam.Inside place.rest)
    (le : count + seam.gap ≤ place.rest.length) :
    (place.turn seam).advance count = (place.advance count).turn seam := by
  apply inside.above.advance_turn
  have := seam.edge_lt_gap
  omega

namespace Margin

variable {margin : Margin} {count : Nat}

@[simp]
theorem place_turn (seam : Seam) (margin : Margin) :
    (margin.turn seam).place = margin.place.turn seam := rfl

@[simp]
theorem rest_turn (seam : Seam) (margin : Margin) :
    (margin.turn seam).rest = seam.turn margin.rest := rfl

theorem start_turn (seam : Seam) (place : Place) :
    start (place.turn seam) = (start place).turn seam := rfl

theorem pass_turn (reaches : seam.old <:+ margin.rest)
    (le : count + seam.old.length ≤ margin.rest.length) :
    (margin.turn seam).pass count = (margin.pass count).turn seam := by
  simp only [pass, turn]
  rw [Place.advance_turn reaches le]

section Go

variable (wanted offset column owed : Nat) {rest : List Char}

theorem reaches_go (reaches : seam.old <:+ rest) :
    seam.old <:+ (indent.go wanted offset column owed rest).2.rest := by
  fun_induction indent.go wanted offset column owed rest with
  | case1 => exact reaches
  | case2 => exact reaches
  | case3 wanted offset column owed rest _ taken after go_eq ih =>
    rw [go_eq] at ih
    exact ih (seam.reaches_tail reaches (Or.inl rfl))
  | case4 wanted offset column owed rest _ width used taken after go_eq _ ih =>
    rw [go_eq] at ih
    exact ih (seam.reaches_tail reaches (Or.inl rfl))
  | case5 => exact reaches

theorem go_turn (reaches : seam.old <:+ rest) :
    indent.go wanted offset column owed (seam.turn rest) =
      ((indent.go wanted offset column owed rest).1,
        (indent.go wanted offset column owed rest).2.turn seam) := by
  fun_induction indent.go wanted offset column owed rest with
  | case1 =>
    rcases seam.starts with ⟨c, back, behind, old_eq, _⟩
    rw [old_eq] at reaches
    exact absurd (List.suffix_nil.mp reaches) (List.cons_ne_nil c back)
  | case2 offset column owed c rest =>
    rcases seam.exists_turn_cons reaches with ⟨later, turn_eq⟩
    simp [indent.go, Margin.turn, Place.turn, turn_eq]
  | case3 wanted offset column owed rest left taken after go_eq ih =>
    have later := seam.reaches_tail reaches (Or.inl rfl)
    rw [go_eq] at ih
    rw [seam.turn_cons later, indent.go, if_neg left, if_pos rfl, ih later]
  | case4 wanted offset column owed rest left width used taken after go_eq no_space ih =>
    have later := seam.reaches_tail reaches (Or.inl rfl)
    rw [go_eq] at ih
    rw [seam.turn_cons later, indent.go, if_neg left, if_neg no_space, if_pos rfl]
    simp only [used, width] at ih
    simp only [ih later, used, width]
  | case5 wanted offset column owed c rest left no_space no_tab =>
    rcases seam.exists_turn_cons reaches with ⟨later, turn_eq⟩
    simp [indent.go, Margin.turn, Place.turn, turn_eq, left, no_space, no_tab]

end Go

theorem reaches_indent (reaches : seam.old <:+ margin.rest) (wanted : Nat) :
    seam.old <:+ (margin.indent wanted).2.rest :=
  reaches_go _ _ _ _ reaches

theorem indent_turn (reaches : seam.old <:+ margin.rest) (wanted : Nat) :
    (margin.turn seam).indent wanted =
      ((margin.indent wanted).1, (margin.indent wanted).2.turn seam) := by
  unfold rest at reaches
  simp only [indent, turn, Place.turn, go_turn _ _ _ _ reaches]

theorem reaches_indentBy (reaches : seam.old <:+ margin.rest) (wanted : Nat) :
    seam.old <:+ (margin.indentBy wanted).2.rest :=
  reaches_indent reaches wanted

theorem indentBy_turn (reaches : seam.old <:+ margin.rest) (wanted : Nat) :
    (margin.turn seam).indentBy wanted =
      ((margin.indentBy wanted).1, (margin.indentBy wanted).2.turn seam) := by
  simp only [indentBy, indent_turn reaches]

theorem atLineEnd_turn (reaches : seam.old <:+ margin.rest) :
    (margin.turn seam).atLineEnd = margin.atLineEnd := by
  rw [atLineEnd, atLineEnd, rest_turn, seam.head?_turn reaches]

section Skip

variable {holds : Char → Bool} {rest : List Char}

/-- Blanks that are passed over stand before the paragraph. -/
theorem takeWhile_turn (blanks : ∀ c, holds c → isWhite c) (reaches : seam.old <:+ rest) :
    lengthWhile holds (seam.turn rest) = lengthWhile holds rest ∧
      lengthWhile holds rest + seam.old.length ≤ rest.length := by
  rcases seam.turn_of_reaches reaches with ⟨front, rfl, turn_eq⟩
  rcases seam.starts with ⟨c, back, behind, old_eq, new_eq, solid, _⟩
  have stops : holds c = false := by
    by_contra held
    rw [Bool.not_eq_false] at held
    rw [blanks c held] at solid
    cases solid
  have taken (text : List Char) : lengthWhile holds (front ++ c :: text) =
      (front.takeWhile holds).length := by
    rw [lengthWhile_eq]
    congr 1
    induction front with
    | nil => simp [stops]
    | cons first front ih => cases held : holds first <;> simp [held, ih]
  have short := (List.takeWhile_prefix (l := front) holds).length_le
  rw [turn_eq, List.length_append, old_eq, new_eq, taken, taken]
  exact ⟨rfl, by omega⟩

end Skip

theorem reaches_skipIndent (reaches : seam.old <:+ margin.rest) :
    seam.old <:+ margin.skipIndent.rest := by
  apply seam.reaches_drop reaches
  refine (takeWhile_turn ?_ reaches).2
  intro c blank
  have either : c = ' ' ∨ c = '\t' := by simpa using blank
  rcases either with rfl | rfl <;> rfl

theorem skipIndent_turn (reaches : seam.old <:+ margin.rest) :
    (margin.turn seam).skipIndent = margin.skipIndent.turn seam := by
  have blanks : ∀ c : Char, (c == ' ' || c == '\t') → isWhite c := by
    intro c blank
    have either : c = ' ' ∨ c = '\t' := by simpa using blank
    rcases either with rfl | rfl <;> rfl
  rcases takeWhile_turn blanks reaches with ⟨length_eq, le⟩
  unfold skipIndent
  rw [rest_turn, length_eq, place_turn]
  dsimp only
  rw [Place.advance_turn reaches le]
  rfl

theorem quoteMark_turn (reaches : seam.old <:+ margin.rest) :
    (margin.turn seam).quoteMark? = margin.quoteMark?.map (turn seam) ∧
      ∀ behind, margin.quoteMark? = some behind → seam.old <:+ behind.rest := by
  unfold quoteMark?
  rw [rest_turn, seam.head?_turn reaches]
  split
  · next starts =>
    rcases rest_eq : margin.rest with _ | ⟨c, rest⟩
    · simp [rest_eq] at starts
    rw [rest_eq, List.head?_cons, Option.some.injEq] at starts
    rw [rest_eq] at reaches
    have later := seam.reaches_tail reaches (Or.inr starts)
    have le : 1 + seam.old.length ≤ margin.rest.length := by
      have shorter := later.length_le
      rw [rest_eq, List.length_cons]
      omega
    rw [← rest_eq] at reaches
    have passed : seam.old <:+ (margin.pass 1).rest := seam.reaches_drop reaches le
    rw [pass_turn reaches le, indent_turn passed]
    refine ⟨rfl, fun behind behind_eq => ?_⟩
    cases behind_eq
    exact reaches_indent passed 1
  · exact ⟨rfl, by simp⟩

end Margin

/-! ## Containers -/

namespace Container

variable {margin : Margin}

theorem indented_turn (reaches : seam.old <:+ margin.rest) (columns : Nat) :
    enter?.indented? (margin.turn seam) columns =
        (enter?.indented? margin columns).map (Margin.turn seam) ∧
      ∀ behind, enter?.indented? margin columns = some behind → seam.old <:+ behind.rest := by
  have later := Margin.reaches_indentBy reaches columns
  unfold enter?.indented?
  simp only [Margin.indentBy_turn reaches, Margin.atLineEnd_turn later]
  split
  · refine ⟨rfl, fun behind behind_eq => ?_⟩
    cases behind_eq
    exact later
  · exact ⟨rfl, by simp⟩

theorem enter?_turn (reaches : seam.old <:+ margin.rest) (container : Container) :
    container.enter? (margin.turn seam) = (container.enter? margin).map (Margin.turn seam) ∧
      ∀ behind, container.enter? margin = some behind → seam.old <:+ behind.rest := by
  cases container with
  | quote =>
    simp only [enter?, Margin.indent_turn reaches]
    exact Margin.quoteMark_turn (Margin.reaches_indent reaches 3)
  | list delimiter tight =>
    refine ⟨rfl, fun behind behind_eq => ?_⟩
    cases behind_eq
    exact reaches
  | item indent => exact indented_turn reaches indent
  | footnote => exact indented_turn reaches 4

theorem enter_turn (containers : List Container) (reaches : seam.old <:+ margin.rest) :
    enter containers (margin.turn seam) =
        ((enter containers margin).1, (enter containers margin).2.turn seam) ∧
      seam.old <:+ (enter containers margin).2.rest := by
  induction containers generalizing margin with
  | nil => exact ⟨rfl, reaches⟩
  | cons container inner ih =>
    rcases enter?_turn reaches container with ⟨enter_eq, later⟩
    rw [enter, enter, enter_eq]
    rcases entered : container.enter? margin with _ | behind
    · exact ⟨rfl, reaches⟩
    · rcases ih (later behind entered) with ⟨inner_eq, reaches⟩
      simp only [Option.map_some, inner_eq]
      exact ⟨trivial, reaches⟩

theorem enterAll_turn (containers : List Container) {place : Place}
    (reaches : seam.old <:+ place.rest) :
    enterAll containers (place.turn seam) =
      ((enterAll containers place).1, (enterAll containers place).2.turn seam) := by
  have begun : seam.old <:+ (Margin.start place).rest := reaches
  have entered := (enter_turn containers begun).1
  simp only [enterAll, Margin.start_turn, entered]

theorem reaches_enterAll (containers : List Container) {place : Place}
    (reaches : seam.old <:+ place.rest) :
    seam.old <:+ (enterAll containers place).2.rest := by
  have begun : seam.old <:+ (Margin.start place).rest := reaches
  exact (enter_turn containers begun).2

end Container

end Refill.Markdown
