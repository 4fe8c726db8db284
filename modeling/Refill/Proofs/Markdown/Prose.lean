import Refill.Proofs.Markdown.Found
import Refill.Proofs.Markdown.Shift

/-!
# A text with a blank line behind

A text that is read as a paragraph by itself is read so before a blank line as well, and ends there
(`Prose.textBlock_append`, `Prose.opensText_append`). It must not end in a backslash or a blank, and
hold no closing bracket before a colon, so that no label goes from it over the blank line.
-/

namespace Refill.Markdown

/-! ## Empty lines -/

/-- Whether only spaces and tabs are left of the line. -/
def isEmptyLine (rest : List Char) : Bool :=
  (rest.dropWhile fun c => c == ' ' || c == '\t').head?.all isLineEnd

/-- Nothing follows a text, or the end of its line and an empty one. -/
def Parts (tail : List Char) : Prop :=
  tail = [] ∨ ∃ back, tail = '\n' :: back ∧ isEmptyLine back

section Empty

variable {rest : List Char}

theorem isEmptyLine_cons {c : Char} (blank : c = ' ' ∨ c = '\t') :
    isEmptyLine (c :: rest) = isEmptyLine rest := by
  rcases blank with rfl | rfl <;> rfl

theorem isEmptyLine_of_other {c : Char} (noSpace : c ≠ ' ') (noTab : c ≠ '\t') :
    isEmptyLine (c :: rest) = isLineEnd c := by
  simp [isEmptyLine, noSpace, noTab]

theorem isBlankLine_of_isEmptyLine (empty : isEmptyLine rest) : isBlankLine rest := by
  induction rest with
  | nil => rfl
  | cons c rest ih =>
    by_cases blank : c = ' ' ∨ c = '\t'
    · rw [isEmptyLine_cons blank] at empty
      have gap : isGap c := by rcases blank with rfl | rfl <;> rfl
      rw [isBlankLine_eq, List.dropWhile_cons_of_pos gap, ← isBlankLine_eq]
      exact ih empty
    · rw [not_or] at blank
      rw [isEmptyLine_of_other blank.1 blank.2] at empty
      rw [isBlankLine_eq, List.dropWhile_cons_of_neg]
      · exact empty
      · rw [isGap_eq_false_of_isLineEnd c empty]
        exact Bool.false_ne_true

theorem isEmptyLine_append {front back : List Char} (blank : ∀ c ∈ front, c = ' ' ∨ c = '\t') :
    isEmptyLine (front ++ back) = isEmptyLine back := by
  induction front with
  | nil => rfl
  | cons c front ih =>
    rw [List.forall_mem_cons] at blank
    rw [List.cons_append, isEmptyLine_cons blank.1, ih blank.2]

theorem atLineEnd_skipIndent (margin : Margin) :
    margin.skipIndent.atLineEnd = isEmptyLine margin.rest := by
  simp only [Margin.atLineEnd, Margin.skipIndent, Margin.rest, Place.rest_advance, drop_lengthWhile]
  rfl

/-- A label is given up in an empty line. -/
theorem givesUp_emptyLine {lineBreak : List Char → Option Nat} (empty : isEmptyLine rest) :
    GivesUp lineBreak 0 rest := by
  intro scan broken within
  have skip_eq : ¬0 < scan.skip := by omega
  induction rest generalizing scan with
  | nil => rfl
  | cons c rest ih =>
    rw [label?.go.eq_def]
    dsimp only
    rw [if_neg skip_eq]
    by_cases blank : c = ' ' ∨ c = '\t'
    · rw [isEmptyLine_cons blank] at empty
      have later : label?.go lineBreak scan.pushBlank rest = none :=
        ih empty scan.pushBlank broken within skip_eq
      rcases blank with rfl | rfl <;> simp [isLineEnd, isGap, later]
    · rw [not_or] at blank
      rw [isEmptyLine_of_other blank.1 blank.2] at empty
      rcases isLineEnd_iff.mp empty with rfl | rfl <;> simp [broken, isLineEnd]

end Empty

/-! ## Texts that end in themselves -/

/-- The text ends in a character that is neither a blank nor a backslash, and no closing bracket stands
before a colon in it. -/
structure Prose (rest : List Char) : Prop where
  last : ∃ front c, rest = front ++ [c] ∧ isWhite c = false ∧ c ≠ '\\'
  apart : ¬"]:".toList <:+: rest

section Line

variable {rest tail : List Char}

theorem Prose.of_suffix {later : List Char} (prose : Prose rest) (suffix : later <:+ rest)
    (left : later ≠ []) : Prose later where
  last := by
    rcases prose.last with ⟨front, c, rfl, last⟩
    rcases List.eq_nil_or_concat' later with rfl | ⟨inner, other, rfl⟩
    · exact absurd rfl left
    · obtain rfl : other = c := by
        have same := suffix.getLast left
        simpa using same
      exact ⟨inner, other, rfl, last⟩
  apart := fun inside => prose.apart (inside.trans suffix.isInfix)

theorem Prose.ne_nil (prose : Prose rest) : rest ≠ [] := by
  rcases prose.last with ⟨front, c, rfl, _⟩
  simp

theorem Parts.takeWhile {holds : Char → Bool} (parts : Parts tail) (stops : holds '\n' = false) :
    (rest ++ tail).takeWhile holds = rest.takeWhile holds := by
  rcases parts with rfl | ⟨back, rfl, _⟩
  · rw [List.append_nil]
  · exact takeWhile_feed stops rest back

theorem Parts.line_append (parts : Parts tail) : line (rest ++ tail) = line rest :=
  parts.takeWhile rfl

theorem Parts.fence_append (parts : Parts tail) : fence? (rest ++ tail) = fence? rest := by
  rw [← fence_takeWhile, parts.takeWhile rfl, fence_takeWhile]

theorem closed_concat {inner : List Char} (prose : inner ≠ [] → Prose inner) :
    Closed (inner ++ ['\n']) where
  feed front last text_eq := by
    have same := (List.append_inj' text_eq rfl).2
    simpa using same.symm
  plain := by
    rintro ⟨front, text_eq⟩
    have inner_eq : front ++ ['\\'] = inner := by
      apply (List.append_left_inj ['\n']).mp
      simpa using text_eq
    rcases (prose (by simp [← inner_eq])).last with ⟨before, c, other_eq, _, noSlash⟩
    rw [← inner_eq] at other_eq
    exact noSlash (by simpa using (List.append_inj' other_eq rfl).2.symm)

/-- No colon follows a label in the text. -/
theorem Prose.label {inner : List Char} (prose : Prose rest) (parts : Parts tail)
    (suffix : inner <:+ rest) {lineBreak : List Char → Option Nat}
    (still : ∀ text skip, lineBreak text = some skip → skip = 0) {length : Nat} {name : List Char}
    (found : label? lineBreak (inner ++ tail) = some (length, name)) :
    (((inner ++ tail).drop length).head? == some ':') = false := by
  rcases exists_of_label_go found with ⟨inside, behind, text_eq, length_eq⟩
  have length_eq : length = (inside ++ [']']).length := by
    simp [length_eq, LabelScan.start]
  have parted : inner ++ tail = (inside ++ [']']) ++ behind := by simp [text_eq]
  rw [parted, length_eq, List.drop_left]
  by_contra colon
  obtain ⟨more, rfl⟩ : ∃ more, behind = ':' :: more := by
    rcases behind with _ | ⟨c, more⟩
    · exact absurd rfl colon
    · exact ⟨more, by simpa using colon⟩
  -- both characters stand in the text, whatever follows it
  have apart {more : List Char} (inner_eq : inner = inside ++ [']'] ++ ':' :: more) : False := by
    apply prose.apart
    refine List.IsInfix.trans ⟨inside, more, ?_⟩ suffix.isInfix
    rw [inner_eq]
    simp
  rcases parts with rfl | ⟨back, rfl, empty⟩
  · rw [List.append_nil] at parted
    exact apart parted
  have closed : Closed (inner ++ ['\n']) := closed_concat (prose.of_suffix suffix)
  have breaks : BreaksAlike lineBreak (inner ++ ['\n']) back back 0 := by
    intro text _
    refine ⟨rfl, fun skip skip_eq => ?_⟩
    rw [still _ _ skip_eq]
    exact Nat.zero_le _
  have gives : GivesUp lineBreak 0 back := givesUp_emptyLine empty
  have kept : LabelScan.start.skip ≤ (inner ++ ['\n']).length + 0 := Nat.zero_le _
  have within := (label_go_lines closed gives gives breaks kept
    (by simp [LabelScan.start])).2 length name (by simpa [label?] using found)
  rw [length_eq, List.length_append, LabelScan.start] at within
  simp only [List.length_append, List.length_singleton] at within
  rcases List.append_eq_append_iff.mp parted with ⟨more, inside_eq, rest_eq⟩ | ⟨more, inner_eq, rest_eq⟩
  · have lengths := congrArg List.length inside_eq
    simp only [List.length_append, List.length_singleton] at lengths
    have none : more = [] := List.eq_nil_of_length_eq_zero (by omega)
    rw [none] at rest_eq
    simp at rest_eq
  · rcases more with _ | ⟨c, more⟩
    · simp at rest_eq
    · have first : ':' = c := by
        rw [List.cons_append] at rest_eq
        exact (List.cons.inj rest_eq).1
      rw [← first] at inner_eq
      exact apart inner_eq

theorem Prose.footnoteMark (prose : Prose rest) (parts : Parts tail) :
    footnoteMark? (rest ++ tail) = none := by
  unfold footnoteMark?
  split
  · next starts =>
    have inLine : "[^".toList.all (!isLineEnd ·) := by decide +kernel
    have two : 2 ≤ rest.length := by
      rw [← isPrefixOf_line inLine, parts.line_append, isPrefixOf_line inLine] at starts
      exact (List.isPrefixOf_iff_prefix.mp starts).length_le
    rw [List.drop_append_of_le_length two]
    rcases found : label? (fun _ => none) (rest.drop 2 ++ tail) with _ | ⟨length, name⟩
    · rfl
    · have colon := prose.label parts (List.drop_suffix 2 rest) (by simp) found
      rw [← List.drop_append_of_le_length two, List.drop_drop] at colon
      dsimp only
      rw [colon]
      rfl
  · rfl

theorem Prose.definition (prose : Prose rest) (parts : Parts tail) (fuel offset : Nat) :
    definition? [] fuel ⟨offset, rest ++ tail⟩ = none := by
  unfold definition?
  dsimp only
  split
  · next starts =>
    have one : 1 ≤ rest.length := List.length_pos_iff.mpr prose.ne_nil
    have still (text : List Char) (skip : Nat)
        (skip_eq : definition?.labelBreak [] text = some skip) : skip = 0 := by
      have entered : Container.enterAll [] ⟨0, text⟩ = (true, .start ⟨0, text⟩) := rfl
      unfold definition?.labelBreak at skip_eq
      rw [entered] at skip_eq
      dsimp only at skip_eq
      split at skip_eq
      · cases skip_eq
      · exact (Option.some.inj skip_eq).symm
    rw [List.drop_append_of_le_length one]
    rcases found : label? (definition?.labelBreak []) (rest.drop 1 ++ tail) with _ | ⟨length, name⟩
    · rfl
    · have colon := prose.label parts (List.drop_suffix 1 rest) still found
      rw [← List.drop_append_of_le_length one, List.drop_drop] at colon
      dsimp only
      rw [colon]
      rfl
  · rfl

/-- What follows a line end in the text. -/
theorem Prose.exists_behind {c : Char} {behind : List Char} (prose : Prose (c :: behind))
    (white : isWhite c) : Prose behind := by
  refine prose.of_suffix (List.suffix_cons c behind) ?_
  rintro rfl
  rcases prose.last with ⟨front, last, text_eq, solid, _⟩
  have same : c = last := by
    have parted := (List.append_inj' ((List.nil_append _).trans text_eq) rfl).2
    simpa using parted
  rw [← same, white] at solid
  cases solid

/-- A line of the text is followed by another one, or it is the last one and ends where the text does. -/
theorem Prose.lineLength_append (prose : Prose rest) (parts : Parts tail) :
    (rest.drop (lineLength rest) ≠ [] ∧ lineLength (rest ++ tail) = lineLength rest) ∨
      (line rest = rest ∧ lineLength (rest ++ tail) = rest.length + min 1 tail.length) := by
  have ended_eq (text : List Char) : lineLength text =
      (line text).length + (lineEnd? (text.drop (line text).length)).getD 0 := by
    rw [lineLength, lengthWhile_eq]
    rfl
  have parted : rest = line rest ++ rest.drop (line rest).length := by
    conv_lhs => rw [← List.take_append_drop (line rest).length rest]
    congr 1
    exact (List.prefix_iff_eq_take.mp (List.takeWhile_prefix _)).symm
  have within := line_length_le rest
  rw [ended_eq, ended_eq, parts.line_append, List.drop_append_of_le_length within, ← List.drop_drop]
  rcases behind_eq : rest.drop (line rest).length with _ | ⟨e, behind⟩
  · right
    rw [behind_eq, List.append_nil] at parted
    refine ⟨parted.symm, ?_⟩
    rw [← parted]
    rcases parts with rfl | ⟨back, rfl, _⟩
    · rfl
    · simp [lineEnd?, isLineEnd]
  · left
    have ends : isLineEnd e := by
      have stops := Text.stopsAt_dropWhile (!isLineEnd ·) rest e
      rw [← drop_lengthWhile, lengthWhile_eq] at stops
      simpa using stops (by rw [← line, behind_eq]; rfl)
    have ended : Prose (e :: behind) :=
      prose.of_suffix (behind_eq ▸ List.drop_suffix _ _) (List.cons_ne_nil _ _)
    have later : Prose behind := ended.exists_behind (by simp [isWhite, ends])
    rcases List.exists_cons_of_ne_nil later.ne_nil with ⟨d, more, rfl⟩
    by_cases pair : e = '\r' ∧ d = '\n'
    · rcases pair with ⟨rfl, rfl⟩
      exact ⟨(later.exists_behind rfl).ne_nil, rfl⟩
    · have single (text : List Char) : lineEnd? (e :: d :: text) = some 1 := by
        have unpaired (more : List Char) (first : e = '\r') (second : d :: text = '\n' :: more) :
            False := pair ⟨first, (List.cons.inj second).1⟩
        rw [lineEnd?.eq_3 e (d :: text) unpaired, if_pos ends]
      rw [List.cons_append, List.cons_append, single, single]
      exact ⟨later.ne_nil, rfl⟩

end Line

/-! ## Margins -/

def Place.append (place : Place) (tail : List Char) : Place :=
  { place with rest := place.rest ++ tail }

def Margin.append (margin : Margin) (tail : List Char) : Margin :=
  { margin with place := margin.place.append tail }

section Margin

variable {tail : List Char} {place : Place} {margin : Margin}

theorem Place.append_advance {count : Nat} (le : count ≤ place.rest.length) :
    (place.append tail).advance count = (place.advance count).append tail := by
  simp only [advance, append, List.drop_append_of_le_length le]

theorem Margin.go_append (wanted offset column owed : Nat) {rest : List Char} (prose : Prose rest) :
    indent.go wanted offset column owed (rest ++ tail) =
      ((indent.go wanted offset column owed rest).1,
        (indent.go wanted offset column owed rest).2.append tail) := by
  fun_induction indent.go wanted offset column owed rest with
  | case1 => exact absurd rfl prose.ne_nil
  | case2 offset column owed c rest => simp [indent.go, Margin.append, Place.append]
  | case3 wanted offset column owed rest left taken after go_eq ih =>
    rw [go_eq] at ih
    rw [List.cons_append, indent.go, if_neg left, if_pos rfl, ih (prose.exists_behind rfl)]
  | case4 wanted offset column owed rest left width used taken after go_eq no_space ih =>
    rw [go_eq] at ih
    rw [List.cons_append, indent.go, if_neg left, if_neg no_space, if_pos rfl]
    simp only [used, width] at ih
    simp only [ih (prose.exists_behind rfl), used, width]
  | case5 wanted offset column owed c rest left no_space no_tab =>
    simp [indent.go, Margin.append, Place.append, left, no_space, no_tab]

theorem Margin.indent_append (prose : Prose margin.rest) (wanted : Nat) :
    (margin.append tail).indent wanted =
      ((margin.indent wanted).1, (margin.indent wanted).2.append tail) := by
  unfold rest at prose
  simp only [indent, append, Place.append, go_append _ _ _ _ prose]

theorem Margin.indentBy_append (prose : Prose margin.rest) (wanted : Nat) :
    (margin.append tail).indentBy wanted =
      ((margin.indentBy wanted).1, (margin.indentBy wanted).2.append tail) := by
  simp only [indentBy, indent_append prose]

/-- Something is left of the text behind blanks. -/
theorem Prose.behind_blanks {rest later blanks : List Char} (prose : Prose rest)
    (blank : ∀ c ∈ blanks, isWhite c) (rest_eq : rest = blanks ++ later) : Prose later := by
  refine prose.of_suffix ⟨blanks, rest_eq.symm⟩ ?_
  rintro rfl
  rcases prose.last with ⟨front, c, text_eq, solid, _⟩
  rw [rest_eq, List.append_nil] at text_eq
  rw [blank c (by simp [text_eq])] at solid
  cases solid

theorem Margin.prose_indent (prose : Prose margin.rest) (wanted : Nat) :
    Prose (margin.indent wanted).2.rest := by
  rcases margin.exists_indentation wanted with ⟨passed, blank, rest_eq, _⟩
  refine prose.behind_blanks (fun c mem => ?_) rest_eq
  rcases blank c mem with rfl | rfl <;> rfl

theorem Margin.prose_skipIndent (prose : Prose margin.rest) : Prose margin.skipIndent.rest := by
  have parted := List.takeWhile_append_dropWhile (p := fun c => c == ' ' || c == '\t')
    (l := margin.rest)
  have behind : margin.skipIndent.rest = margin.rest.dropWhile fun c => c == ' ' || c == '\t' :=
    drop_lengthWhile _ _
  rw [behind]
  refine prose.behind_blanks (fun c mem => ?_) parted.symm
  have either : c = ' ' ∨ c = '\t' := by simpa using Text.holds_of_mem_takeWhile mem
  rcases either with rfl | rfl <;> rfl

theorem Margin.skipIndent_append (parts : Parts tail) :
    (margin.append tail).skipIndent = margin.skipIndent.append tail := by
  have counted : lengthWhile (fun c => c == ' ' || c == '\t') (margin.append tail).rest =
      lengthWhile (fun c => c == ' ' || c == '\t') margin.rest := by
    rw [lengthWhile_eq, lengthWhile_eq]
    congr 1
    exact parts.takeWhile rfl
  unfold skipIndent
  rw [counted]
  simp only [append, Place.append_advance (lengthWhile_le _ margin.place.rest), rest]

theorem Margin.atLineEnd_append (prose : Prose margin.rest) :
    (margin.append tail).atLineEnd = margin.atLineEnd := by
  have left := prose.ne_nil
  rcases rest_eq : margin.rest with _ | ⟨c, rest⟩
  · exact absurd rest_eq left
  · have appended_eq : (margin.append tail).rest = c :: (rest ++ tail) := by
      rw [← List.cons_append, ← rest_eq]
      rfl
    rw [atLineEnd, atLineEnd, rest_eq, appended_eq]
    rfl

end Margin

/-! ## What ends a paragraph -/

section Interrupts

variable {tail : List Char} {place : Place}

/-- The line behind a line of the text, which is in the text as well. -/
theorem Place.nextLine_append
    (length_eq : lineLength (place.rest ++ tail) = lineLength place.rest) :
    (place.append tail).advance (lineLength (place.append tail).rest) =
      (place.advance (lineLength place.rest)).append tail := by
  rw [← append_advance (lineLength_le place.rest), ← length_eq]
  rfl

/-- What is left behind the last line of the text. -/
theorem drop_lineLength_feed {rest back : List Char}
    (length_eq : lineLength (rest ++ '\n' :: back) = rest.length + 1) :
    (rest ++ '\n' :: back).drop (lineLength (rest ++ '\n' :: back)) = back := by
  rw [length_eq, ← List.drop_drop, List.drop_left]
  rfl

/-- A row of the text does not become the header of a table by what follows the text. -/
theorem Prose.tableBody_append (prose : Prose place.rest) (parts : Parts tail) (pipes : List Nat) :
    (tableBody? [] (place.append tail) pipes).isSome = (tableBody? [] place pipes).isSome := by
  have entered (place : Place) : Container.enterAll [] place = (true, .start place) := rfl
  have line_eq : line (place.append tail).rest = line place.rest := parts.line_append
  unfold tableBody?
  rcases pipes.getLast? with _ | lastPipe
  · rfl
  dsimp only
  rw [line_eq, entered, entered]
  dsimp only
  have within := line_length_le place.rest
  rcases prose.lineLength_append parts with ⟨goesOn, length_eq⟩ | ⟨whole, length_eq⟩
  · have later : Prose (place.rest.drop (lineLength place.rest)) :=
      prose.of_suffix (List.drop_suffix _ _) goesOn
    have left : place.rest.drop (line place.rest).length ≠ [] := by
      intro empty
      apply goesOn
      have shorter := List.drop_suffix_drop_left place.rest (le_lineLength place.rest)
      rw [empty] at shorter
      exact List.suffix_nil.mp shorter
    have behind : (place.append tail).rest.drop (line place.rest).length =
        place.rest.drop (line place.rest).length ++ tail := List.drop_append_of_le_length within
    have row_eq : delimiterColumns? (Margin.start
          ((place.append tail).advance (lineLength (place.append tail).rest))).rest =
        delimiterColumns? (Margin.start (place.advance (lineLength place.rest))).rest := by
      rw [Place.nextLine_append length_eq]
      exact eq_of_line delimiterColumns_line parts.line_append
    have filled : (place.rest.drop (line place.rest).length).isEmpty = false :=
      List.isEmpty_eq_false_iff.mpr left
    have longer : (place.rest.drop (line place.rest).length ++ tail).isEmpty = false :=
      List.isEmpty_eq_false_iff.mpr (List.append_ne_nil_of_left_ne_nil left tail)
    rw [behind, row_eq, filled, longer, if_neg Bool.false_ne_true, if_neg Bool.false_ne_true]
    split <;> rfl
  · have ended : place.rest.drop (line place.rest).length = [] := by rw [whole, List.drop_length]
    have last : (place.append tail).rest.drop (line place.rest).length = tail := by
      rw [whole]
      exact List.drop_left
    rw [ended, last]
    rcases parts with rfl | ⟨back, rfl, empty⟩
    · rfl
    have behind : (Margin.start ((place.append ('\n' :: back)).advance
        (lineLength (place.append ('\n' :: back)).rest))).rest = back :=
      drop_lineLength_feed (by simpa using length_eq)
    rw [behind, delimiterColumns_of_blank (isBlankLine_of_isEmptyLine empty)]
    rfl

theorem Prose.interrupts_append (prose : Prose place.rest) (parts : Parts tail) :
    interrupts [] true (place.append tail) = interrupts [] true place := by
  have line_eq : line (place.append tail).rest = line place.rest := parts.line_append
  have fence_eq : fence? (place.append tail).rest = fence? place.rest := parts.fence_append
  have marked : footnoteMark? (place.append tail).rest = none := prose.footnoteMark parts
  have unmarked : footnoteMark? place.rest = none := by
    rw [← List.append_nil place.rest]
    exact prose.footnoteMark (Or.inl rfl)
  rw [interrupts, interrupts, interruptsRow_of_line line_eq fence_eq (by rw [marked, unmarked]),
    head_of_line (by decide) line_eq, line_eq, prose.tableBody_append parts]

end Interrupts

/-! ## Blocks of text -/

section Text

variable {tail : List Char} {place : Place} {fuel indent : Nat}

theorem Margin.isEmptyLine_indent {margin : Margin} (empty : isEmptyLine margin.rest)
    (wanted : Nat) : isEmptyLine (margin.indent wanted).2.rest := by
  rcases margin.exists_indentation wanted with ⟨passed, blank, rest_eq, _⟩
  rw [Margin.rest, rest_eq, isEmptyLine_append blank] at empty
  exact empty

/-- A block of text ends before an empty line. -/
theorem textBlock_last (empty : isEmptyLine (place.advance (lineLength place.rest)).rest) :
    textBlock [] (fuel + 1) indent place =
      ⟨[⟨line place.rest, none⟩], false, place.advance (lineLength place.rest)⟩ := by
  have entered (place : Place) : Container.enterAll [] place = (true, .start place) := rfl
  have started : isEmptyLine (Margin.start (place.advance (lineLength place.rest))).rest := empty
  have indented : isEmptyLine
      ((Margin.start (place.advance (lineLength place.rest))).indentBy 4).2.rest :=
    Margin.isEmptyLine_indent started 4
  unfold textBlock
  dsimp only
  rw [entered]
  dsimp only
  generalize (Margin.start (place.advance (lineLength place.rest))).indentBy 4 = margin at indented ⊢
  have plain : (if !margin.1 && true then underline? margin.2.rest else none) = none := by
    split
    · rcases underlined : underline? margin.2.rest with _ | length
      · rfl
      · have filled := isBlankLine_of_underline underlined
        rw [isBlankLine_of_isEmptyLine indented] at filled
        cases filled
    · rfl
  rw [plain]
  dsimp only
  rw [atLineEnd_skipIndent, indented, Bool.or_true, if_pos rfl]

theorem underline_append {margin : Margin} (parts : Parts tail) (deep : Bool)
    (none_eq : (if !deep && true then underline? margin.rest else none) = none) :
    (if !deep && true then underline? (margin.append tail).rest else none) = none := by
  have told : (underline? (margin.append tail).rest).isSome = (underline? margin.rest).isSome :=
    eq_of_line (f := fun rest => (underline? rest).isSome) isSome_underline_line parts.line_append
  split
  · next shallow =>
    rw [if_pos shallow] at none_eq
    rw [none_eq, Option.isSome_none] at told
    exact Option.not_isSome_iff_eq_none.mp (by rw [told]; exact Bool.false_ne_true)
  · rfl

/-- The last line of a block of text is its last line before an empty line too. -/
theorem textBlock_append_last (parts : Parts tail)
    (last : line place.rest = place.rest)
    (length_eq : lineLength (place.rest ++ tail) = place.rest.length + min 1 tail.length) :
    textBlock [] (fuel + 1) indent (place.append tail) =
      { textBlock [] (fuel + 1) indent place with
        next := ⟨place.offset + (place.rest.length + min 1 tail.length), tail.drop 1⟩ } := by
  have content_eq : line (place.append tail).rest = line place.rest := parts.line_append
  have ended : lineLength place.rest = place.rest.length := by
    have le := le_lineLength place.rest
    rw [last] at le
    exact Nat.le_antisymm (lineLength_le _) le
  have next_eq : (place.append tail).advance (lineLength (place.append tail).rest) =
      ⟨place.offset + (place.rest.length + min 1 tail.length), tail.drop 1⟩ := by
    have length_eq : lineLength (place.append tail).rest =
        place.rest.length + min 1 tail.length := length_eq
    rw [length_eq]
    simp only [Place.advance, Place.append, ← List.drop_drop, List.drop_left, Place.mk.injEq,
      true_and]
    rcases parts with rfl | ⟨back, rfl, _⟩
    · rfl
    · simp
  have empty : isEmptyLine (tail.drop 1) := by
    rcases parts with rfl | ⟨back, rfl, empty⟩
    · rfl
    · exact empty
  have alone : textBlock [] (fuel + 1) indent place =
      ⟨[⟨line place.rest, none⟩], false, place.advance (lineLength place.rest)⟩ := by
    apply textBlock_last
    rw [Place.rest_advance, ended, List.drop_length]
    rfl
  rw [textBlock_last (by rw [next_eq]; exact empty), alone, next_eq, content_eq]

/-- A block of text that is all of the text is the same block before an empty line. -/
theorem Prose.textBlock_append (prose : Prose place.rest) (parts : Parts tail)
    (enough : place.rest.length ≤ fuel)
    (plain : (textBlock [] fuel indent place).underlined = false)
    (whole : (textBlock [] fuel indent place).next.rest = []) :
    textBlock [] fuel indent (place.append tail) =
      { textBlock [] fuel indent place with
        next := ⟨place.offset + (place.rest.length + min 1 tail.length), tail.drop 1⟩ } := by
  induction fuel generalizing indent place with
  | zero => exact absurd (List.eq_nil_of_length_eq_zero (Nat.le_zero.mp enough)) prose.ne_nil
  | succ fuel ih =>
    have content_eq : line (place.append tail).rest = line place.rest := parts.line_append
    rcases prose.lineLength_append parts with ⟨goesOn, length_eq⟩ | ⟨last, length_eq⟩
    · have entered (place : Place) : Container.enterAll [] place = (true, .start place) := rfl
      have started (place : Place) :
          Margin.start (place.append tail) = (Margin.start place).append tail := rfl
      have later : Prose (Margin.start (place.advance (lineLength place.rest))).rest :=
        prose.of_suffix (List.drop_suffix _ _) goesOn
      have shorter := Place.length_advance_lt prose.ne_nil (lineLength_pos prose.ne_nil)
      have before := place.before_advance (lineLength place.rest)
      have indented := (Margin.start (place.advance (lineLength place.rest))).before_indentBy 4
      have inside : Prose
          ((Margin.start (place.advance (lineLength place.rest))).indentBy 4).2.rest :=
        Margin.prose_indent later 4
      unfold textBlock at plain whole ⊢
      dsimp only at plain whole ⊢
      rw [content_eq, Place.nextLine_append length_eq]
      rw [entered] at plain whole ⊢
      rw [entered]
      dsimp only at plain whole ⊢
      rw [started, Margin.indentBy_append later]
      generalize place.advance (lineLength place.rest) = next at *
      generalize (Margin.start next).indentBy 4 = margin at *
      rcases margin with ⟨deep, margin⟩
      dsimp only at *
      rcases underlined : (if !deep && true then underline? margin.rest else none) with _ | length
      · have appended := underline_append parts deep underlined
        have behind : Prose margin.skipIndent.rest := Margin.prose_skipIndent inside
        have stops_eq : interrupts [] true (margin.append tail).place =
            interrupts [] true margin.place := Prose.interrupts_append inside parts
        rw [underlined] at plain whole
        rw [appended, stops_eq, Margin.skipIndent_append parts, Margin.atLineEnd_append behind]
        dsimp only at plain whole ⊢
        split
        · next stops =>
          rw [if_pos stops] at whole
          exact absurd whole later.ne_nil
        · next goes =>
          rw [if_neg goes] at plain whole
          have reached := indented.trans (Margin.before_skipIndent margin)
          have length_eq := (before.trans reached).offset_add_length behind.ne_nil
          have within : margin.skipIndent.place.rest.length ≤ next.rest.length := reached.length_le
          have same := ih behind (by omega) plain whole
          have offset_eq : margin.skipIndent.place.offset + margin.skipIndent.place.rest.length =
            place.offset + place.rest.length := length_eq
          have appended : (margin.skipIndent.append tail).place =
            margin.skipIndent.place.append tail := rfl
          have same_offset (place : Place) : (place.append tail).offset = place.offset := rfl
          rw [appended, same_offset, same_offset, same_offset, same]
          dsimp only
          rw [← Nat.add_assoc, offset_eq, Nat.add_assoc]
      · rw [underlined] at plain
        cases plain
    · exact textBlock_append_last parts last length_eq

/-- Where a text begins, it begins before an empty line as well. -/
theorem Prose.opensText_append (prose : Prose place.rest) (parts : Parts tail) {other : Nat}
    (opens : OpensText [] fuel place) : OpensText [] other (place.append tail) where
  noTerminator := (terminator_of_line parts.line_append).trans opens.noTerminator
  noElement := (opensElement_of_line parts.line_append).trans opens.noElement
  noRule := by
    have told : (thematicBreak? (place.append tail).rest).isSome =
        (thematicBreak? place.rest).isSome :=
      eq_of_line (f := fun rest => (thematicBreak? rest).isSome) isSome_thematicBreak_line
        parts.line_append
    rw [opens.noRule, Option.isSome_none] at told
    exact Option.not_isSome_iff_eq_none.mp (by simpa using told)
  noHeading := (eq_of_line opensHeading_line parts.line_append).trans opens.noHeading
  noFence := parts.fence_append.trans opens.noFence
  noDefinition := prose.definition parts other place.offset
  noTable := by
    have line_eq : line (place.append tail).rest = line place.rest := parts.line_append
    have told := prose.tableBody_append parts (pipes (line place.rest))
    rw [opens.noTable, Option.isSome_none] at told
    rw [line_eq]
    exact Option.not_isSome_iff_eq_none.mp (by simpa using told)

end Text

end Refill.Markdown
