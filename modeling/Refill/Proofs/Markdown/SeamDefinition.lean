import Refill.Proofs.Markdown.Label

/-!
# Definitions before a paragraph

A definition that begins above the blank line of a seam ends there, if it is one: its label and its
title do not go on past that line. So it is the same in both documents (`Seam.Inside.definition`), and
so is what ends a paragraph there (`Seam.Above.interrupts`).
-/

namespace Refill.Markdown

variable {seam : Seam}

/-- What a label passes over behind a line end is the same in both documents, and of one line. -/
def Seam.Breaks (seam : Seam) (lineBreak : List Char → Option Nat) : Prop :=
  ∀ rest, seam.Above rest → lineBreak (seam.turn rest) = lineBreak rest ∧
    ∀ skip, lineBreak rest = some skip → skip ≤ (line rest).length

/-- A label that begins above the blank line ends there, if at all. -/
theorem Seam.Inside.label {lineBreak : List Char → Option Nat} (breaks : seam.Breaks lineBreak)
    {rest : List Char} (inside : seam.Inside rest) :
    label? lineBreak (seam.turn rest) = label? lineBreak rest ∧
      ∀ length name, label? lineBreak rest = some (length, name) →
        length + seam.gap < rest.length := by
  rcases inside.exists_lines with ⟨front, suffix, rest_eq⟩
  have closed := seam.closed.of_suffix suffix
  generalize lines_eq : front ++ ['\n'] = lines at suffix closed
  have parted (text : List Char) : front ++ '\n' :: (seam.blanks ++ '\n' :: (seam.indent ++ text)) =
      lines ++ (seam.blanks ++ '\n' :: (seam.indent ++ text)) := by
    simp [← lines_eq]
  rw [parted] at rest_eq
  have turned (inner : List Char) :
      seam.turn (inner ++ (seam.blanks ++ '\n' :: (seam.indent ++ seam.old))) =
        inner ++ (seam.blanks ++ '\n' :: (seam.indent ++ seam.new)) := by
    have turn_eq := seam.turn_append (inner ++ (seam.blanks ++ '\n' :: seam.indent))
    simpa using turn_eq
  have alike : BreaksAlike lineBreak lines
      (seam.blanks ++ '\n' :: (seam.indent ++ seam.old))
      (seam.blanks ++ '\n' :: (seam.indent ++ seam.new)) seam.blanks.length := by
    intro inner innerSuffix
    have above : seam.Above (inner ++ (seam.blanks ++ '\n' :: (seam.indent ++ seam.old))) := by
      constructor
      · rcases innerSuffix.trans suffix with ⟨before, lines_eq⟩
        exact ⟨before, by rw [← List.append_assoc, lines_eq, Seam.source]⟩
      · have := seam.edge_lt_gap
        rw [List.length_append, seam.length_gap]
        omega
    rcases breaks _ above with ⟨same, within⟩
    rw [turned] at same
    refine ⟨same.symm, fun skip found => (within skip found).trans ?_⟩
    rw [← List.append_assoc, ← List.length_append]
    exact line_feed _ _
  have begun : lines.length ≤ LabelScan.start.skip → LabelScan.start.broken = true := by
    intro short
    rw [← lines_eq] at short
    simp [LabelScan.start] at short
  rcases label_go_lines closed (givesUp_blank seam.blank _) (givesUp_blank seam.blank _) alike
    (Nat.zero_le _) begun with ⟨same, within⟩
  rw [rest_eq, turned]
  refine ⟨same.symm, fun length name found => ?_⟩
  have := within length name found
  simp only [LabelScan.start] at this
  rw [List.length_append, seam.length_gap]
  omega

theorem Seam.breaks_none : seam.Breaks fun _ => none :=
  fun _ _ => ⟨rfl, by simp⟩

/-! ## What ends a paragraph -/

section Rows

variable {rest : List Char}

theorem isBlankLine_of_head {c : Char} (starts : rest.head? = some c) (solid : isWhite c = false) :
    isBlankLine rest = false := by
  rcases rest with _ | ⟨first, rest⟩
  · cases starts
  · obtain rfl : first = c := by simpa using starts
    rw [isWhite, Bool.or_eq_false_iff] at solid
    simp [isBlankLine_eq, solid]

theorem Seam.Above.inside_of_head (above : seam.Above rest) {c : Char}
    (starts : rest.head? = some c) (solid : isWhite c = false) : seam.Inside rest :=
  above.inside_of_filled (isBlankLine_of_head starts solid)

theorem Seam.Inside.turn_drop (inside : seam.Inside rest) {count : Nat}
    (le : count + seam.gap ≤ rest.length) :
    seam.turn (rest.drop count) = (seam.turn rest).drop count := by
  apply seam.turn_drop inside.above.reaches
  have := seam.old_le_edge
  have := seam.edge_lt_gap
  omega

/-- Behind a character that ends no line there is more above the blank line. -/
theorem Seam.Inside.behind (inside : seam.Inside rest) {c : Char}
    (starts : (rest.head? == some c) = true) (inLine : isLineEnd c = false) :
    1 + seam.gap < rest.length := by
  have := one_le_line inLine starts
  have := inside.line_lt
  omega

/-- The label of a footnote is the same in both documents. -/
theorem Seam.Above.footnoteMark (above : seam.Above rest) :
    footnoteMark? (seam.turn rest) = footnoteMark? rest ∧
      ∀ length name, footnoteMark? rest = some (length, name) →
        seam.Inside rest ∧ length + seam.gap < rest.length := by
  have starts_eq : "[^".toList.isPrefixOf (seam.turn rest) = "[^".toList.isPrefixOf rest := by
    have inLine : "[^".toList.all (!isLineEnd ·) := by decide +kernel
    exact (above.level.eq_of_line (isPrefixOf_line inLine)).symm
  unfold footnoteMark?
  rw [starts_eq]
  split
  · next starts =>
    rcases List.isPrefixOf_iff_prefix.mp starts with ⟨more, rest_eq⟩
    have inside : seam.Inside rest := by
      apply above.inside_of_head (c := '[') _ (by decide)
      rw [← rest_eq]
      rfl
    have behind : seam.Inside (rest.drop 2) := by
      apply inside.of_le
      have := inside.line_lt
      have two : 2 ≤ (line rest).length := by
        rw [← rest_eq]
        change 2 ≤ (line ('[' :: '^' :: more)).length
        rw [line_of_inLine (by decide), line_of_inLine (by decide), List.length_cons,
          List.length_cons]
        omega
      omega
    have length_eq : (rest.drop 2).length = rest.length - 2 := List.length_drop
    have longer := behind.longer
    rcases behind.label seam.breaks_none with ⟨same, within⟩
    rw [← inside.turn_drop (by omega), same]
    rcases found : label? (fun _ => none) (rest.drop 2) with _ | ⟨length, name⟩
    · exact ⟨rfl, by simp⟩
    · have := within length name found
      have closed : seam.Inside (rest.drop (2 + length)) := inside.of_le (by omega)
      dsimp only
      rw [← inside.turn_drop (by omega), seam.head?_turn closed.above.reaches]
      split
      · next colon =>
        refine ⟨rfl, fun count other found => ?_⟩
        have further := closed.behind colon (by decide)
        rw [List.length_drop] at further
        simp only [Option.some.injEq, Prod.mk.injEq] at found
        exact ⟨inside, by omega⟩
      · exact ⟨rfl, by simp⟩
  · exact ⟨rfl, by simp⟩

theorem Seam.Above.head?_eq (above : seam.Above rest) : (seam.turn rest).head? = rest.head? :=
  seam.head?_turn above.reaches

/-- Whether a block of HTML opens is the same in both documents. -/
theorem Seam.Above.terminator (above : seam.Above rest) :
    (if (seam.turn rest).head? == some '<' then blockTerminator? ((seam.turn rest).drop 1) else none) =
      if rest.head? == some '<' then blockTerminator? (rest.drop 1) else none :=
  (terminator_of_line above.level.line_eq).symm

theorem Seam.Above.opensElement (above : seam.Above rest) :
    ((seam.turn rest).head? == some '<' &&
        (opensBlockElement ((seam.turn rest).drop 1) || isLoneTag (seam.turn rest))) =
      (rest.head? == some '<' && (opensBlockElement (rest.drop 1) || isLoneTag rest)) :=
  (opensElement_of_line above.level.line_eq).symm

theorem Seam.Above.interruptsRow (above : seam.Above rest) (inTable current : Bool) :
    interruptsRow inTable current (seam.turn rest) = interruptsRow inTable current rest := by
  refine (interruptsRow_of_line above.level.line_eq above.level.fence_eq ?_ inTable current).symm
  rw [above.footnoteMark.1]

theorem cells_of_no_pipe {row : List Char} (no_pipe : '|' ∉ row) : cells row = [row] := by
  induction row with
  | nil => rfl
  | cons c row ih =>
    rw [List.mem_cons, not_or] at no_pipe
    have other : (c == '|') = false := by simpa using Ne.symm no_pipe.1
    rw [cells, other, ih no_pipe.2]
    rfl

theorem isGap_of_mem_line (blank : isBlankLine rest) : ∀ c ∈ line rest, isGap c := by
  induction rest with
  | nil => simp [line]
  | cons c rest ih =>
    rw [isBlankLine_eq] at blank
    by_cases gap : isGap c
    · have inLine : isLineEnd c = false := by
        by_contra ends
        rw [isGap_eq_false_of_isLineEnd c (by simpa using ends)] at gap
        cases gap
      rw [line_of_inLine inLine, List.forall_mem_cons]
      refine ⟨gap, ih ?_⟩
      rw [isBlankLine_eq]
      simpa [gap] using blank
    · have ends : isLineEnd c := by simpa [gap] using blank
      simp [line_of_lineEnd ends]

theorem delimiterColumns_of_blank (blank : isBlankLine rest) : delimiterColumns? rest = none := by
  have within := runLength_le_line (m := ' ') rfl rest
  have gaps : ∀ c ∈ line (rest.drop (runLength ' ' rest)), isGap c := by
    rw [drop_line within]
    exact fun c mem => isGap_of_mem_line blank c (List.mem_of_mem_drop mem)
  have no_pipe : '|' ∉ line (rest.drop (runLength ' ' rest)) :=
    fun mem => absurd (gaps '|' mem) (by decide)
  have unled : ((line (rest.drop (runLength ' ' rest))).head? == some '|') = false := by
    rw [beq_eq_false_iff_ne]
    exact fun starts => no_pipe (List.mem_of_mem_head? starts)
  simp [delimiterColumns?, unled, cells_of_no_pipe no_pipe]

section Table

variable {place : Place}

theorem Seam.Inside.nextLine (inside : seam.Inside place.rest) :
    seam.Upto (place.advance (lineLength place.rest)).rest ∧
      (place.turn seam).advance (lineLength (place.turn seam).rest) =
        (place.advance (lineLength place.rest)).turn seam := by
  have le := inside.lineLength_le
  refine ⟨inside.upto_of_le le, ?_⟩
  rw [Place.rest_turn, ← inside.above.level.lineLength_eq]
  exact inside.advance_turn le

/-- The rows of a table begin in the same way in both documents. -/
theorem Seam.Inside.tableBody (inside : seam.Inside place.rest) (containers : List Container)
    (pipes : List Nat) :
    tableBody? containers (place.turn seam) pipes =
        (tableBody? containers place pipes).map (Place.turn seam) ∧
      ∀ body, tableBody? containers place pipes = some body → seam.Upto body.rest := by
  have level := inside.above.level
  rcases inside.nextLine with ⟨upto, next_eq⟩
  have entered_eq := Container.enterAll_turn containers upto.above.reaches
  have entered : seam.Above (Container.enterAll containers
      (place.advance (lineLength place.rest))).2.rest :=
    (Container.sameLine_enterAll containers _).above upto.above
  unfold tableBody?
  rcases pipes.getLast? with _ | lastPipe
  · exact ⟨rfl, by simp⟩
  rw [Place.rest_turn] at next_eq
  dsimp only
  rw [Place.rest_turn, ← level.line_eq, ← (level.drop (le_refl _)).isEmpty_eq]
  simp only [next_eq, entered_eq, Margin.rest_turn, Margin.place_turn,
    ← entered.level.eq_of_line delimiterColumns_line]
  generalize Container.enterAll containers (place.advance (lineLength place.rest)) = behind at entered
  split
  · exact ⟨rfl, by simp⟩
  split
  · next rows =>
    have filled : isBlankLine behind.2.rest = false := by
      by_contra blank
      rw [Bool.not_eq_false] at blank
      simp [delimiterColumns_of_blank blank] at rows
    have within : seam.Inside behind.2.place.rest := entered.inside_of_filled filled
    rcases within.nextLine with ⟨later, later_eq⟩
    refine ⟨?_, fun body found => ?_⟩
    · rw [Place.rest_turn] at later_eq
      rw [Margin.rest, later_eq]
      rfl
    · cases found
      exact later
  · exact ⟨rfl, by simp⟩

theorem Seam.Above.interrupts (above : seam.Above place.rest) (containers : List Container)
    (current : Bool) :
    interrupts containers current (place.turn seam) = interrupts containers current place := by
  unfold Markdown.interrupts
  rw [Place.rest_turn, above.interruptsRow, above.head?_eq, ← above.level.line_eq]
  congr 1
  cases starts : place.rest.head? == some '|' with
  | false => rfl
  | true =>
    have first : place.rest.head? = some '|' := by simpa using starts
    have inside := above.inside_of_head first (by decide)
    rw [(inside.tableBody containers _).1, Option.isSome_map]

theorem Seam.Above.endsParagraph (above : seam.Above place.rest) (containers : List Container)
    (current : Bool) :
    endsParagraph containers current (place.turn seam) = endsParagraph containers current place := by
  rw [Markdown.endsParagraph, Markdown.endsParagraph, above.interrupts, Place.rest_turn,
    ← above.level.underline_eq]

end Table

end Rows

/-! ## Definitions -/

section Definition

variable {place : Place} (containers : List Container)

/-- A line on which a definition goes on begins in the same way in both documents. -/
theorem Seam.Above.continuation (above : seam.Above place.rest) :
    continuation? containers (place.turn seam) =
        (continuation? containers place).map (Margin.turn seam) ∧
      ∀ margin, continuation? containers place = some margin → seam.Above margin.rest := by
  have entered : seam.Above (Container.enterAll containers place).2.rest :=
    (Container.sameLine_enterAll containers place).above above
  unfold continuation?
  rw [Container.enterAll_turn containers above.reaches]
  generalize Container.enterAll containers place = behind at entered
  have indented : seam.Above (behind.2.indentBy 4).2.place.rest :=
    (behind.2.sameLine_indentBy 4).above entered
  dsimp only
  rw [Margin.indentBy_turn entered.reaches]
  dsimp only
  rw [Margin.place_turn, indented.endsParagraph]
  split
  · exact ⟨rfl, by simp⟩
  · refine ⟨rfl, fun margin found => ?_⟩
    cases found
    exact indented

theorem Place.length_of_sameLine {place later : Place} (same : place.SameLine later)
    (before : place.Before later) (left : later.rest ≠ []) :
    later.offset ≤ place.offset + (line place.rest).length := by
  have length_eq := before.offset_add_length left
  rcases same with ⟨passed, inLine, rest_eq⟩
  have within : passed.length ≤ (line place.rest).length := by
    rw [rest_eq, line, List.takeWhile_append_of_pos (by simpa using inLine), List.length_append]
    exact Nat.le_add_right _ _
  rw [rest_eq, List.length_append] at length_eq
  omega

theorem Seam.breaks_labelBreak : seam.Breaks (definition?.labelBreak containers) := by
  intro rest above
  have begun : seam.Above (Place.mk 0 rest).rest := above
  have same := Container.sameLine_enterAll containers ⟨0, rest⟩
  have before := Container.before_enterAll containers ⟨0, rest⟩
  have entered : seam.Above (Container.enterAll containers ⟨0, rest⟩).2.place.rest :=
    same.above begun
  have entered_eq := Container.enterAll_turn containers begun.reaches
  unfold definition?.labelBreak
  rw [Place.turn] at entered_eq
  rw [entered_eq]
  generalize Container.enterAll containers ⟨0, rest⟩ = behind at same before entered
  have left : behind.2.place.rest ≠ [] := by
    intro empty
    have longer := entered.longer
    rw [empty] at longer
    exact Nat.not_lt_zero _ longer
  dsimp only
  rw [Margin.place_turn, entered.interrupts, Margin.rest_turn, Margin.rest,
    ← entered.level.underline_eq]
  refine ⟨rfl, fun skip found => ?_⟩
  split at found
  · cases found
  · cases found
    have := Place.length_of_sameLine same before left
    simpa using this

theorem lineLength_of_lineEnd {rest : List Char} {length : Nat}
    (ends : lineEnd? rest = some length) : lineLength rest = length := by
  rcases rest with _ | ⟨c, rest⟩
  · cases ends
    rfl
  · have isEnd : isLineEnd c := by
      have told := isSome_lineEnd (c :: rest)
      simpa [ends] using told.symm
    simp [lineLength, lengthWhile_eq, isEnd, ends]

theorem lineLength_of_blankLine {rest : List Char} {length : Nat}
    (blank : blankLine? rest = some length) : lineLength rest = length := by
  rw [blankLine?] at blank
  rcases Option.map_eq_some_iff.mp blank with ⟨count, ends, rfl⟩
  rw [drop_lengthWhile] at ends
  rw [lengthWhile_eq]
  clear blank
  induction rest with
  | nil =>
    cases ends
    rfl
  | cons c rest ih =>
    cases gap : isGap c with
    | false =>
      rw [List.dropWhile_cons_of_neg (by simp [gap])] at ends
      simp [lineLength_of_lineEnd ends, gap]
    | true =>
      have inLine : isLineEnd c = false := by
        by_contra isEnd
        rw [isGap_eq_false_of_isLineEnd c (by simpa using isEnd)] at gap
        cases gap
      rw [List.dropWhile_cons_of_pos gap] at ends
      have later := ih ends
      simp only [lineLength, lengthWhile_eq] at later
      simp [lineLength, lengthWhile_eq, inLine, gap]
      omega

/-- Passing over blanks of a line. -/
theorem Seam.Above.skipGaps (above : seam.Above place.rest) :
    (place.turn seam).advance (lengthWhile isGap (place.turn seam).rest) =
        (place.advance (lengthWhile isGap place.rest)).turn seam ∧
      place.SameLine (place.advance (lengthWhile isGap place.rest)) := by
  have within := lengthWhile_le_line isGap_eq_false_of_isLineEnd place.rest
  refine ⟨?_, .of_le within⟩
  rw [Place.rest_turn, ← above.level.lengthWhile_eq rfl]
  apply above.advance_turn
  have := above.line_lt
  omega

def DefinitionGap.turn (seam : Seam) (gap : DefinitionGap) : DefinitionGap :=
  { gap with behind := gap.behind.turn seam }

/-- The blanks in a definition are the same in both documents. -/
theorem Seam.Inside.definitionGap (inside : seam.Inside place.rest) :
    definitionGap? containers (place.turn seam) =
        (definitionGap? containers place).map (DefinitionGap.turn seam) ∧
      ∀ gap, definitionGap? containers place = some gap → seam.Inside gap.behind.rest := by
  rcases inside.above.skipGaps with ⟨skip_eq, same⟩
  have within := same.inside inside
  unfold definitionGap?
  rw [skip_eq]
  dsimp only
  generalize place.advance (lengthWhile isGap place.rest) = place at within
  rw [Place.rest_turn, ← within.above.level.lineEnd_eq]
  rcases ends : lineEnd? place.rest with _ | length
  · refine ⟨rfl, fun gap found => ?_⟩
    cases found
    exact within
  · have le := within.lineLength_le
    rw [lineLength_of_lineEnd ends] at le
    have upto : seam.Upto (place.advance length).rest := within.upto_of_le le
    dsimp only
    rw [within.advance_turn le]
    rcases upto.above.continuation containers with ⟨continued_eq, continued⟩
    rw [continued_eq]
    rcases found : continuation? containers (place.advance length) with _ | margin
    · exact ⟨rfl, by simp⟩
    · have above : seam.Above margin.place.rest := continued margin found
      rcases above.skipGaps with ⟨behind_eq, sameLine⟩
      have later := sameLine.above above
      dsimp only [Option.map_some]
      rw [Margin.rest, Margin.place_turn, behind_eq]
      rw [Margin.rest, Place.rest_turn, ← later.level.lineEnd_eq]
      split
      · exact ⟨rfl, by simp⟩
      · next goesOn =>
        refine ⟨rfl, fun gap found => ?_⟩
        cases found
        have filled : isBlankLine margin.place.rest = false := by
          rw [Place.rest_advance, Bool.not_eq_true] at goesOn
          simpa [isBlankLine, blankLine?] using goesOn
        exact sameLine.inside (above.inside_of_filled filled)

section Title

variable {close : Char} {fuel : Nat} {rest : List Char}

theorem title_go_escape {escaped : Char} (rest_eq : place.rest = '\\' :: escaped :: rest) :
    definitionTitle?.go containers close (fuel + 1) place =
      definitionTitle?.go containers close fuel (place.advance 2) := by
  rw [definitionTitle?.go, rest_eq]
  rfl

theorem title_go_cons {c : Char} (rest_eq : place.rest = c :: rest)
    (plain : c = '\\' → rest = []) :
    definitionTitle?.go containers close (fuel + 1) place =
      if c == close then some (place.advance 1)
      else if isLineEnd c then
        (continuation? containers (place.advance ((lineEnd? place.rest).getD 1))).bind fun margin =>
          if margin.skipIndent.atLineEnd then none
          else definitionTitle?.go containers close fuel margin.skipIndent.place
      else definitionTitle?.go containers close fuel (place.advance 1) := by
  rw [definitionTitle?.go]
  split
  · next empty => cases empty.symm.trans rest_eq
  · next escape =>
    rw [rest_eq, List.cons.injEq] at escape
    rw [plain escape.1] at escape
    cases escape.2
  · next first _ _ first_eq =>
    rw [rest_eq, List.cons.injEq] at first_eq
    rcases first_eq with ⟨rfl, _⟩
    split
    · rfl
    split
    · cases continuation? containers (place.advance ((lineEnd? place.rest).getD 1)) <;> rfl
    · rfl

end Title

/-- On the blank line there is nothing behind the indentation. -/
theorem Seam.Above.inside_of_skipIndent {margin : Margin} (above : seam.Above margin.rest)
    (filled : margin.skipIndent.atLineEnd = false) : seam.Inside margin.rest := by
  rcases above.inside_or_blank with inside | ⟨inner, blank, rest_eq⟩
  · exact inside
  · have ends : ((inner ++ '\n' :: (seam.indent ++ seam.old)).dropWhile
        fun c => c == ' ' || c == '\t').head?.all isLineEnd :=
      Seam.head?_of_blank blank ⟨rfl, rfl⟩ rfl
    rw [← rest_eq, ← drop_lengthWhile] at ends
    have ended : margin.skipIndent.atLineEnd := ends
    rw [filled] at ended
    cases ended

/-- A backslash above the blank line stands before a character that is not the last one there. -/
theorem Seam.Inside.exists_escaped {rest later : List Char} (inside : seam.Inside rest)
    (rest_eq : rest = '\\' :: later) : ∃ escaped more, rest = '\\' :: escaped :: more ∧
      seam.turn rest = '\\' :: escaped :: seam.turn more ∧ 2 + seam.gap < rest.length := by
  rcases inside.exists_lines with ⟨front, suffix, lines_eq⟩
  rcases front with _ | ⟨slash, _ | ⟨escaped, front⟩⟩
  · rw [rest_eq] at lines_eq
    exact absurd (List.cons.inj lines_eq).1 (by decide)
  · rw [rest_eq] at lines_eq
    obtain rfl : '\\' = slash := (List.cons.inj lines_eq).1
    exact absurd suffix seam.closed.plain
  · obtain rfl : '\\' = slash := by
      rw [rest_eq] at lines_eq
      exact (List.cons.inj lines_eq).1
    have longer : 2 + seam.gap < rest.length := by
      rw [lines_eq, List.length_append, List.length_cons, List.length_cons, List.length_cons,
        seam.length_gap]
      omega
    have shorter : seam.Inside (rest.drop 2) := inside.of_le longer
    rw [lines_eq] at shorter
    have reaches : seam.old <:+
        front ++ '\n' :: (seam.blanks ++ '\n' :: (seam.indent ++ seam.old)) :=
      shorter.above.reaches
    refine ⟨escaped, front ++ '\n' :: (seam.blanks ++ '\n' :: (seam.indent ++ seam.old)), lines_eq,
      ?_, longer⟩
    rw [lines_eq, List.cons_append, List.cons_append,
      seam.turn_cons (reaches.trans (List.suffix_cons escaped _)), seam.turn_cons reaches]

/-- A title ends above the blank line, if it ends. -/
theorem Seam.Inside.title_go (inside : seam.Inside place.rest) {close : Char}
    (inLine : isLineEnd close = false) (fuel : Nat) :
    definitionTitle?.go containers close fuel (place.turn seam) =
        (definitionTitle?.go containers close fuel place).map (Place.turn seam) ∧
      ∀ behind, definitionTitle?.go containers close fuel place = some behind →
        seam.Inside behind.rest := by
  induction fuel generalizing place with
  | zero => exact ⟨rfl, by simp [definitionTitle?.go]⟩
  | succ fuel ih =>
    have longer := inside.longer
    rcases chars : place.rest with _ | ⟨c, rest⟩
    · rw [chars] at longer
      exact absurd longer (Nat.not_lt_zero _)
    by_cases escape : c = '\\'
    · subst escape
      rcases inside.exists_escaped chars with ⟨escaped, more, rest_eq, turn_eq, le⟩
      rw [title_go_escape containers rest_eq, title_go_escape containers turn_eq,
        inside.advance_turn le.le]
      exact ih (inside.of_le le)
    have next : isLineEnd c = false → 1 + seam.gap < place.rest.length := by
      intro inner
      apply inside.behind (c := c) _ inner
      simp [chars]
    have reaches := inside.above.reaches
    rw [chars] at reaches
    rcases seam.exists_turn_cons reaches with ⟨turned, turn_eq⟩
    have turn_chars : (place.turn seam).rest = c :: turned := by
      rw [Place.rest_turn, chars, turn_eq]
    have plain {rest : List Char} : c = '\\' → rest = [] := fun slash => absurd slash escape
    rw [title_go_cons containers chars plain, title_go_cons containers turn_chars plain]
    split
    · next closes =>
      have ends : isLineEnd c = false := by rwa [beq_iff_eq.mp closes]
      refine ⟨?_, fun behind found => ?_⟩
      · rw [inside.advance_turn (next ends).le]
        rfl
      · cases found
        exact inside.of_le (next ends)
    split
    · next ends =>
      rcases Option.isSome_iff_exists.mp (show (lineEnd? place.rest).isSome by
        rw [isSome_lineEnd, chars]
        exact ends) with ⟨length, length_eq⟩
      have le := inside.lineLength_le
      rw [lineLength_of_lineEnd length_eq] at le
      have upto : seam.Upto (place.advance length).rest := inside.upto_of_le le
      rcases upto.above.continuation containers with ⟨continued_eq, continued⟩
      rw [Place.rest_turn, ← inside.above.level.lineEnd_eq, length_eq, Option.getD_some,
        inside.advance_turn le, continued_eq]
      rcases found : continuation? containers (place.advance length) with _ | margin
      · exact ⟨rfl, by simp⟩
      · have above := continued margin found
        have skipped := Margin.reaches_skipIndent above.reaches
        rw [Option.map_some, Option.bind_some, Option.bind_some,
          Margin.skipIndent_turn above.reaches, Margin.atLineEnd_turn skipped]
        split
        · exact ⟨rfl, by simp⟩
        · next filled =>
          rw [Bool.not_eq_true] at filled
          have within : seam.Inside margin.place.rest := above.inside_of_skipIndent filled
          exact ih (margin.sameLine_skipIndent.inside within)
    · next inner =>
      rw [Bool.not_eq_true] at inner
      rw [inside.advance_turn (next inner).le]
      exact ih (inside.of_le (next inner))

theorem Seam.Inside.title (inside : seam.Inside place.rest) (fuel : Nat) :
    definitionTitle? containers fuel (place.turn seam) =
        (definitionTitle? containers fuel place).map (Place.turn seam) ∧
      ∀ behind, definitionTitle? containers fuel place = some behind →
        seam.Inside behind.rest := by
  unfold definitionTitle?
  rw [Place.rest_turn, inside.above.head?_eq]
  rcases opens : place.rest.head?.bind titleClose? with _ | close
  · exact ⟨rfl, by simp⟩
  · rcases Option.bind_eq_some_iff.mp opens with ⟨mark, starts, closes⟩
    have ends : isLineEnd mark = false ∧ isLineEnd close = false := by
      unfold titleClose? at closes
      split at closes <;> cases closes <;> decide
    have le : 1 + seam.gap < place.rest.length :=
      inside.behind (beq_iff_eq.mpr starts) ends.1
    dsimp only
    rw [inside.advance_turn le.le]
    exact Seam.Inside.title_go containers (inside.of_le le) ends.2 fuel

/-- The place behind a definition with the destination that ends at the place, with its title if it
has one. -/
def definitionEnd? (containers : List Container) (fuel : Nat) (bare : Place) : Option Place :=
  match definitionGap? containers bare with
  | none => some bare
  | some gap =>
      if gap.behind.offset == bare.offset then none
      else
        match definitionTitle? containers fuel gap.behind with
        | some titled =>
            if isBlankLine titled.rest then some titled
            else if gap.broken then some bare
            else none
        | none => if gap.broken then some bare else none

theorem definitionBody_eq (fuel : Nat) (place : Place) :
    definitionBody? containers fuel place =
      (definitionGap? containers place).bind fun gap =>
        (destination? 5 gap.behind.rest).bind fun length =>
          if length = 0 then none
          else definitionEnd? containers fuel (gap.behind.advance length) := by
  unfold definitionBody?
  rcases definitionGap? containers place with _ | gap
  · rfl
  · rw [Option.bind_some]
    dsimp only
    rcases destination? 5 gap.behind.rest with _ | _ | length <;> rfl

theorem Seam.Inside.definitionEnd (inside : seam.Inside place.rest) (fuel : Nat) :
    definitionEnd? containers fuel (place.turn seam) =
        (definitionEnd? containers fuel place).map (Place.turn seam) ∧
      ∀ behind, definitionEnd? containers fuel place = some behind →
        seam.Inside behind.rest := by
  unfold definitionEnd?
  rcases inside.definitionGap containers with ⟨gap_eq, within⟩
  rw [gap_eq]
  rcases opened : definitionGap? containers place with _ | gap
  · refine ⟨rfl, fun behind found => ?_⟩
    cases found
    exact inside
  have start := within gap opened
  rcases start.title containers fuel with ⟨title_eq, titled⟩
  dsimp only [Option.map_some]
  rw [DefinitionGap.turn, Place.offset_turn, Place.offset_turn, title_eq]
  split
  · exact ⟨rfl, by simp⟩
  have plain : (if gap.broken = true then some (place.turn seam) else none) =
      (if gap.broken = true then some place else none).map (Place.turn seam) := by
    split <;> rfl
  have plainInside : ∀ behind, (if gap.broken = true then some place else none) = some behind →
      seam.Inside behind.rest := by
    intro behind found
    split at found
    · cases found
      exact inside
    · cases found
  rcases found : definitionTitle? containers fuel gap.behind with _ | behind
  · exact ⟨plain, plainInside⟩
  · have later := titled behind found
    dsimp only [Option.map_some]
    rw [Place.rest_turn, ← later.above.level.isBlankLine_eq]
    split
    · refine ⟨rfl, fun other other_eq => ?_⟩
      cases other_eq
      exact later
    · exact ⟨plain, plainInside⟩

/-- What follows the colon of a definition is the same in both documents. -/
theorem Seam.Inside.definitionBody (inside : seam.Inside place.rest) (fuel : Nat) :
    definitionBody? containers fuel (place.turn seam) =
        (definitionBody? containers fuel place).map (Place.turn seam) ∧
      ∀ behind, definitionBody? containers fuel place = some behind →
        seam.Inside behind.rest := by
  rcases inside.definitionGap containers with ⟨gap_eq, within⟩
  rw [definitionBody_eq, definitionBody_eq, gap_eq]
  rcases opened : definitionGap? containers place with _ | gap
  · exact ⟨rfl, by simp⟩
  have start := within gap opened
  rw [Option.map_some, Option.bind_some, Option.bind_some, DefinitionGap.turn, Place.rest_turn,
    ← start.above.level.eq_of_line (destination_line 5)]
  rcases found : destination? 5 gap.behind.rest with _ | length
  · exact ⟨rfl, by simp⟩
  rw [Option.bind_some, Option.bind_some]
  split
  · exact ⟨rfl, by simp⟩
  have le : length + seam.gap < gap.behind.rest.length := by
    have := destination_le found
    have := start.line_lt
    omega
  rw [start.advance_turn le.le]
  exact Seam.Inside.definitionEnd containers (start.of_le le) fuel

/-- A definition above the blank line is the same in both documents. -/
theorem Seam.Inside.definition (inside : seam.Inside place.rest) (fuel : Nat) :
    definition? containers fuel (place.turn seam) =
        (definition? containers fuel place).map (fun found => (found.1, found.2.turn seam)) ∧
      ∀ name next, definition? containers fuel place = some (name, next) →
        seam.Upto next.rest := by
  unfold definition?
  rw [Place.rest_turn, inside.above.head?_eq]
  split
  · next starts =>
    have one := inside.behind starts (by decide)
    have begun : seam.Inside (place.rest.drop 1) := inside.of_le one
    rcases begun.label (Seam.breaks_labelBreak containers) with ⟨label_eq, within⟩
    rw [← inside.turn_drop one.le, label_eq]
    rcases labelled : label? (definition?.labelBreak containers) (place.rest.drop 1) with
      _ | ⟨length, name⟩
    · exact ⟨rfl, by simp⟩
    have le : 1 + length + seam.gap < place.rest.length := by
      have := within length name labelled
      rw [List.length_drop] at this
      omega
    have closed : seam.Inside (place.rest.drop (1 + length)) := inside.of_le le
    dsimp only
    rw [← inside.turn_drop le.le, seam.head?_turn closed.above.reaches]
    split
    · next colon =>
      have further : 1 + length + 1 + seam.gap < place.rest.length := by
        have := closed.behind colon (by decide)
        rw [List.length_drop] at this
        omega
      have body : seam.Inside (place.advance (1 + length + 1)).rest := inside.of_le further
      rcases Seam.Inside.definitionBody containers body fuel with ⟨body_eq, ended⟩
      rw [inside.advance_turn further.le, body_eq]
      rcases found : definitionBody? containers fuel (place.advance (1 + length + 1)) with _ | behind
      · exact ⟨rfl, by simp⟩
      have later := ended behind found
      rw [Option.map_some]
      dsimp only
      rw [Place.rest_turn, ← later.above.level.blankLine_eq]
      have behind_le : (blankLine? behind.rest).getD 0 + seam.gap ≤ behind.rest.length := by
        rcases blank : blankLine? behind.rest with _ | count
        · have := later.longer
          rw [Option.getD_none]
          omega
        · have := later.lineLength_le
          rw [lineLength_of_blankLine blank] at this
          rwa [Option.getD_some]
      refine ⟨?_, fun other next found => ?_⟩
      · rw [later.advance_turn behind_le]
        rfl
      · cases found
        exact later.upto_of_le behind_le
    · exact ⟨rfl, by simp⟩
  · exact ⟨rfl, by simp⟩

end Definition

end Refill.Markdown
