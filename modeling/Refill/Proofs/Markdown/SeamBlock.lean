import Refill.Proofs.Markdown.SeamDefinition

/-!
# Blocks before a paragraph

A block that ends before the paragraph of a seam is read in the same way in both documents. Text and
tables end at the blank line (`Seam.Inside.textBlock`, `Seam.Upto.tableRows`). Code and HTML may go on
behind it (`Seam.Ahead.fencedCode`); if they went on in the line of the paragraph, they would not end
before its text (`length_fencedCode_lt`).
-/

namespace Refill.Markdown

variable {seam : Seam} {place : Place} (containers : List Container)

/-! ## Blocks that end at the blank line -/

def TextBlock.turn (seam : Seam) (text : TextBlock) : TextBlock :=
  { text with next := text.next.turn seam }

theorem isBlankLine_of_underline {rest : List Char} {length : Nat}
    (underlined : underline? rest = some length) : isBlankLine rest = false := by
  rcases rest with _ | ⟨mark, rest⟩
  · cases underlined
  simp only [underline?] at underlined
  split at underlined
  · next marks =>
    apply isBlankLine_of_head (c := mark) rfl
    have either : mark = '=' ∨ mark = '-' := by simpa using marks
    rcases either with rfl | rfl <;> rfl
  · cases underlined

theorem Seam.Inside.underline (inside : seam.Inside place.rest) {length : Nat}
    (underlined : underline? place.rest = some length) :
    length + seam.gap ≤ place.rest.length := by
  rcases chars : place.rest with _ | ⟨mark, rest⟩
  · rw [chars] at underlined
    cases underlined
  rw [chars] at underlined inside
  simp only [underline?] at underlined
  split at underlined
  · next marks =>
    have inLine : isLineEnd mark = false := by
      have either : mark = '=' ∨ mark = '-' := by simpa using marks
      rcases either with rfl | rfl <;> rfl
    rcases Option.map_eq_some_iff.mp underlined with ⟨count, blank, rfl⟩
    have run_le := runLength_le_line inLine (mark :: rest)
    have short := inside.line_lt
    have behind : seam.Inside ((mark :: rest).drop (runLength mark (mark :: rest))) :=
      inside.of_le (by omega)
    have := behind.lineLength_le
    rw [lineLength_of_blankLine blank, List.length_drop] at this
    omega
  · cases underlined

/-- The lines of text above the blank line are the same in both documents. -/
theorem Seam.Inside.textBlock (inside : seam.Inside place.rest) (fuel indent : Nat) :
    textBlock containers fuel indent (place.turn seam) =
        (textBlock containers fuel indent place).turn seam ∧
      seam.Upto (textBlock containers fuel indent place).next.rest := by
  induction fuel generalizing indent place with
  | zero => exact ⟨rfl, inside.upto⟩
  | succ fuel ih =>
    rcases inside.nextLine with ⟨upto, next_eq⟩
    have entered_eq := Container.enterAll_turn containers upto.above.reaches
    have entered : seam.Above (Container.enterAll containers
        (place.advance (lineLength place.rest))).2.rest :=
      (Container.sameLine_enterAll containers _).above upto.above
    unfold Markdown.textBlock
    rw [next_eq]
    dsimp only
    rw [entered_eq, Place.rest_turn, ← inside.above.level.line_eq]
    generalize place.advance (lineLength place.rest) = next at upto entered
    generalize Container.enterAll containers next = behind at entered
    have indented : seam.Above (behind.2.indentBy 4).2.place.rest :=
      (behind.2.sameLine_indentBy 4).above entered
    dsimp only
    rw [Margin.indentBy_turn entered.reaches]
    generalize behind.2.indentBy 4 = margin at indented
    dsimp only
    rw [Margin.rest_turn, Margin.rest, ← indented.level.underline_eq]
    rcases underlined : (if (!margin.1 && behind.1) = true then underline? margin.2.place.rest
      else none) with _ | length
    · dsimp only
      rw [Margin.skipIndent_turn indented.reaches,
        Margin.atLineEnd_turn (Margin.reaches_skipIndent indented.reaches), Margin.place_turn,
        indented.interrupts]
      split
      · exact ⟨rfl, upto⟩
      · next goesOn =>
        have filled : margin.2.skipIndent.atLineEnd = false := by
          rw [Bool.or_eq_true, not_or] at goesOn
          simpa using goesOn.2
        have within : seam.Inside margin.2.place.rest := indented.inside_of_skipIndent filled
        rcases ih (margin.2.sameLine_skipIndent.inside within)
          (margin.2.skipIndent.place.offset - next.offset) with ⟨later_eq, later⟩
        rw [Margin.place_turn, Place.offset_turn, Place.offset_turn, Place.offset_turn, later_eq]
        exact ⟨rfl, later⟩
    · have found : underline? margin.2.place.rest = some length := by
        split at underlined
        · exact underlined
        · cases underlined
      have within := indented.inside_of_filled (isBlankLine_of_underline found)
      have le := within.underline found
      refine ⟨?_, within.upto_of_le le⟩
      dsimp only
      rw [Margin.place_turn, within.advance_turn le]
      rfl

/-- The rows of a table end at the blank line. -/
theorem Seam.Upto.tableRows (upto : seam.Upto place.rest) (fuel : Nat) :
    tableRows containers fuel (place.turn seam) = (tableRows containers fuel place).turn seam ∧
      seam.Upto (tableRows containers fuel place).rest := by
  induction fuel generalizing place with
  | zero => exact ⟨rfl, upto⟩
  | succ fuel ih =>
    have entered : seam.Above (Container.enterAll containers place).2.place.rest :=
      (Container.sameLine_enterAll containers place).above upto.above
    unfold Markdown.tableRows
    rw [Container.enterAll_turn containers upto.above.reaches]
    generalize Container.enterAll containers place = behind at entered
    have skipped : seam.Above behind.2.skipIndent.place.rest :=
      behind.2.sameLine_skipIndent.above entered
    dsimp only
    rw [Margin.skipIndent_turn entered.reaches, Margin.rest_turn, Margin.rest,
      skipped.interruptsRow]
    split
    · next goesOn =>
      have filled : behind.2.skipIndent.atLineEnd = false := by
        rw [Bool.and_eq_true, Bool.not_eq_true'] at goesOn
        simp only [interruptsRow, Bool.or_eq_false_iff] at goesOn
        rw [Margin.atLineEnd, Margin.rest, ← isSome_lineEnd]
        exact goesOn.2.1.1.1.1.1.1.1
      have within : seam.Inside behind.2.place.rest := entered.inside_of_skipIndent filled
      rcases (behind.2.sameLine_skipIndent.inside within).nextLine with ⟨later, next_eq⟩
      rw [Margin.place_turn]
      rw [Place.rest_turn] at next_eq
      rw [next_eq]
      exact ih later
    · exact ⟨rfl, upto⟩

/-- HTML that ends before a blank line is the same in both documents. -/
theorem Seam.Inside.openHtml (inside : seam.Inside place.rest) (fuel : Nat) :
    openHtml containers fuel (place.turn seam) = (openHtml containers fuel place).turn seam ∧
      seam.Upto (openHtml containers fuel place).rest := by
  induction fuel generalizing place with
  | zero => exact ⟨rfl, inside.upto⟩
  | succ fuel ih =>
    have le := inside.feedLength_le
    have upto : seam.Upto (place.advance (feedLength place.rest)).rest := inside.upto_of_le le
    have entered : seam.Above
        (Container.enterAll containers (place.advance (feedLength place.rest))).2.place.rest :=
      (Container.sameLine_enterAll containers _).above upto.above
    unfold Markdown.openHtml
    rw [Place.rest_turn, inside.above.feedLength_turn, inside.advance_turn le]
    dsimp only
    rw [Container.enterAll_turn containers upto.above.reaches]
    generalize place.advance (feedLength place.rest) = next at upto entered
    generalize Container.enterAll containers next = behind at entered
    dsimp only
    rw [Margin.rest_turn, Margin.rest, ← entered.level.isBlankLine_eq]
    split
    · next goesOn =>
      rw [Bool.and_eq_true, Bool.not_eq_true'] at goesOn
      exact ih (entered.inside_of_filled goesOn.2)
    · exact ⟨rfl, upto⟩

/-! ## Blocks that may go on behind the blank line -/

/-- Nothing but spaces is left before the text, which begins with no blank. -/
structure Spaced (text rest : List Char) : Prop where
  exists_spaces : ∃ spaces, (∀ c ∈ spaces, c = ' ') ∧ rest = spaces ++ text
  solid : ∃ c back, text = c :: back ∧ isWhite c = false

namespace Spaced

variable {text rest later : List Char}

theorem positive (spaced : Spaced text rest) : 0 < text.length := by
  rcases spaced.solid with ⟨c, back, rfl, _⟩
  exact Nat.succ_pos _

theorem reaches (spaced : Spaced text rest) : text <:+ rest := by
  rcases spaced.exists_spaces with ⟨spaces, _, rfl⟩
  exact List.suffix_append spaces text

theorem of_suffix (spaced : Spaced text rest) (suffix : later <:+ rest)
    (le : text.length ≤ later.length) : Spaced text later := by
  refine ⟨?_, spaced.solid⟩
  rcases List.suffix_of_suffix_length_le spaced.reaches suffix le with ⟨spaces, rfl⟩
  rcases spaced.exists_spaces with ⟨all, blank, whole⟩
  rcases suffix with ⟨before, parted⟩
  rw [whole, ← List.append_assoc, List.append_cancel_right_eq] at parted
  refine ⟨spaces, fun c mem => ?_, rfl⟩
  apply blank c
  rw [← parted]
  exact List.mem_append_right before mem

/-- Where no space comes next, the text does. -/
theorem eq_of_head (spaced : Spaced text rest) {c : Char} (starts : rest.head? = some c)
    (other : c ≠ ' ') : rest = text := by
  rcases spaced.exists_spaces with ⟨_ | ⟨d, spaces⟩, blank, rfl⟩
  · rfl
  · obtain rfl : d = c := by simpa using starts
    exact absurd (blank d List.mem_cons_self) other

/-- A line that is passed over as a whole takes the text along. -/
theorem feed (spaced : Spaced text rest) :
    (rest.drop (feedLength rest)).length < text.length := by
  rcases spaced with ⟨⟨spaces, blank, rfl⟩, c, back, text_eq, solid⟩
  have first : (c != '\n') = true := by
    rw [bne_iff_ne]
    rintro rfl
    exact absurd solid (by decide)
  have passed : ∀ c ∈ spaces, (c != '\n') = true := by
    intro c mem
    rw [blank c mem]
    rfl
  have longer : spaces.length + 1 ≤ lengthWhile (· != '\n') (spaces ++ text) := by
    rw [lengthWhile_eq, List.takeWhile_append_of_pos passed, List.length_append, text_eq,
      List.takeWhile_cons_of_pos (p := (· != '\n')) first, List.length_cons]
    omega
  have further : lengthWhile (· != '\n') (spaces ++ text) ≤ feedLength (spaces ++ text) := by
    unfold feedLength
    dsimp only
    split <;> omega
  have some_text : 0 < text.length := by
    rw [text_eq, List.length_cons]
    omega
  rw [List.length_drop, List.length_append]
  omega

/-- What ends a line stands behind the beginning of the text. -/
theorem lineEnd (spaced : Spaced text rest) {count : Nat}
    (ends : (lineEnd? (rest.drop count)).isSome) : (rest.drop count).length < text.length := by
  by_contra short
  have later := spaced.of_suffix (List.drop_suffix count rest) (Nat.le_of_not_lt short)
  rcases later with ⟨⟨spaces, blank, rest_eq⟩, c, back, text_eq, solid⟩
  rw [isWhite, Bool.or_eq_false_iff] at solid
  rw [isSome_lineEnd, rest_eq, text_eq] at ends
  rcases spaces with _ | ⟨d, spaces⟩
  · rw [List.nil_append, List.head?_cons, Option.all_some, solid.2] at ends
    cases ends
  · rw [List.cons_append, List.head?_cons, Option.all_some, blank d List.mem_cons_self] at ends
    cases ends

end Spaced

section Edge

variable {rest : List Char}

theorem Seam.atEdge (seam : Seam) : Spaced seam.old (seam.indent ++ seam.old) := by
  rcases seam.starts with ⟨c, back, _, old_eq, _, solid, _⟩
  exact ⟨⟨seam.indent, seam.spaces, rfl⟩, c, back, old_eq, solid⟩

theorem Spaced.enterAll (spaced : Spaced seam.old place.rest) :
    Spaced seam.old (Container.enterAll containers place).2.place.rest :=
  spaced.of_suffix (Container.sameLine_enterAll containers place).suffix
    (Container.reaches_enterAll containers spaced.reaches).length_le

theorem Spaced.indent {margin : Margin} (spaced : Spaced seam.old margin.rest) (wanted : Nat) :
    Spaced seam.old (margin.indent wanted).2.place.rest :=
  spaced.of_suffix (margin.sameLine_indent wanted).suffix
    (Margin.reaches_indent spaced.reaches wanted).length_le

end Edge

theorem Seam.Above.nextFeed (above : seam.Above place.rest) :
    seam.Ahead (place.advance (feedLength place.rest)).rest ∧
      (place.turn seam).advance (feedLength (place.turn seam).rest) =
        (place.advance (feedLength place.rest)).turn seam := by
  have le := above.feedLength_le
  refine ⟨above.ahead_of_le le, ?_⟩
  rw [Place.rest_turn, above.feedLength_turn]
  exact above.advance_turn le

theorem Seam.Ahead.nonempty {rest : List Char} (reaches : seam.old <:+ rest) : rest ≠ [] := by
  rcases seam.starts with ⟨c, back, _, old_eq, _⟩
  rintro rfl
  rw [old_eq, List.suffix_nil] at reaches
  cases reaches

theorem feedLength_pos {rest : List Char} (left : rest ≠ []) : 0 < feedLength rest := by
  rcases rest with _ | ⟨c, rest⟩
  · exact absurd rfl left
  · unfold feedLength
    dsimp only
    rw [drop_lengthWhile, lengthWhile_eq]
    split
    · next ended =>
      by_contra none
      have empty : ((c :: rest).takeWhile (· != '\n')).length = 0 := by omega
      have whole := List.takeWhile_append_dropWhile (p := (· != '\n')) (l := c :: rest)
      rw [List.isEmpty_iff.mp ended, List.eq_nil_of_length_eq_zero empty] at whole
      cases whole
    · omega

theorem before_indentedCode_succ (fuel : Nat) (place : Place) :
    (place.advance (feedLength place.rest)).Before (indentedCode containers (fuel + 1) place) := by
  unfold indentedCode
  dsimp only
  split
  · exact ((Container.before_enterAll containers _).trans (Margin.before_indentBy _ 4)).trans
      (before_indentedCode containers fuel _)
  · exact .refl _

/-- Indented code that ends before the paragraph is the same in both documents. -/
theorem Seam.Above.indentedCode (above : seam.Above place.rest) {fuel : Nat}
    (enough : place.rest.length ≤ fuel)
    (stops : seam.old.length ≤ (indentedCode containers fuel place).rest.length) :
    indentedCode containers fuel (place.turn seam) =
        (indentedCode containers fuel place).turn seam ∧
      seam.Ahead (indentedCode containers fuel place).rest := by
  induction fuel generalizing place with
  | zero => exact ⟨rfl, above.ahead⟩
  | succ fuel ih =>
    rcases above.nextFeed with ⟨ahead, next_eq⟩
    have shorter : (place.advance (feedLength place.rest)).rest.length ≤ fuel := by
      have := feedLength_pos (Seam.Ahead.nonempty above.reaches)
      rw [Place.rest_advance, List.length_drop]
      omega
    have reached := Container.reaches_enterAll containers ahead.reaches
    have onLine := Container.sameLine_enterAll containers (place.advance (feedLength place.rest))
    have edge (at_edge : (place.advance (feedLength place.rest)).rest = seam.indent ++ seam.old) :
        Spaced seam.old
          (Container.enterAll containers (place.advance (feedLength place.rest))).2.place.rest := by
      apply Spaced.enterAll
      rw [at_edge]
      exact seam.atEdge
    have suffix := ((Container.before_enterAll containers
      (place.advance (feedLength place.rest))).trans (Margin.before_indentBy _ 4)).rest_suffix
    unfold Markdown.indentedCode at stops ⊢
    rw [next_eq]
    dsimp only at stops ⊢
    rw [Container.enterAll_turn containers ahead.reaches]
    generalize place.advance (feedLength place.rest) = next at *
    generalize Container.enterAll containers next = behind at *
    have indentedReaches := Margin.reaches_indentBy reached 4
    have indentedLine := onLine.trans (behind.2.sameLine_indentBy 4)
    have indentedEdge (at_edge : next.rest = seam.indent ++ seam.old) :
        Spaced seam.old (behind.2.indentBy 4).2.place.rest := (edge at_edge).indent 4
    dsimp only
    rw [Margin.indentBy_turn reached]
    generalize behind.2.indentBy 4 = margin at *
    dsimp only at stops ⊢
    have nonempty := Seam.Ahead.nonempty indentedReaches
    rw [Margin.atLineEnd_turn indentedReaches, Margin.rest_turn, seam.isEmpty_turn indentedReaches]
    split
    · next goesOn =>
      rw [if_pos goesOn] at stops
      have enoughLater : margin.2.place.rest.length ≤ fuel := suffix.length_le.trans shorter
      rcases ahead.above_or_edge with aboveNext | at_edge
      · exact ih (indentedLine.above aboveNext) enoughLater stops
      · rcases fuel with _ | fuel
        · exact absurd (List.eq_nil_of_length_eq_zero (Nat.le_zero.mp enoughLater)) nonempty
        · have past := (before_indentedCode_succ containers fuel margin.2.place).rest_suffix.length_le
          have := (indentedEdge at_edge).feed
          rw [Place.rest_advance] at past
          omega
    · exact ⟨rfl, ahead⟩

theorem before_terminatedHtml_succ (terminator : List Char) (fuel : Nat) (place : Place) :
    (place.advance (feedLength place.rest)).Before
      (terminatedHtml containers terminator (fuel + 1) place) := by
  unfold terminatedHtml
  dsimp only
  split
  · exact (Container.before_enterAll containers _).trans (before_terminatedHtml containers _ fuel _)
  · exact .refl _

/-- HTML with a terminator that ends before the paragraph is the same in both documents. -/
theorem Seam.Above.terminatedHtml (above : seam.Above place.rest) (terminator : List Char)
    {fuel : Nat} (enough : place.rest.length ≤ fuel)
    (stops : seam.old.length ≤ (terminatedHtml containers terminator fuel place).rest.length) :
    terminatedHtml containers terminator fuel (place.turn seam) =
        (terminatedHtml containers terminator fuel place).turn seam ∧
      seam.Ahead (terminatedHtml containers terminator fuel place).rest := by
  induction fuel generalizing place with
  | zero => exact ⟨rfl, above.ahead⟩
  | succ fuel ih =>
    rcases above.nextFeed with ⟨ahead, next_eq⟩
    have shorter : (place.advance (feedLength place.rest)).rest.length ≤ fuel := by
      have := feedLength_pos (Seam.Ahead.nonempty above.reaches)
      rw [Place.rest_advance, List.length_drop]
      omega
    have taken : (seam.turn place.rest).take (feedLength place.rest) =
        place.rest.take (feedLength place.rest) := by
      apply seam.take_turn above.reaches
      have := above.feedLength_le
      have := seam.old_le_edge
      omega
    have reached := Container.reaches_enterAll containers ahead.reaches
    have onLine := Container.sameLine_enterAll containers (place.advance (feedLength place.rest))
    have edge (at_edge : (place.advance (feedLength place.rest)).rest = seam.indent ++ seam.old) :
        Spaced seam.old
          (Container.enterAll containers (place.advance (feedLength place.rest))).2.place.rest := by
      apply Spaced.enterAll
      rw [at_edge]
      exact seam.atEdge
    have suffix := (Container.before_enterAll containers
      (place.advance (feedLength place.rest))).rest_suffix
    unfold Markdown.terminatedHtml at stops ⊢
    dsimp only at stops ⊢
    rw [next_eq, Container.enterAll_turn containers ahead.reaches, Place.rest_turn,
      above.feedLength_turn, taken]
    generalize place.advance (feedLength place.rest) = next at *
    generalize Container.enterAll containers next = behind at *
    dsimp only at stops ⊢
    rw [Margin.rest_turn, seam.isEmpty_turn reached]
    split
    · next goesOn =>
      rw [if_pos goesOn] at stops
      have enoughLater : behind.2.place.rest.length ≤ fuel := suffix.length_le.trans shorter
      rcases ahead.above_or_edge with aboveNext | at_edge
      · exact ih (onLine.above aboveNext) enoughLater stops
      · rcases fuel with _ | fuel
        · exact absurd (List.eq_nil_of_length_eq_zero (Nat.le_zero.mp enoughLater))
            (Seam.Ahead.nonempty reached)
        · have past :=
            (before_terminatedHtml_succ containers terminator fuel behind.2.place).rest_suffix.length_le
          have := (edge at_edge).feed
          rw [Place.rest_advance] at past
          omega
    · exact ⟨rfl, ahead⟩

/-! ## Fenced code -/

theorem Level.close_eq {rest other : List Char} (level : Level rest other) (fence : Fence)
    (inLine : isLineEnd fence.mark = false) : fence.close? rest = fence.close? other := by
  have run_le := runLength_le_line inLine rest
  have behind := level.drop run_le
  have blank_le := runLength_le_line (m := ' ') rfl (rest.drop (runLength fence.mark rest))
  have run_eq : runLength fence.mark rest = runLength fence.mark other :=
    level.lengthWhile_eq (beq_eq_false_of_isLineEnd inLine '\n' rfl)
  have blanks_eq : runLength ' ' (rest.drop (runLength fence.mark rest)) =
      runLength ' ' (other.drop (runLength fence.mark rest)) :=
    behind.lengthWhile_eq rfl
  have ends_eq := (behind.drop blank_le).lineEnd_eq
  rw [List.drop_drop, List.drop_drop] at ends_eq
  simp only [Fence.close?, level.isEmpty_eq, ← run_eq, ← blanks_eq, ends_eq]

theorem Fence.close_le {fence : Fence} {rest : List Char} {length : Nat}
    (inLine : isLineEnd fence.mark = false) (closes : fence.close? rest = some length) :
    length ≤ (line rest).length ∧ (lineEnd? (rest.drop length)).isSome := by
  unfold Fence.close? at closes
  split at closes
  · next empty =>
    cases closes
    rw [List.isEmpty_iff.mp empty]
    exact ⟨Nat.zero_le _, rfl⟩
  · dsimp only at closes
    split at closes
    · next both =>
      cases closes
      rw [Bool.and_eq_true] at both
      refine ⟨?_, both.2⟩
      have run_le := runLength_le_line inLine rest
      have blank_le := runLength_le_line (m := ' ') rfl (rest.drop (runLength fence.mark rest))
      rw [drop_line run_le, List.length_drop] at blank_le
      omega
    · cases closes

/-- Behind a line the blanks that end it are passed over. -/
theorem Seam.Above.blankEnd (above : seam.Above place.rest) :
    seam.Ahead (place.advance ((blankLine? place.rest).getD 0)).rest ∧
      (place.turn seam).advance ((blankLine? (place.turn seam).rest).getD 0) =
        (place.advance ((blankLine? place.rest).getD 0)).turn seam := by
  have le : (blankLine? place.rest).getD 0 + seam.edge ≤ place.rest.length := by
    rcases blank : blankLine? place.rest with _ | count
    · have := above.longer
      rw [Option.getD_none]
      omega
    · have := above.lineLength_le
      rw [lineLength_of_blankLine blank] at this
      rwa [Option.getD_some]
  refine ⟨above.ahead_of_le le, ?_⟩
  rw [Place.rest_turn, ← above.level.blankLine_eq]
  exact above.advance_turn le

/-- Code that goes on in the line of the paragraph ends behind the beginning of the paragraph. -/
theorem length_fencedCode_lt (spaced : Spaced seam.old place.rest) (indent : Nat) {fence : Fence}
    (inLine : isLineEnd fence.mark = false) (fuel : Nat)
    (current : (Container.enterAll containers place).1 = true) :
    (fencedCode containers indent fence (fuel + 1) place).rest.length < seam.old.length := by
  have indented := (Spaced.enterAll containers spaced).indent indent
  have closing := indented.indent (4 - indent)
  unfold Markdown.fencedCode
  dsimp only
  rw [if_pos current]
  generalize ((Container.enterAll containers place).2.indent indent).2 = margin at indented closing ⊢
  change Spaced seam.old (margin.indentBy (4 - indent)).2.place.rest at closing
  split
  · next length found =>
    have past := closing.lineEnd (Fence.close_le inLine (Option.ite_none_left_eq_some.mp found).2).2
    rw [Place.rest_advance, Place.rest_advance, List.length_drop]
    omega
  · have past := (before_fencedCode containers indent fence fuel
      (margin.place.advance (feedLength margin.rest))).rest_suffix.length_le
    have := indented.feed
    rw [Place.rest_advance] at past
    rw [Margin.rest] at past ⊢
    omega

/-- Fenced code that ends before the paragraph is the same in both documents. -/
theorem Seam.Ahead.fencedCode (ahead : seam.Ahead place.rest) (indent : Nat) {fence : Fence}
    (inLine : isLineEnd fence.mark = false) {fuel : Nat}
    (stops : seam.old.length ≤ (fencedCode containers indent fence fuel place).rest.length) :
    fencedCode containers indent fence fuel (place.turn seam) =
        (fencedCode containers indent fence fuel place).turn seam ∧
      seam.Ahead (fencedCode containers indent fence fuel place).rest := by
  induction fuel generalizing place with
  | zero => exact ⟨rfl, ahead⟩
  | succ fuel ih =>
    have reached := Container.reaches_enterAll containers ahead.reaches
    have onLine := Container.sameLine_enterAll containers place
    have notPast (current : (Container.enterAll containers place).1 = true) :
        seam.Above place.rest := by
      rcases ahead.above_or_edge with above | at_edge
      · exact above
      · have spaced : Spaced seam.old place.rest := by
          rw [at_edge]
          exact seam.atEdge
        have past := length_fencedCode_lt containers spaced indent inLine fuel current
        omega
    unfold Markdown.fencedCode at stops ⊢
    rw [Container.enterAll_turn containers ahead.reaches]
    dsimp only at stops ⊢
    generalize Container.enterAll containers place = behind at *
    split
    · next current =>
      have above := notPast current
      rw [if_pos current] at stops
      rw [Margin.indent_turn reached]
      dsimp only
      have indentedReaches := Margin.reaches_indent reached indent
      have indentedLine := onLine.trans (behind.2.sameLine_indent indent)
      generalize (behind.2.indent indent).2 = margin at *
      rw [Margin.indentBy_turn indentedReaches]
      dsimp only
      have closingLine := indentedLine.trans (margin.sameLine_indentBy (4 - indent))
      generalize margin.indentBy (4 - indent) = closing at *
      rw [Margin.rest_turn, Margin.place_turn, Margin.place_turn, Margin.rest_turn]
      have closingAbove : seam.Above closing.2.place.rest := closingLine.above above
      have indentedAbove : seam.Above margin.place.rest := indentedLine.above above
      have close_eq : fence.close? (seam.turn closing.2.rest) = fence.close? closing.2.rest :=
        (closingAbove.level.close_eq fence inLine).symm
      rw [close_eq]
      rcases found : (if closing.1 = true then none else fence.close? closing.2.rest) with _ | length
      · rw [found] at stops
        rcases indentedAbove.nextFeed with ⟨next, next_eq⟩
        rw [Place.rest_turn] at next_eq
        dsimp only
        rw [Margin.rest, next_eq]
        exact ih next stops
      · have le := (Fence.close_le inLine (Option.ite_none_left_eq_some.mp found).2).1
        have behindAbove : seam.Above (closing.2.place.advance length).rest :=
          (Place.SameLine.of_le le).above closingAbove
        rcases behindAbove.blankEnd with ⟨later, later_eq⟩
        have within : length + seam.edge ≤ closing.2.place.rest.length :=
          (Nat.add_le_add_right le _).trans closingAbove.line_lt.le
        dsimp only
        rw [closingAbove.advance_turn within, later_eq]
        exact ⟨rfl, later⟩
    · exact ⟨rfl, ahead⟩

end Refill.Markdown
