import Refill.Proofs.Markdown.Reading
import Refill.Proofs.Markdown.SeamBlock

/-!
# Steps before a paragraph

A step of the reader that ends before the paragraph of a seam leads to the same progress in both
documents, and as far on (`Seam.Above.readBlock`).
-/

namespace Refill.Markdown

variable {seam : Seam} {place : Place} {fuel : Nat}

/-! ## Leaves -/

theorem thematicBreak_eq_some {rest : List Char} {length : Nat}
    (rule : thematicBreak? rest = some length) : length = lineLength rest := by
  unfold thematicBreak? at rule
  split at rule
  · cases rule
  split at rule
  · dsimp only at rule
    split at rule
    · cases rule
      rfl
    · cases rule
  · cases rule

theorem Level.thematicBreak_eq {rest other : List Char} (level : Level rest other) :
    thematicBreak? rest = thematicBreak? other := by
  have same : (thematicBreak? rest).isSome = (thematicBreak? other).isSome :=
    level.eq_of_line (f := fun rest => (thematicBreak? rest).isSome) isSome_thematicBreak_line
  rcases found : thematicBreak? rest with _ | length <;>
    rcases otherFound : thematicBreak? other with _ | otherLength
  · rfl
  · simp [found, otherFound] at same
  · simp [found, otherFound] at same
  · rw [thematicBreak_eq_some found, thematicBreak_eq_some otherFound, level.lineLength_eq]

theorem fence_eq_some {rest : List Char} {fence : Fence} (opens : fence? rest = some fence) :
    isLineEnd fence.mark = false ∧ fence.length ≤ (line rest).length := by
  rcases rest with _ | ⟨mark, rest⟩
  · cases opens
  simp only [fence?] at opens
  split at opens
  · next both =>
    cases opens
    rw [Bool.and_eq_true, Bool.or_eq_true, Bool.and_eq_true] at both
    have inLine : isLineEnd mark = false := by
      rcases both.1 with tilde | ⟨tick, _⟩
      · rw [beq_iff_eq.mp tilde]
        rfl
      · rw [beq_iff_eq.mp tick]
        rfl
    exact ⟨inLine, runLength_le_line inLine _⟩
  · cases opens

theorem Seam.Inside.text (inside : seam.Inside place.rest) (fuel : Nat) (progress : Progress)
    (containers : List Container) :
    leaf.text fuel progress (place.turn seam) containers =
        ((leaf.text fuel progress place containers).1,
          (leaf.text fuel progress place containers).2.turn seam) ∧
      seam.Upto (leaf.text fuel progress place containers).2.rest := by
  unfold leaf.text
  rw [Place.rest_turn, ← inside.above.level.line_eq]
  rcases inside.tableBody containers (pipes (line place.rest)) with ⟨table_eq, body⟩
  rw [table_eq]
  rcases found : tableBody? containers place (pipes (line place.rest)) with _ | start
  · rcases inside.textBlock containers fuel 0 with ⟨text_eq, ended⟩
    dsimp only [Option.map_none]
    rw [text_eq]
    exact ⟨rfl, ended⟩
  · rcases (body start found).tableRows containers fuel with ⟨rows_eq, ended⟩
    dsimp only [Option.map_some]
    rw [rows_eq]
    exact ⟨rfl, ended⟩

/-- The first line of fenced code begins no later than the paragraph. -/
theorem Seam.Inside.fence (inside : seam.Inside place.rest) {fence : Fence}
    (opens : fence? place.rest = some fence) :
    seam.Ahead ((place.advance fence.length).advance
        (feedLength (place.advance fence.length).rest)).rest ∧
      ((place.turn seam).advance fence.length).advance
          (feedLength ((place.turn seam).advance fence.length).rest) =
        ((place.advance fence.length).advance
          (feedLength (place.advance fence.length).rest)).turn seam := by
  have le := (fence_eq_some opens).2
  have content : seam.Inside (place.advance fence.length).rest :=
    (Place.SameLine.of_le le).inside inside
  have within : fence.length + seam.gap ≤ place.rest.length :=
    (Nat.add_le_add_right le _).trans inside.line_lt.le
  rw [inside.advance_turn within]
  exact content.above.nextFeed


/-- A leaf that ends before the paragraph is the same in both documents. -/
theorem Seam.Inside.leaf (inside : seam.Inside place.rest) (progress : Progress) (indent : Nat)
    (enough : place.rest.length ≤ fuel)
    (stops : seam.old.length ≤ (leaf fuel progress indent place).2.rest.length) :
    leaf fuel progress indent (place.turn seam) =
        ((leaf fuel progress indent place).1, (leaf fuel progress indent place).2.turn seam) ∧
      seam.Ahead (leaf fuel progress indent place).2.rest := by
  have above := inside.above
  have level := above.level
  unfold Markdown.leaf at stops ⊢
  dsimp only at stops ⊢
  rw [Place.rest_turn, above.terminator]
  rcases html : (if (place.rest.head? == some '<') = true then blockTerminator? (place.rest.drop 1)
    else none) with _ | terminator
  · rw [html] at stops
    dsimp only at stops ⊢
    rw [above.opensElement]
    split
    · rcases inside.openHtml progress.containers fuel with ⟨html_eq, ended⟩
      rw [html_eq]
      exact ⟨rfl, ended.ahead⟩
    · next noHtml =>
      rw [if_neg noHtml] at stops
      rw [← level.thematicBreak_eq]
      rcases rule : thematicBreak? place.rest with _ | length
      · rw [rule] at stops
        dsimp only at stops ⊢
        rw [← level.eq_of_line opensHeading_line]
        split
        · rcases inside.nextLine with ⟨next, next_eq⟩
          rw [Place.rest_turn] at next_eq
          rw [next_eq]
          exact ⟨rfl, next.ahead⟩
        · next noHeading =>
          rw [if_neg noHeading] at stops
          rw [← level.fence_eq]
          rcases opens : fence? place.rest with _ | fence
          · rw [opens] at stops
            dsimp only at stops ⊢
            rcases inside.definition progress.containers fuel with ⟨definition_eq, ended⟩
            rw [definition_eq]
            rcases found : definition? progress.containers fuel place with _ | ⟨name, next⟩
            · rcases inside.text fuel progress progress.containers with ⟨text_eq, ended⟩
              exact ⟨text_eq, ended.ahead⟩
            · exact ⟨rfl, (ended name next found).ahead⟩
          · rw [opens] at stops
            dsimp only at stops ⊢
            rcases inside.fence opens with ⟨begun, begun_eq⟩
            rw [begun_eq]
            rcases begun.fencedCode progress.containers indent (fence_eq_some opens).1 stops with
              ⟨code_eq, ended⟩
            rw [code_eq]
            exact ⟨rfl, ended⟩
      · dsimp only
        have le := inside.lineLength_le
        rw [← thematicBreak_eq_some rule] at le
        rw [inside.advance_turn le]
        exact ⟨rfl, (inside.upto_of_le le).ahead⟩
  · rw [html] at stops
    dsimp only at stops ⊢
    rcases above.terminatedHtml progress.containers terminator enough stops with ⟨html_eq, ended⟩
    rw [html_eq]
    exact ⟨rfl, ended⟩

/-! ## Containers that open -/

def LineStart.turn (seam : Seam) : LineStart → LineStart
  | content progress margin => .content progress (margin.turn seam)
  | emptyItem progress next => .emptyItem progress (next.turn seam)

/-- What begins behind the containers of the line begins above the line of the paragraph, or no later
than there. -/
def LineStart.Ahead (seam : Seam) : LineStart → Prop
  | content _ margin => seam.Above margin.rest
  | emptyItem _ next => seam.Ahead next.rest

def Opening.turn (seam : Seam) : Opening → Opening
  | nothing => .nothing
  | emptyItem later next => .emptyItem later (next.turn seam)
  | container later behind => .container later (behind.turn seam)

def Opening.Ahead (seam : Seam) : Opening → Prop
  | nothing => True
  | emptyItem _ next => seam.Ahead next.rest
  | container _ behind => seam.Above behind.rest

section Open

variable {margin : Margin}

theorem itemMark_starts {rest : List Char} {mark : ItemMark} (found : itemMark? rest = some mark) :
    ∃ c, rest.head? = some c ∧ isWhite c = false := by
  rcases rest with _ | ⟨c, rest⟩
  · cases found
  refine ⟨c, rfl, ?_⟩
  by_contra white
  rw [Bool.not_eq_false] at white
  have either : (isGap c : Prop) ∨ isLineEnd c := by simpa [isWhite] using white
  have chars : c = ' ' ∨ c = '\t' ∨ c = '\x0b' ∨ c = '\x0c' ∨ c = '\n' ∨ c = '\r' := by
    rcases either with gap | ends
    · simp only [isGap, Bool.or_eq_true, beq_iff_eq] at gap
      rcases gap with ((rfl | rfl) | rfl) | rfl <;> simp
    · rcases isLineEnd_iff.mp ends with rfl | rfl <;> simp
  rcases chars with rfl | rfl | rfl | rfl | rfl | rfl <;> simp [itemMark?] at found

/-- The mark of an item is the same in both documents. -/
theorem Seam.Above.itemStart (above : seam.Above margin.rest) (outer : Nat) :
    itemStart? outer (margin.turn seam) =
        (itemStart? outer margin).map (fun item => (item.1, item.2.1, item.2.2.turn seam)) ∧
      ∀ delimiter indent behind, itemStart? outer margin = some (delimiter, indent, behind) →
        seam.Above behind.rest := by
  have level := above.level
  have rule_eq : (thematicBreak? (seam.turn margin.rest)).isSome =
      (thematicBreak? margin.rest).isSome := by rw [level.thematicBreak_eq]
  unfold itemStart?
  rw [Margin.rest_turn, ← level.eq_of_line itemMark_line, rule_eq]
  rcases found : itemMark? margin.rest with _ | mark
  · exact ⟨rfl, by simp⟩
  dsimp only
  split
  · exact ⟨rfl, by simp⟩
  have within := itemMark_le_line found
  have passed : seam.Above (margin.pass mark.length).rest :=
    (Place.SameLine.of_le within).above above
  have spaced : seam.Above ((margin.pass mark.length).indentBy 1).2.rest :=
    (Margin.sameLine_indentBy _ 1).above passed
  have room : mark.length + seam.old.length ≤ margin.rest.length := by
    have := above.line_lt
    have := seam.old_le_edge
    omega
  rw [Margin.pass_turn above.reaches room, Margin.indentBy_turn passed.reaches]
  dsimp only
  generalize (margin.pass mark.length).indentBy 1 = behind at spaced ⊢
  rw [Margin.atLineEnd_turn spaced.reaches, Margin.indent_turn spaced.reaches, Margin.rest_turn,
    ← spaced.level.isBlankLine_eq]
  split
  · split
    · refine ⟨rfl, fun delimiter indent other other_eq => ?_⟩
      cases other_eq
      exact spaced
    · refine ⟨rfl, fun delimiter indent other other_eq => ?_⟩
      cases other_eq
      exact (behind.2.sameLine_indent 4).above spaced
  · exact ⟨rfl, by simp⟩

theorem Seam.Above.itemOpening {behind : Margin} (above : seam.Above behind.rest)
    (progress : Progress) :
    itemOpening progress (behind.turn seam) = (itemOpening progress behind).turn seam ∧
      (itemOpening progress behind).Ahead seam := by
  have passed : seam.Above behind.place.rest := above
  rcases passed.blankEnd with ⟨ahead, next_eq⟩
  unfold Markdown.itemOpening
  rw [Place.rest_turn, ← passed.level.blankLine_eq] at next_eq
  rw [Margin.rest_turn, ← above.level.blankLine_eq]
  unfold Margin.rest
  rcases blank : blankLine? behind.place.rest with _ | length
  · exact ⟨rfl, above⟩
  · rw [blank, Option.getD_some] at next_eq ahead
    dsimp only [Option.elim_some]
    rw [Margin.place_turn, next_eq]
    exact ⟨rfl, ahead⟩

/-- What opens at a margin above the paragraph is the same in both documents. -/
theorem Seam.Above.opening (above : seam.Above margin.rest) (progress : Progress) :
    opening progress (margin.turn seam) = (opening progress margin).turn seam ∧
      (opening progress margin).Ahead seam := by
  have indented : seam.Above (margin.indent 4).2.rest := (margin.sameLine_indent 4).above above
  rcases indented.footnoteMark with ⟨footnote_eq, footnote⟩
  rcases indented.itemStart (margin.indent 4).1 with ⟨item_eq, item⟩
  rcases Margin.quoteMark_turn indented.reaches with ⟨quote_eq, _⟩
  unfold Markdown.opening
  dsimp only
  rw [Margin.indent_turn above.reaches]
  dsimp only
  split
  · exact ⟨rfl, trivial⟩
  rw [Margin.rest_turn, footnote_eq, item_eq, quote_eq]
  rcases mark : footnoteMark? (margin.indent 4).2.rest with _ | ⟨length, name⟩
  · rcases found : itemStart? (margin.indent 4).1 (margin.indent 4).2 with
      _ | ⟨delimiter, indent, behind⟩
    · rcases quote : (margin.indent 4).2.quoteMark? with _ | behind
      · exact ⟨rfl, trivial⟩
      · exact ⟨rfl, (Margin.sameLine_quoteMark quote).above indented⟩
    · dsimp only [Option.map_some, Option.map_none, Option.none_or, Option.some_or,
        Option.getD_some]
      exact (item _ _ _ found).itemOpening _
  · rcases footnote length name mark with ⟨inside, longer⟩
    have passed : seam.Above ((margin.indent 4).2.place.advance length).rest :=
      (inside.of_le longer).above
    rcases passed.skipGaps with ⟨skip_eq, same⟩
    have inside : seam.Inside (margin.indent 4).2.place.rest := inside
    have le : length + seam.gap ≤ (margin.indent 4).2.place.rest.length := longer.le
    dsimp only [Option.map_some, Option.some_or, Option.getD_some, footnoteMargin]
    rw [Margin.place_turn, inside.advance_turn le, skip_eq]
    exact ⟨rfl, same.above passed⟩

/-- What a line opens above the paragraph is the same in both documents. -/
theorem Seam.Above.openContainers (above : seam.Above margin.rest) (fuel : Nat)
    (progress : Progress) :
    openContainers fuel progress (margin.turn seam) =
        (openContainers fuel progress margin).turn seam ∧
      (openContainers fuel progress margin).Ahead seam := by
  induction fuel generalizing progress margin with
  | zero => exact ⟨rfl, above⟩
  | succ fuel ih =>
    rcases above.opening progress with ⟨opening_eq, ahead⟩
    rw [openContainers_succ, openContainers_succ, opening_eq]
    generalize Markdown.opening progress margin = opened at ahead ⊢
    rcases opened with _ | ⟨later, next⟩ | ⟨later, behind⟩
    · exact ⟨rfl, above⟩
    · exact ⟨rfl, ahead⟩
    · exact ih ahead later

end Open

/-! ## Steps -/

/-- A line that is not blank is not blank behind its indentation. -/
theorem Margin.isBlankLine_indent {margin : Margin} (filled : blankLine? margin.rest = none)
    (wanted : Nat) : isBlankLine (margin.indent wanted).2.place.rest = false := by
  rcases margin.exists_indentation wanted with ⟨passed, blank, rest_eq, _⟩
  have gaps : ∀ c ∈ passed, isGap c := by
    intro c mem
    rcases blank c mem with rfl | rfl <;> rfl
  have whole : isBlankLine margin.rest = false := by rw [isBlankLine, filled, Option.isSome_none]
  rw [isBlankLine_eq] at whole ⊢
  rwa [rest, rest_eq, List.dropWhile_append_of_pos gaps] at whole

theorem Seam.Above.lineStart (above : seam.Above place.rest) (fuel : Nat) (progress : Progress) :
    lineStart fuel progress (place.turn seam) = (lineStart fuel progress place).turn seam ∧
      (lineStart fuel progress place).Ahead seam := by
  have begun : seam.Above (Margin.start place).rest := above
  have entered := (Container.sameLine_enter progress.containers (.start place)).above begun
  unfold Markdown.lineStart
  rw [Margin.start_turn, (Container.enter_turn progress.containers begun.reaches).1]
  exact Seam.Above.openContainers entered fuel _

theorem readBlock_eq (fuel : Nat) (progress : Progress) (place : Place) :
    readBlock fuel progress place =
      match lineStart fuel progress place with
      | .emptyItem progress next => (progress, next)
      | .content progress margin =>
          match blankLine? margin.rest with
          | some length => (progress.blankLine, margin.place.advance length)
          | none =>
              let progress := progress.closeList
              let (indent, inner) := margin.indent 4
              if indent = 4 then
                (progress.add .code, indentedCode progress.containers fuel inner.place)
              else leaf fuel progress indent inner.place :=
  rfl

/-- A step that ends before the paragraph is the same in both documents. -/
theorem Seam.Above.readBlock (above : seam.Above place.rest) (progress : Progress)
    (enough : place.rest.length ≤ fuel)
    (stops : seam.old.length ≤ (readBlock fuel progress place).2.rest.length) :
    readBlock fuel progress (place.turn seam) =
        ((readBlock fuel progress place).1, (readBlock fuel progress place).2.turn seam) ∧
      seam.Ahead (readBlock fuel progress place).2.rest := by
  rcases above.lineStart fuel progress with ⟨line_eq, goesOn⟩
  rw [readBlock_eq] at stops ⊢
  rw [readBlock_eq, line_eq]
  rcases start : Markdown.lineStart fuel progress place with ⟨later, margin⟩ | ⟨later, next⟩
  · rw [start] at goesOn
    have inner : seam.Above margin.rest := goesOn
    have indented : seam.Above (margin.indent 4).2.place.rest :=
      (margin.sameLine_indent 4).above inner
    have shorter : (margin.indent 4).2.place.rest.length ≤ fuel := by
      have passed := Place.Before.rest_suffix (margin.before_indent 4)
      have reached := (adds_lineStart fuel progress place)
      rcases reached with ⟨_, _, laid⟩
      rw [start] at laid
      exact (passed.trans laid.before.rest_suffix).length_le.trans enough
    rw [start] at stops
    dsimp only [LineStart.turn] at stops ⊢
    rw [Margin.rest_turn, ← inner.level.blankLine_eq]
    rcases blank : blankLine? margin.rest with _ | length
    · rw [blank] at stops
      dsimp only at stops ⊢
      rw [Margin.indent_turn inner.reaches]
      dsimp only
      split
      · next code =>
        rw [if_pos code] at stops
        rcases indented.indentedCode later.closeList.containers shorter stops with ⟨code_eq, ended⟩
        rw [Margin.place_turn, code_eq]
        exact ⟨rfl, ended⟩
      · next shallow =>
        rw [if_neg shallow] at stops
        have inside : seam.Inside (margin.indent 4).2.place.rest := by
          apply indented.inside_of_filled
          exact Margin.isBlankLine_indent blank 4
        exact inside.leaf _ _ shorter stops
    · have passed : seam.Above margin.place.rest := inner
      rcases passed.blankEnd with ⟨ahead, next_eq⟩
      unfold Margin.rest at blank
      rw [Place.rest_turn, ← passed.level.blankLine_eq, blank, Option.getD_some] at next_eq
      rw [blank, Option.getD_some] at ahead
      dsimp only
      rw [Margin.place_turn, next_eq]
      exact ⟨rfl, ahead⟩
  · rw [start] at goesOn
    exact ⟨rfl, goesOn⟩

end Refill.Markdown
