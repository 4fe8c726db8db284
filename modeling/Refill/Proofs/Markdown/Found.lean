import Refill.Proofs.Markdown.Change
import Refill.Proofs.Markdown.Marks

/-!
# Where a paragraph is found

A paragraph that a document is told to have has been read in a step of its own
(`exists_paragraph`): nothing else begins at its place (`OpensText`), and it goes on as a block of
text does. Where no container encloses it, none is open at that step (`frames_of_free`).
-/

namespace Refill

open Document

namespace Markdown

/-! ## Lines that begin with text -/

/-- No block but one of text begins at the place. -/
structure OpensText (containers : List Container) (fuel : Nat) (place : Place) : Prop where
  noTerminator : (if place.rest.head? == some '<' then blockTerminator? (place.rest.drop 1)
    else none) = none
  noElement : (place.rest.head? == some '<' &&
    (opensBlockElement (place.rest.drop 1) || isLoneTag place.rest)) = false
  noRule : thematicBreak? place.rest = none
  noHeading : opensHeading place.rest = false
  noFence : fence? place.rest = none
  noDefinition : definition? containers fuel place = none
  noTable : tableBody? containers place (pipes (line place.rest)) = none

section Leaf

variable {fuel indent : Nat} {progress : Progress} {place : Place}

/-- A leaf is a block of text where no other begins. -/
theorem OpensText.leaf_eq (opens : OpensText progress.containers fuel place)
    (plain : (textBlock progress.containers fuel 0 place).underlined = false) :
    leaf fuel progress indent place =
      (progress.add (.paragraph
        ⟨place.offset, (textBlock progress.containers fuel 0 place).next.offset⟩
        (textBlock progress.containers fuel 0 place).lines),
      (textBlock progress.containers fuel 0 place).next) := by
  have element : ¬(place.rest.head? == some '<' &&
      (opensBlockElement (place.rest.drop 1) || isLoneTag place.rest)) = true := by
    rw [opens.noElement]
    exact Bool.false_ne_true
  have heading : ¬opensHeading place.rest = true := by
    rw [opens.noHeading]
    exact Bool.false_ne_true
  unfold leaf
  dsimp only
  rw [opens.noTerminator]
  dsimp only
  rw [if_neg element, opens.noRule]
  dsimp only
  rw [if_neg heading, opens.noFence]
  dsimp only
  rw [opens.noDefinition]
  dsimp only
  unfold leaf.text
  rw [opens.noTable]
  dsimp only
  rw [plain, if_neg Bool.false_ne_true]

/-- What a leaf adds is a paragraph only where a block of text begins. -/
theorem leaf_cases (fuel : Nat) (progress : Progress) (indent : Nat) (place : Place) :
    (OpensText progress.containers fuel place ∧
        (textBlock progress.containers fuel 0 place).underlined = false) ∨
      (∃ block, block.parts = [.leaf block] ∧ block.span? = none ∧
        (leaf fuel progress indent place).1 = progress.add block) ∨
      (leaf fuel progress indent place).1.parts = progress.parts := by
  unfold leaf
  dsimp only
  rcases terminated : (if place.rest.head? == some '<' then blockTerminator? (place.rest.drop 1)
    else none) with _ | terminator
  swap
  · exact Or.inr (Or.inl ⟨.html, rfl, rfl, rfl⟩)
  dsimp only
  split
  · exact Or.inr (Or.inl ⟨.html, rfl, rfl, rfl⟩)
  next element =>
  rcases rule : thematicBreak? place.rest with _ | length
  swap
  · exact Or.inr (Or.inl ⟨.thematicBreak, rfl, rfl, rfl⟩)
  dsimp only
  split
  · exact Or.inr (Or.inl ⟨.heading [], rfl, rfl, rfl⟩)
  next heading =>
  rcases opened : fence? place.rest with _ | fence
  swap
  · exact Or.inr (Or.inl ⟨.code, rfl, rfl, rfl⟩)
  dsimp only
  rcases defined : definition? progress.containers fuel place with _ | ⟨name, next⟩
  swap
  · exact Or.inr (Or.inr rfl)
  dsimp only
  unfold leaf.text
  rcases table : tableBody? progress.containers place (pipes (line place.rest)) with _ | body
  swap
  · exact Or.inr (Or.inl ⟨_, rfl, rfl, rfl⟩)
  dsimp only
  rcases underlined : (textBlock progress.containers fuel 0 place).underlined with _ | _
  · exact Or.inl ⟨⟨terminated, by simpa using element, rule, by simpa using heading, opened, defined,
      table⟩, rfl⟩
  · exact Or.inr (Or.inl ⟨.heading _, rfl, rfl, rfl⟩)

end Leaf

/-! ## Paragraphs found so far -/

/-- The paragraphs among the parts found so far. -/
def Progress.paragraphs (progress : Progress) : List Span :=
  progress.parts.filterMap Part.span?

section Paragraphs

variable {fuel : Nat} {progress : Progress} {place : Place} {margin : Margin}

theorem paragraphs_add {block : Block} (parts_eq : block.parts = [.leaf block]) :
    (progress.add block).paragraphs = progress.paragraphs ++ block.span?.toList := by
  have last : [Part.leaf block].filterMap Part.span? = block.span?.toList := by
    rcases span_eq : block.span? with _ | span <;> simp [Part.span?, span_eq]
  rw [Progress.paragraphs, Progress.parts_add, parts_eq, List.filterMap_append, last]
  rfl

theorem paragraphs_of_opens {later : Progress} {next : Place} (opens : Opens progress place later next) :
    later.paragraphs = progress.paragraphs := by
  rcases opens.parts with ⟨opened, opening, parts_eq, _⟩
  have none : opened.filterMap Part.span? = [] := by
    apply List.filterMap_eq_nil_iff.mpr
    intro part mem
    rcases opening part mem with rfl | rfl <;> rfl
  rw [Progress.paragraphs, parts_eq, List.filterMap_append, none, List.append_nil]
  rfl

theorem paragraphs_openContainers (fuel : Nat) (progress : Progress) (margin : Margin) :
    (openContainers fuel progress margin).progress.paragraphs = progress.paragraphs := by
  induction fuel generalizing progress margin with
  | zero => rfl
  | succ fuel ih =>
    rw [openContainers_succ]
    rcases opened : opening progress margin with _ | ⟨later, next⟩ | ⟨later, behind⟩
    · rfl
    · exact paragraphs_of_opens (opens_of_emptyItem opened)
    · dsimp only [Opening.line]
      rw [ih, paragraphs_of_opens (opens_of_container opened)]

theorem paragraphs_lineStart (fuel : Nat) (progress : Progress) (place : Place) :
    (lineStart fuel progress place).progress.paragraphs = progress.paragraphs := by
  unfold lineStart
  rw [paragraphs_openContainers, Progress.paragraphs, Progress.parts_closeMany]
  rfl

/-- A paragraph is read at the place, in a line that opens the containers and begins at the
margin. -/
structure Finds (progress : Progress) (place : Place) (opened : Progress) (margin : Margin) :
    Prop where
  line_eq : lineStart place.rest.length progress place = .content opened margin
  filled : blankLine? margin.rest = none
  shallow : (margin.indent 4).1 ≠ 4
  opens : OpensText opened.closeList.containers place.rest.length (margin.indent 4).2.place
  plain : (textBlock opened.closeList.containers place.rest.length 0
    (margin.indent 4).2.place).underlined = false

/-- The block of text that the paragraph is. -/
def foundText (place : Place) (opened : Progress) (margin : Margin) : TextBlock :=
  textBlock opened.closeList.containers place.rest.length 0 (margin.indent 4).2.place

def foundSpan (place : Place) (opened : Progress) (margin : Margin) : Span :=
  ⟨(margin.indent 4).2.place.offset, (foundText place opened margin).next.offset⟩

theorem Finds.readNext_eq {opened : Progress} (finds : Finds progress place opened margin) :
    readNext progress place =
      (opened.closeList.add (.paragraph (foundSpan place opened margin)
        (foundText place opened margin).lines), (foundText place opened margin).next) := by
  rw [readNext, readBlock_eq, finds.line_eq]
  dsimp only
  rw [finds.filled]
  dsimp only
  rw [if_neg finds.shallow, finds.opens.leaf_eq finds.plain]
  rfl

/-- A step adds a paragraph if it finds one, and otherwise none. -/
theorem readNext_cases (progress : Progress) (place : Place) :
    (∃ opened margin, Finds progress place opened margin) ∨
      (readNext progress place).1.paragraphs = progress.paragraphs := by
  have opened := paragraphs_lineStart place.rest.length progress place
  have listed (later : Progress) : later.closeList.paragraphs = later.paragraphs := by
    rw [Progress.paragraphs, Progress.parts_closeList]
    rfl
  have adds (later : Progress) {block : Block} (parts_eq : block.parts = [.leaf block])
      (plain : block.span? = none) : (later.closeList.add block).paragraphs = later.paragraphs := by
    rw [paragraphs_add parts_eq, plain, listed]
    exact List.append_nil _
  rw [readNext, readBlock_eq]
  rcases start : lineStart place.rest.length progress place with ⟨later, margin⟩ | ⟨later, next⟩
  · rw [start, LineStart.progress] at opened
    rw [← opened]
    dsimp only
    rcases filled : blankLine? margin.rest with _ | length
    · dsimp only
      split
      · exact Or.inr (adds later rfl rfl)
      · next shallow =>
        rcases leaf_cases place.rest.length later.closeList (margin.indent 4).1
          (margin.indent 4).2.place with text | ⟨block, parts_eq, plain, leaf_eq⟩ | same
        · exact Or.inl ⟨later, margin, start, filled, shallow, text.1, text.2⟩
        · right
          rw [leaf_eq]
          exact adds later parts_eq plain
        · right
          rw [← listed later, Progress.paragraphs, same]
          rfl
    · right
      rw [Progress.paragraphs, Progress.parts_blankLine]
      rfl
  · rw [start, LineStart.progress] at opened
    exact Or.inr opened

theorem Finds.paragraphs_eq {opened : Progress} (finds : Finds progress place opened margin) :
    (readNext progress place).1.paragraphs =
      progress.paragraphs ++ [foundSpan place opened margin] := by
  have same := paragraphs_lineStart place.rest.length progress place
  have listed : opened.closeList.paragraphs = opened.paragraphs := by
    rw [Progress.paragraphs, Progress.parts_closeList]
    rfl
  rw [finds.line_eq, LineStart.progress] at same
  rw [finds.readNext_eq, paragraphs_add rfl, listed, same]
  rfl

end Paragraphs

/-! ## The step that finds a paragraph -/

section Run

variable {progress later : Progress} {place next : Place} {span : Span}

theorem Laid.stop_le {parts : List Part} (laid : Laid place next parts) :
    ∀ span ∈ parts.filterMap Part.span?, span.stop ≤ next.offset := by
  induction laid with
  | nil => simp
  | @opens place next part parts opened later ih =>
    have closed : part.span? = none := by
      rcases opened with rfl | rfl <;> rfl
    rwa [List.filterMap_cons_none closed]
  | @leaf place start stop next block parts before stands later ih =>
    rcases span_eq : block.span? with _ | span
    · rwa [List.filterMap_cons_none (by exact span_eq)]
    · rcases stands.span span span_eq with ⟨rfl, _, _⟩
      rw [List.filterMap_cons_some (by exact span_eq), List.forall_mem_cons]
      exact ⟨later.before.offset_le, ih⟩

theorem exists_laid_readAll (progress : Progress) (place : Place) :
    ∃ added last, (readAll progress place).paragraphs =
        progress.paragraphs ++ added.filterMap Part.span? ∧ Laid place last added := by
  rcases exists_laid_readBlocks (place.rest.length + 1) progress place with
    ⟨added, last, parts_eq, laid⟩
  refine ⟨added, last, ?_, laid⟩
  rw [Progress.paragraphs, readAll, parts_eq, List.filterMap_append]
  rfl

/-- A paragraph of the document is found in one of the steps over it. -/
theorem exists_paragraph (fresh : span ∉ progress.paragraphs)
    (mem : span ∈ (readAll progress place).paragraphs) (filled : span.start < span.stop) :
    ∃ later next opened margin, Reads progress place later next ∧
      Finds later next opened margin ∧ foundSpan next opened margin = span ∧
      place.offset + place.rest.length - span.start ≤ next.rest.length := by
  have total := exists_laid_readAll progress place
  rcases total with ⟨added, last, paragraphs_eq, laid⟩
  have inside : place.rest ≠ [] ∧ place.offset ≤ span.start ∧
      span.stop ≤ place.offset + place.rest.length := by
    rw [paragraphs_eq] at mem
    rcases List.mem_append.mp mem with mem | mem
    · exact absurd mem fresh
    · rcases laid.orderly.2 span mem with ⟨left, start_le, _, stop_le⟩
      exact ⟨left, start_le, stop_le⟩
  rcases inside with ⟨left, start_le, stop_le⟩
  have positive : 0 < place.offset + place.rest.length - span.start := by omega
  have within : place.offset + place.rest.length - span.start ≤ place.rest.length := by omega
  rcases exists_reads progress positive within with ⟨later, next, reads, reached, passes⟩
  have nextLeft : next.rest ≠ [] := List.ne_nil_of_length_pos (by omega)
  have next_eq := reads.before.offset_add_length nextLeft
  refine ⟨later, next, ?_⟩
  -- what has been found before ends at the place, and what is found later begins behind the step
  have notBefore : span ∉ later.paragraphs := by
    rcases reads.adds with ⟨before, parts_eq, laid⟩
    have parts_eq : later.paragraphs = progress.paragraphs ++ before.filterMap Part.span? := by
      rw [Progress.paragraphs, parts_eq, List.filterMap_append]
      rfl
    rw [parts_eq]
    intro mem
    rcases List.mem_append.mp mem with mem | mem
    · exact fresh mem
    · have stop_le := laid.stop_le span mem
      dsimp only at stop_le
      omega
  have notLater : span ∈ (readNext later next).1.paragraphs := by
    rcases exists_laid_readAll (readNext later next).1 (readNext later next).2 with
      ⟨more, last, more_eq, laid⟩
    rw [reads.readAll_eq, readAll_step nextLeft, more_eq] at mem
    rcases List.mem_append.mp mem with mem | mem
    · exact mem
    · rcases laid.orderly.2 span mem with ⟨stillLeft, start_le, _, _⟩
      have behind_eq := (before_readNext later next).offset_add_length stillLeft
      omega
  rcases readNext_cases later next with ⟨opened, margin, finds⟩ | same
  · rw [finds.paragraphs_eq] at notLater
    rcases List.mem_append.mp notLater with mem | mem
    · exact absurd mem notBefore
    · exact ⟨opened, margin, reads, finds, (List.mem_singleton.mp mem).symm, reached⟩
  · rw [same] at notLater
    exact absurd notLater notBefore

theorem frames_readAll (progress : Progress) (place : Place) :
    (readAll progress place).frames = [] :=
  frames_readBlocks _ progress place

/-- Reading all that is left changes only what lies behind the place. -/
theorem exists_change_readAll (apart : progress.Apart) (place : Place) :
    ∃ high, Change place.offset high progress (readAll progress place) := by
  induction size : place.rest.length using Nat.strong_induction_on generalizing progress place with
  | _ size ih =>
    by_cases left : place.rest = []
    · rw [readAll_ended left]
      exact ⟨place.offset, change_closeMany progress (Nat.le_refl _) (Nat.le_refl _) _⟩
    · have shorter : (readNext progress place).2.rest.length < place.rest.length :=
        further_readBlock left (Nat.le_refl _)
      have passed := (before_readNext progress place).offset_le
      have first := change_readNext apart place
      rcases ih _ (size ▸ shorter) (apart.of_change first) _ rfl with ⟨high, later⟩
      rw [readAll_step left]
      refine ⟨max high (readNext progress place).2.offset, ?_⟩
      exact (first.widen (Nat.le_refl _) (Nat.le_max_right _ _)).trans
        (later.widen passed (Nat.le_max_left _ _))

theorem emptyItem_closeList (progress : Progress) : progress.closeList.emptyItem = none := by
  have closed : progress.closeEmptyItem.emptyItem = none := rfl
  rw [Progress.closeList_eq, emptyItem_endBlank]
  generalize progress.closeEmptyItem = progress at closed ⊢
  unfold Progress.endList
  split
  · rw [Progress.emptyItem_close, closed]
  · exact closed

theorem afterBlank_closeList (progress : Progress) : progress.closeList.afterBlank = false := by
  rw [Progress.closeList_eq]
  unfold Progress.endBlank
  split
  · rfl
  · next afterBlank => simpa using afterBlank

/-- The containers that are open where a paragraph is found begin no later than it does. -/
theorem Finds.ended {opened : Progress} {margin : Margin} (finds : Finds later next opened margin)
    (apart : later.Apart) (ended : Ended next.offset later) :
    opened.Apart ∧ Ended (margin.indent 4).2.place.offset opened := by
  have opens : (lineStart next.rest.length later next).place.offset ≤
      (margin.indent 4).2.place.offset := by
    rw [finds.line_eq]
    exact (margin.before_indent 4).offset_le
  have change := change_lineStart apart opens
  rw [finds.line_eq] at change opens
  have reached := adds_lineStart next.rest.length later next
  rw [finds.line_eq] at reached
  rcases reached with ⟨_, _, laid⟩
  have le := laid.before.offset_le.trans opens
  refine ⟨apart.of_change change, Ended.of_change change ?_⟩
  exact ⟨fun opening mem => (ended.open_le opening mem).trans le,
    fun span mem => (ended.closed_le span mem).trans le,
    fun stop item => (ended.item_le stop item).trans le⟩

/-- A paragraph that no container encloses is found outside of all containers. -/
theorem frames_of_free {opened : Progress} {margin : Margin} (apart : progress.Apart)
    (ended : Ended place.offset progress) (reads : Reads progress place later next)
    (finds : Finds later next opened margin) (left : next.rest ≠ [])
    (free : ∀ outer ∈ (readAll progress place).holders,
      outer.encloses (foundSpan next opened margin) = false) : opened.closeList.frames = [] := by
  have change := reads.change apart
  have laterEnded : Ended next.offset later := by
    apply Ended.of_change change
    have le := reads.before.offset_le
    exact ⟨fun opening mem => (ended.open_le opening mem).trans le,
      fun span mem => (ended.closed_le span mem).trans le,
      fun stop item => (ended.item_le stop item).trans le⟩
  rcases finds.ended (apart.of_change change) laterEnded with ⟨openedApart, openedEnded⟩
  have noList := noList_closeList openedApart
  have closedEnded := Ended.of_change
    (change_closeList 0 (margin.indent 4).2.place.offset opened) openedEnded
  have closedApart := openedApart.of_change (change_closeList 0 0 opened)
  by_contra framed
  rcases List.exists_cons_of_ne_nil framed with ⟨frame, outer, frames_eq⟩
  have opening : opened.closeList.openings.head? = some (frame.container.isList, frame.start) := by
    rw [Progress.openings, frames_eq]
    rfl
  have holder : frame.container.isList = false := by
    by_contra list
    rw [Bool.not_eq_false] at list
    rw [list] at opening
    exact noList _ opening
  rw [holder] at opening
  have mem : (false, frame.start) ∈ opened.closeList.openings := List.mem_of_head? opening
  have covers : Covers (foundSpan next opened margin) (readNext later next).1 := by
    rw [finds.readNext_eq]
    refine ⟨Or.inl ⟨frame.start, ?_, closedEnded.open_le _ mem⟩, fun stop item => ?_⟩
    · rw [Progress.openings_add]
      exact mem
    · rw [Progress.emptyItem_add, emptyItem_closeList] at item
      cases item
  have apartNext : (readNext later next).1.Apart := by
    rw [finds.readNext_eq, Progress.Apart, Progress.openings_add]
    exact closedApart
  rcases exists_change_readAll apartNext (readNext later next).2 with ⟨high, rest⟩
  have stop_le : (foundSpan next opened margin).stop ≤ (readNext later next).2.offset := by
    rw [finds.readNext_eq]
    exact Nat.le_refl _
  have last := covers.of_change rest stop_le
  rw [← readAll_step left, ← reads.readAll_eq] at last
  rcases last.outer with ⟨start, mem, _⟩ | ⟨outer, mem, encloses⟩
  · rw [Progress.openings, frames_readAll] at mem
    cases mem
  · rw [free outer mem] at encloses
    cases encloses

end Run

end Markdown

end Refill
