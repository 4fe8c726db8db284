import Refill.Proofs.Markdown.Marks

/-!
# Sole paragraphs

Outside of all containers a block is a paragraph, a definition of a link or something else
(`exists_step_readBlock`). A document in which nothing else is found is plain: paragraphs,
definitions and blanks one behind the other (`exists_plain_read`). So a text that is read as a sole
paragraph is that paragraph as a whole just if it holds no definition (`paragraphs_eq_iff`).
-/

namespace Refill

open Document

namespace Markdown

/-! ## Plain reading -/

/-- Nothing but blanks lies between the places. -/
def Place.Skips (place next : Place) : Prop :=
  ∃ blanks, (∀ c ∈ blanks, isWhite c) ∧ place.rest = blanks ++ next.rest ∧
    next.offset = place.offset + blanks.length

/-- What the reader goes on over at a place: the paragraphs, and how many definitions. -/
inductive Step (place : Place) : Place → List Span → Nat → Prop
  | blanks {next : Place} (skips : place.Skips next) (further : place.offset < next.offset) :
      Step place next [] 0
  | definition {start next : Place} (skips : place.Skips start)
      (colon : "]:".toList <:+: start.rest) (before : (start.advance 1).Before next) :
      Step place next [] 1
  | paragraph {start next : Place} (skips : place.Skips start) (before : start.Before next)
      (further : start.offset < next.offset)
      (inside : next.offset ≤ start.offset + start.rest.length) :
      Step place next [⟨start.offset, next.offset⟩] 0

/-- The document is plain from the place on, with the paragraphs and the number of definitions. -/
inductive Plain : Place → List Span → Nat → Prop
  | nil {place : Place} (ended : place.rest = []) : Plain place [] 0
  | cons {place next : Place} {spans more : List Span} {count others : Nat}
      (step : Step place next spans count) (later : Plain next more others) :
      Plain place (spans ++ more) (count + others)

/-- Outside of all containers the reader finds the paragraphs and so many definitions. -/
structure Progress.Finds (progress later : Progress) (spans : List Span) (count : Nat) : Prop where
  closed : later.frames = []
  blocks : ∃ blocks, blocks.map Block.span? = spans.map some ∧
    later.blocks.reverse = progress.blocks.reverse ++ blocks
  links : later.links.length = progress.links.length + count

namespace Place.Skips

variable {place next last : Place}

theorem refl (place : Place) : place.Skips place :=
  ⟨[], by simp, by simp, by simp⟩

theorem trans (first : place.Skips next) (second : next.Skips last) : place.Skips last := by
  rcases first with ⟨blanks, white, rest_eq, offset_eq⟩
  rcases second with ⟨more, moreWhite, next_eq, last_eq⟩
  refine ⟨blanks ++ more, ?_, ?_, ?_⟩
  · rw [List.forall_mem_append]
    exact ⟨white, moreWhite⟩
  · rw [rest_eq, next_eq, List.append_assoc]
  · rw [last_eq, offset_eq, List.length_append, Nat.add_assoc]

theorem before (skips : place.Skips next) : place.Before next := by
  rcases skips with ⟨blanks, _, rest_eq, offset_eq⟩
  refine ⟨blanks.length, ?_⟩
  rw [Place.advance, rest_eq, List.drop_left, ← offset_eq]

end Place.Skips

theorem Margin.skips_indent (margin : Margin) (wanted : Nat) :
    margin.place.Skips (margin.indent wanted).2.place := by
  rcases margin.exists_indentation wanted with ⟨passed, blank, rest_eq, offset_eq⟩
  refine ⟨passed, fun c mem => ?_, rest_eq, offset_eq⟩
  rcases blank c mem with rfl | rfl <;> rfl

/-- A blank line is passed over, with its end. -/
theorem skips_blankLine {place : Place} {length : Nat}
    (blank : blankLine? place.rest = some length) :
    place.Skips (place.advance length) ∧ (place.rest ≠ [] → 0 < length) := by
  rw [blankLine?, drop_lengthWhile, lengthWhile_eq] at blank
  rcases Option.map_eq_some_iff.mp blank with ⟨count, ends, rfl⟩
  rcases exists_of_lineEnd ends with ⟨ended, behind, rest_eq, rfl, isEnd, left⟩
  have parted := List.takeWhile_append_dropWhile (p := isGap) (l := place.rest)
  constructor
  · refine ⟨place.rest.takeWhile isGap ++ ended, ?_, ?_, by simp⟩
    · rw [List.forall_mem_append]
      constructor
      · intro c mem
        simp [isWhite, Text.holds_of_mem_takeWhile mem]
      · intro c mem
        simp [isWhite, isEnd c mem]
    · rw [rest_eq, ← List.append_assoc] at parted
      have behind_eq := congrArg (List.drop (place.rest.takeWhile isGap ++ ended).length) parted
      rw [List.drop_left] at behind_eq
      rw [Place.rest_advance, ← List.length_append, ← behind_eq]
      exact parted.symm
  · intro nonempty
    by_contra none
    have gapless : place.rest.takeWhile isGap = [] := List.eq_nil_of_length_eq_zero (by omega)
    rw [gapless, List.nil_append] at parted
    rw [parted] at left
    exact left nonempty (List.eq_nil_of_length_eq_zero (by omega))

namespace Progress

variable {progress later last : Progress} {spans more : List Span} {count others : Nat}

theorem Finds.trans (first : progress.Finds later spans count)
    (second : later.Finds last more others) :
    progress.Finds last (spans ++ more) (count + others) where
  closed := second.closed
  blocks := by
    rcases first.blocks with ⟨blocks, spans_eq, blocks_eq⟩
    rcases second.blocks with ⟨added, more_eq, added_eq⟩
    refine ⟨blocks ++ added, ?_, ?_⟩
    · rw [List.map_append, List.map_append, spans_eq, more_eq]
    · rw [added_eq, blocks_eq, List.append_assoc]
  links := by rw [second.links, first.links, Nat.add_assoc]

theorem Finds.nothing (closed : later.frames = []) (blocks_eq : later.blocks = progress.blocks)
    (links_eq : later.links = progress.links) : progress.Finds later [] 0 where
  closed := closed
  blocks := ⟨[], rfl, by rw [blocks_eq, List.append_nil]⟩
  links := by rw [links_eq, Nat.add_zero]

theorem finds_closeList (closed : progress.frames = []) :
    progress.Finds progress.closeList [] 0 := by
  rcases progress with ⟨blocks, frames, emptyItem, afterBlank, links, footnotes⟩
  cases closed
  cases afterBlank <;> cases emptyItem <;> exact .nothing rfl rfl rfl

theorem finds_blankLine (closed : progress.frames = []) :
    progress.Finds progress.blankLine [] 0 := by
  rcases progress with ⟨blocks, frames, emptyItem, afterBlank, links, footnotes⟩
  cases closed
  exact .nothing rfl rfl rfl

end Progress

/-! ## Steps -/

section Steps

variable {progress : Progress} {place : Place} {fuel indent : Nat}

theorem Progress.Finds.paragraph (closed : progress.frames = []) (span : Span)
    (lines : List TextLine) : progress.Finds (progress.add (.paragraph span lines)) [span] 0 := by
  rcases progress with ⟨blocks, frames, emptyItem, afterBlank, links, footnotes⟩
  cases closed
  exact ⟨rfl, ⟨[.paragraph span lines], rfl, List.reverse_cons⟩, rfl⟩

theorem not_plain_add {block : Block} (parts_eq : block.parts = [.leaf block])
    (span_eq : block.span? = none) : ¬∀ part ∈ (progress.add block).parts, ¬part.IsOther := by
  intro plain
  refine plain (.leaf block) ?_ span_eq
  rw [Progress.parts_add, parts_eq]
  exact List.mem_append_right _ (List.mem_singleton_self _)

theorem exists_step_leaf (closed : progress.frames = []) (left : place.rest ≠ [])
    (enough : place.rest.length ≤ fuel)
    (plain : ∀ part ∈ (leaf fuel progress indent place).1.parts, ¬part.IsOther) :
    ∃ spans count, Step place (leaf fuel progress indent place).2 spans count ∧
      progress.Finds (leaf fuel progress indent place).1 spans count := by
  have step := leafStep fuel progress indent place
  generalize leaf fuel progress indent place = result at step plain ⊢
  cases step with
  | other _ parts_eq span_eq => exact absurd plain (not_plain_add parts_eq span_eq)
  | definition found =>
    exact ⟨[], 1, .definition (.refl place) (colon_of_definition found) (before_definition found),
      closed, ⟨[], rfl, by simp⟩, rfl⟩
  | heading => exact absurd plain (not_plain_add rfl rfl)
  | paragraph text_eq single =>
    subst text_eq
    rcases fuel with _ | fuel
    · exact absurd (List.eq_nil_of_length_eq_zero (Nat.le_zero.mp enough)) left
    have before := before_next_textBlock single
    have further := Nat.lt_of_lt_of_le (Nat.lt_add_of_pos_right (lineLength_pos left))
      before.offset_le
    exact ⟨_, 0, .paragraph (.refl place) ((place.before_advance _).trans before) further
      (next_textBlock_le single), .paragraph closed _ _⟩

theorem Step.of_skips {start next : Place} {spans : List Span} {count : Nat}
    (skips : place.Skips start) (step : Step start next spans count) :
    Step place next spans count := by
  cases step with
  | blanks later further =>
    exact .blanks (skips.trans later) (Nat.lt_of_le_of_lt skips.before.offset_le further)
  | definition later colon before => exact .definition (skips.trans later) colon before
  | paragraph later before further inside =>
    exact .paragraph (skips.trans later) before further inside

theorem lineStart_cases (fuel : Nat) (place : Place) (closed : progress.frames = []) :
    lineStart fuel progress place = .content progress (.start place) ∨
      .group ∈ (lineStart fuel progress place).progress.parts := by
  have containers_eq : progress.containers = [] := by simp [Progress.containers, closed]
  have line_eq : lineStart fuel progress place = openContainers fuel progress (.start place) := by
    simp only [lineStart, containers_eq, closed, Container.enter, List.length_nil, Nat.sub_self,
      Progress.closeMany]
  rw [line_eq]
  exact openContainers_cases fuel closed (.start place)

/-- Outside of all containers, and with nothing else found, the reader goes on over a paragraph, a
definition or a blank line. -/
theorem exists_step_readBlock (closed : progress.frames = []) (left : place.rest ≠ [])
    (enough : place.rest.length ≤ fuel)
    (plain : ∀ part ∈ (readBlock fuel progress place).1.parts, ¬part.IsOther) :
    ∃ spans count, Step place (readBlock fuel progress place).2 spans count ∧
      progress.Finds (readBlock fuel progress place).1 spans count := by
  rcases lineStart_cases fuel place closed with start_eq | group
  · have step := blockStep fuel progress place
    generalize readBlock fuel progress place = result at step plain ⊢
    cases step with
    | emptyItem line_eq => cases start_eq.symm.trans line_eq
    | blank line_eq blank =>
      cases start_eq.symm.trans line_eq
      rcases skips_blankLine blank with ⟨skips, positive⟩
      exact ⟨[], 0, .blanks skips (Nat.lt_add_of_pos_right (positive left)),
        Progress.finds_blankLine closed⟩
    | code line_eq => exact absurd plain (not_plain_add rfl rfl)
    | leaf line_eq filled =>
      cases start_eq.symm.trans line_eq
      have skips := (Margin.start place).skips_indent 4
      have shorter := skips.before.rest_suffix.length_le
      have finds := Progress.finds_closeList closed
      rcases exists_step_leaf finds.closed (rest_indent_ne_nil filled 4) (shorter.trans enough)
        plain with ⟨spans, count, step, later⟩
      refine ⟨spans, count, step.of_skips skips, ?_⟩
      simpa using finds.trans later
  · rcases adds_behind_lineStart fuel progress place with ⟨added, parts_eq, _⟩
    refine absurd trivial (plain .group ?_)
    rw [parts_eq]
    exact List.mem_append_left added group

end Steps

/-! ## Runs -/

section Plain

variable {place next : Place} {span : Span} {spans : List Span} {count : Nat}

theorem Step.before (step : Step place next spans count) : place.Before next := by
  cases step with
  | blanks skips => exact skips.before
  | definition skips _ before => exact (skips.before.advance 1).trans before
  | paragraph skips before => exact skips.before.trans before

theorem Step.further (step : Step place next spans count) : place.offset < next.offset := by
  cases step with
  | blanks _ further => exact further
  | definition skips _ before =>
    exact Nat.lt_of_lt_of_le (Nat.lt_succ_of_le skips.before.offset_le) before.offset_le
  | paragraph skips _ further => exact Nat.lt_of_le_of_lt skips.before.offset_le further

theorem Plain.start_le (plain : Plain place spans count) :
    ∀ span ∈ spans, place.offset ≤ span.start := by
  induction plain with
  | nil => simp
  | cons step _ ih =>
    rw [List.forall_mem_append]
    refine ⟨?_, fun span mem => step.further.le.trans (ih span mem)⟩
    cases step with
    | blanks | definition => simp
    | paragraph skips => simpa using skips.before.offset_le

/-- Without paragraphs and definitions only blanks are left. -/
theorem Plain.white (plain : Plain place [] 0) : ∀ c ∈ place.rest, isWhite c := by
  generalize spans_eq : [] = spans, count_eq : 0 = count at plain
  induction plain with
  | nil ended => simp [ended]
  | cons step _ ih =>
    cases step with
    | blanks skips =>
      rcases skips with ⟨blanks, white, rest_eq, _⟩
      rw [rest_eq, List.forall_mem_append]
      exact ⟨white, ih spans_eq (by omega)⟩
    | definition => omega
    | paragraph => cases spans_eq

theorem Step.left (step : Step place next spans count) : place.rest ≠ [] := by
  intro ended
  cases step with
  | blanks skips further =>
    rcases skips with ⟨blanks, _, rest_eq, offset_eq⟩
    rw [ended, eq_comm, List.append_eq_nil_iff] at rest_eq
    rw [offset_eq, rest_eq.1] at further
    exact Nat.lt_irrefl _ further
  | definition skips colon =>
    refine skips.before.rest_ne_nil (fun empty => ?_) ended
    rw [empty] at colon
    exact absurd colon (by decide)
  | paragraph skips before further inside =>
    refine skips.before.rest_ne_nil (fun empty => ?_) ended
    rw [empty] at inside
    exact Nat.lt_irrefl _ (Nat.lt_of_lt_of_le further inside)

theorem Plain.count_eq_zero (plain : Plain place spans count) (ended : place.rest = []) :
    count = 0 := by
  cases plain with
  | nil => rfl
  | cons step => exact absurd ended step.left

theorem Plain.colon (plain : Plain place spans count) (some_count : count ≠ 0) :
    "]:".toList <:+: place.rest := by
  induction plain with
  | nil => exact absurd rfl some_count
  | @cons place next _ _ count others step _ ih =>
    by_cases later : others = 0
    · cases step with
      | blanks | paragraph => exact absurd (by omega) some_count
      | definition skips colon => exact colon.trans skips.before.rest_suffix.isInfix
    · exact (ih later).trans step.before.rest_suffix.isInfix

/-- No blanks stand before a text that is trimmed. -/
theorem Place.Skips.eq_of_tight {text : List Char} {start : Place} (tight : Text.Tight text)
    (skips : Place.Skips ⟨0, text⟩ start) : start = ⟨0, text⟩ := by
  rcases skips with ⟨blanks, white, rest_eq, offset_eq⟩
  have blank : Text.Blank blanks := fun c mem => isBlank_of_isWhite (white c mem)
  have empty : blanks = [] := by
    apply blank.eq_nil_of_starts
    rw [← rest_eq]
    exact tight.starts
  rcases start with ⟨offset, rest⟩
  have same : text = rest := by simpa [empty] using rest_eq
  have start_eq : offset = 0 := by simpa [empty] using offset_eq
  rw [same, start_eq]

/-- A paragraph at the front of a trimmed text goes on to its end just if no definition follows. -/
theorem Plain.offset_eq_iff {text : List Char} (tight : Text.Tight text)
    (before : Place.Before ⟨0, text⟩ next) (inside : next.offset ≤ text.length)
    (plain : Plain next [] count) : next.offset = text.length ↔ count = 0 := by
  have rest_eq : next.rest = text.drop next.offset := before.rest_eq
  constructor
  · intro ended
    apply plain.count_eq_zero
    rw [rest_eq, ended, List.drop_length]
  · rintro rfl
    have blank : Text.Blank next.rest := fun c mem => isBlank_of_isWhite (plain.white c mem)
    have parted := List.take_append_drop next.offset text
    have ends := tight.ends
    rw [← rest_eq] at parted
    rw [← parted] at ends
    have empty := blank.eq_nil_of_ends ends
    rw [rest_eq, List.drop_eq_nil_iff] at empty
    omega

/-- The paragraph of a plain text is all of it just if there are no definitions. -/
theorem Plain.span_eq_iff {text : List Char} (tight : Text.Tight text)
    (plain : Plain ⟨0, text⟩ [span] count) : span = ⟨0, text.length⟩ ↔ count = 0 := by
  generalize spans_eq : [span] = spans at plain
  cases plain with
  | nil => cases spans_eq
  | @cons _ next _ _ _ _ step later =>
    cases step with
    | blanks skips further =>
      rw [skips.eq_of_tight tight] at further
      exact absurd further (Nat.lt_irrefl 0)
    | definition skips colon before =>
      have further := Step.further (.definition skips colon before)
      rw [List.nil_append] at spans_eq
      rw [← spans_eq] at later
      have start_le := later.start_le span (List.mem_singleton_self span)
      refine iff_of_false ?_ (by omega)
      rintro rfl
      exact absurd (Nat.lt_of_lt_of_le further start_le) (Nat.lt_irrefl 0)
    | paragraph skips before further inside =>
      cases skips.eq_of_tight tight
      cases spans_eq
      have stop_le : next.offset ≤ text.length := Nat.zero_add text.length ▸ inside
      rw [Nat.zero_add, ← later.offset_eq_iff tight before stop_le]
      simp

end Plain

/-- A run of the reader that finds nothing else is plain. -/
theorem exists_plain_readBlocks {progress : Progress} {place : Place} (fuel : Nat)
    (closed : progress.frames = []) (enough : place.rest.length < fuel)
    (plain : ∀ part ∈ (readBlocks fuel progress place).parts, ¬part.IsOther) :
    ∃ spans count, Plain place spans count ∧
      progress.Finds (readBlocks fuel progress place) spans count := by
  induction fuel generalizing progress place with
  | zero => exact absurd enough (Nat.not_lt_zero _)
  | succ fuel ih =>
    unfold readBlocks at plain ⊢
    split
    · next ended =>
      have same : progress.closeMany place.offset progress.frames.length = progress := by
        rw [closed, List.length_nil, Progress.closeMany]
      rw [same]
      exact ⟨[], 0, .nil (by simpa using ended), .nothing closed rfl rfl⟩
    · next left =>
      rw [if_neg left] at plain
      have left : place.rest ≠ [] := by simpa using left
      rcases exists_laid_readBlocks fuel (readBlock fuel progress place).1
        (readBlock fuel progress place).2 with ⟨added, last, parts_eq, _⟩
      have first : ∀ part ∈ (readBlock fuel progress place).1.parts, ¬part.IsOther := by
        intro part mem
        apply plain
        rw [parts_eq]
        exact List.mem_append_left added mem
      rcases exists_step_readBlock closed left (Nat.le_of_lt_succ enough) first with
        ⟨spans, count, step, finds⟩
      have shorter : (readBlock fuel progress place).2.rest.length < fuel :=
        Nat.lt_of_lt_of_le (step.before.length_lt step.further left) (Nat.le_of_lt_succ enough)
      rcases ih finds.closed shorter plain with ⟨more, others, later, found⟩
      exact ⟨spans ++ more, count + others, .cons step later, finds.trans found⟩

/-! ## Documents -/

theorem filterMap_allMarks {definitions : Definitions} {blocks : List Block} {spans : List Span}
    (spans_eq : blocks.map Block.span? = spans.map some) :
    (Block.allMarks definitions false blocks).filterMap paragraphSpan? = spans := by
  induction blocks generalizing spans with
  | nil =>
    rw [List.map_nil, eq_comm, List.map_eq_nil_iff] at spans_eq
    rw [spans_eq]
    rfl
  | cons block blocks ih =>
    rcases spans with _ | ⟨span, spans⟩
    · cases spans_eq
    rw [List.map_cons, List.map_cons, List.cons.injEq] at spans_eq
    cases block with
    | paragraph found lines =>
      cases spans_eq.1
      rw [Block.allMarks, List.filterMap_append, ih spans_eq.2, Block.marks, if_neg (by simp),
        List.filterMap_cons, filterMap_hardBreaks]
      rfl
    | _ => cases spans_eq.1

/-- A text with nothing else in it is plain, with its paragraphs and definitions. -/
theorem exists_plain_read {text : List Char}
    (plain : ∀ part ∈ (Document.read text).blocks.flatMap Block.parts, ¬part.IsOther) :
    ∃ spans count, Plain ⟨0, text⟩ spans count ∧
      (marks text).filterMap paragraphSpan? = spans ∧
      (Document.read text).definitions.links.length = count := by
  have closed := frames_readBlocks (text.length + 1) .start ⟨0, text⟩
  have parts_eq : (readBlocks (text.length + 1) .start ⟨0, text⟩).parts =
      (Document.read text).blocks.flatMap Block.parts := by
    rw [Progress.parts, closed, Document.read]
    simp
  rw [← parts_eq] at plain
  rcases exists_plain_readBlocks (text.length + 1) rfl (Nat.lt_succ_self _) plain with
    ⟨spans, count, found, finds⟩
  rcases finds.blocks with ⟨blocks, spans_eq, blocks_eq⟩
  refine ⟨spans, count, found, ?_, finds.links.trans (Nat.zero_add count)⟩
  have read_eq : (Document.read text).blocks = blocks := blocks_eq
  rw [marks, read_eq]
  exact filterMap_allMarks spans_eq

/-- A text that is read as a sole paragraph is that paragraph as a whole just if there are no
definitions of links in it. -/
theorem paragraphs_eq_iff {text : List Char} (tight : Text.Tight text)
    (sole : isSoleParagraph text) :
    (marks text).filterMap paragraphSpan? = [⟨0, text.length⟩] ↔
      (Document.read text).definitions.links = [] := by
  rcases exists_plain_read (not_isOther_of_isSole sole) with
    ⟨spans, count, plain, spans_eq, count_eq⟩
  rw [isSoleParagraph, Bool.and_eq_true, beq_iff_eq] at sole
  rcases List.length_eq_one_iff.mp sole.1 with ⟨span, one⟩
  rw [one] at spans_eq ⊢
  rw [← spans_eq] at plain
  rw [List.singleton_inj, plain.span_eq_iff tight, ← count_eq, List.length_eq_zero_iff]

/-- A definition in such a text has a bracket and a colon behind its label. -/
theorem colon_of_links {text : List Char} (sole : isSoleParagraph text)
    (some_link : (Document.read text).definitions.links ≠ []) : "]:".toList <:+: text := by
  rcases exists_plain_read (not_isOther_of_isSole sole) with ⟨spans, count, plain, _, count_eq⟩
  apply plain.colon
  rw [← count_eq]
  exact fun none => some_link (List.eq_nil_of_length_eq_zero none)

end Markdown

end Refill
