import Refill.Proofs.Packing.Greedy
import Refill.Proofs.Rewrapping.Settle

/-!
# Lines that do not settle

`Unsettled` tells when lines change if their text is refilled: words make a tag that ends
their line too early, or that lets what stands before it move to the line before. In all
other cases the lines that are found in the text are greedy again (`greedy_settle_iff`).
-/

namespace Refill

open Text Tile BreakTag

/-- The two words make a tag if they stand on one line. -/
structure Token.MakesTag (token next : Token) : Prop where
  kind : token.kind = .word
  next_kind : next.kind = .word
  spaced : next.spaced
  tag : BreakTag.MakesTag token.text next.text

/-- The line ends with a tag, or with words that make one. -/
inductive EndsWithTag : List Token → Prop
  | tag {front : List Token} {tag : Token} (isBreak : tag.isLineBreak) : EndsWithTag (front ++ [tag])
  | words {front : List Token} {token next : Token} (makes : token.MakesTag next) :
      EndsWithTag (front ++ [token, next])

theorem EndsWithTag.of_break {line : List Token}
    (isBreak : ∃ last, line.getLast? = some last ∧ last.isLineBreak) : EndsWithTag line := by
  rcases isBreak with ⟨last, last_eq, isBreak⟩
  rcases List.getLast?_eq_some_iff.mp last_eq with ⟨front, rfl⟩
  exact .tag isBreak

/-- The lines change when their text is refilled. -/
inductive Unsettled (width : Nat) : List (List Token) → Prop
  /-- Two words make a tag behind which their line goes on. -/
  | inside {lines : List (List Token)} {front back : List Token} {token next : Token}
      (mem : front ++ token :: next :: back ∈ lines) (makes : token.MakesTag next)
      (goesOn : next.text ≠ ['/', '>'] ∨ back ≠ []) : Unsettled width lines
  /-- The first two words of a line make a tag, and what the first one shows before the tag fits the
  line before, which does not end with a tag itself. -/
  | ahead {before after : List (List Token)} {line back : List Token} {token next : Token}
      (makes : token.MakesTag next) (stem : stemOf token.text ≠ []) (remains : ¬EndsWithTag line)
      (fits : (lineText line).length + 1 + (stemOf token.text).length ≤ width) :
      Unsettled width (before ++ line :: (token :: next :: back) :: after)

/-! ## Words that make a tag, as tokens and as tiles -/

/-- Where the images of two neighbours stand, the neighbours stand. -/
theorem exists_neighbours {α β : Type} {f : α → β} {items : List α} {front back : List β}
    {first second : β} (map_eq : items.map f = front ++ first :: second :: back) :
    ∃ left item next right, items = left ++ item :: next :: right ∧ left.map f = front ∧
      f item = first ∧ f next = second ∧ right.map f = back := by
  rcases List.map_eq_append_iff.mp map_eq with ⟨left, rest, rfl, left_eq, rest_eq⟩
  rcases List.map_eq_cons_iff.mp rest_eq with ⟨item, more, rfl, item_eq, more_eq⟩
  rcases List.map_eq_cons_iff.mp more_eq with ⟨next, right, rfl, next_eq, right_eq⟩
  exact ⟨left, item, next, right, rfl, left_eq, item_eq, next_eq, right_eq⟩

section Transfer

variable {tile next : Tile} {line : List Tile} {lines : List (List Tile)} {width : Nat}

theorem makesTag_token_iff : tile.token.MakesTag next.token ↔ tile.tidy.Merges next.tidy := by
  constructor
  · intro makes
    refine ⟨makes.kind, makes.next_kind, ?_, makes.tag⟩
    exact if_pos makes.spaced
  · intro merges
    refine ⟨merges.kind, merges.next_kind, ?_, merges.tag⟩
    by_contra other
    have closed : next.isSpaced = false := by simpa [token] using other
    have gap_eq : next.tidyGap = [' '] := merges.gap
    simp [tidyGap, closed] at gap_eq

theorem inside_map_iff :
    Inside (line.map tidy) ↔ ∃ front token next back,
      line.map Tile.token = front ++ token :: next :: back ∧ token.MakesTag next ∧
        (next.text ≠ ['/', '>'] ∨ back ≠ []) := by
  constructor
  · rintro ⟨front, first, second, back, line_eq, merges, goesOn⟩
    rcases exists_neighbours line_eq with ⟨left, tile, next, right, rfl, rfl, rfl, rfl, rfl⟩
    refine ⟨left.map token, tile.token, next.token, right.map token, by simp,
      makesTag_token_iff.mpr merges, ?_⟩
    exact goesOn.imp_right (by simp)
  · rintro ⟨front, first, second, back, line_eq, makes, goesOn⟩
    rcases exists_neighbours line_eq with ⟨left, tile, next, right, rfl, rfl, rfl, rfl, rfl⟩
    refine ⟨left.map tidy, tile.tidy, next.tidy, right.map tidy, by simp,
      makesTag_token_iff.mp makes, ?_⟩
    exact goesOn.imp_right (by simp)

/-- The way in which what stands before a tag moves to the line before. -/
def Ahead (width : Nat) (line next : List Tile) : Prop :=
  ∃ tile second back, next = tile :: second :: back ∧ tile.tidy.Merges second.tidy ∧
    stemOf tile.text ≠ [] ∧ ¬EndsWithTag (line.map token) ∧
    (Token.join (line.map token)).length + 1 + (stemOf tile.text).length ≤ width

theorem unsettled_map_iff (visible : Visible (lines.flatten.map token)) :
    Unsettled width (lines.map (List.map token)) ↔ (∃ line ∈ lines, Inside (line.map tidy)) ∨
      ∃ before line next after, lines = before ++ line :: next :: after ∧ Ahead width line next := by
  have shown : ∀ line ∈ lines, lineText (line.map token) = Token.join (line.map token) := by
    intro line mem
    apply lineText_eq
    intro token inside
    apply visible
    rcases List.mem_map.mp inside with ⟨tile, tileMem, rfl⟩
    exact List.mem_map_of_mem (List.mem_flatten.mpr ⟨line, mem, tileMem⟩)
  constructor
  · intro unsettled
    generalize images_eq : lines.map (List.map token) = images at unsettled
    cases unsettled with
    | inside mem makes goesOn =>
      rw [← images_eq] at mem
      rcases List.mem_map.mp mem with ⟨line, lineMem, line_eq⟩
      exact Or.inl ⟨line, lineMem, inside_map_iff.mpr ⟨_, _, _, _, line_eq, makes, goesOn⟩⟩
    | ahead makes stem remains fits =>
      rcases exists_neighbours images_eq with ⟨before, line, next, after, rfl, rfl, rfl, next_eq, rfl⟩
      rcases List.map_eq_cons_iff.mp next_eq with ⟨tile, rest, rfl, rfl, rest_eq⟩
      rcases List.map_eq_cons_iff.mp rest_eq with ⟨second, back, rfl, rfl, rfl⟩
      rw [shown line (by simp)] at fits
      exact Or.inr ⟨before, line, _, after, rfl, tile, second, back, rfl,
        makesTag_token_iff.mp makes, stem, remains, fits⟩
  · rintro (⟨line, mem, inside⟩ | ⟨before, line, next, after, rfl, ahead⟩)
    · rcases inside_map_iff.mp inside with ⟨front, token, next, back, line_eq, makes, goesOn⟩
      have image_mem : front ++ token :: next :: back ∈ lines.map (List.map Tile.token) := by
        rw [← line_eq]
        exact List.mem_map_of_mem mem
      exact .inside image_mem makes goesOn
    · rcases ahead with ⟨tile, second, back, rfl, merges, stem, remains, fits⟩
      rw [← shown line (by simp)] at fits
      rw [List.map_append, List.map_cons, List.map_cons]
      exact .ahead (makesTag_token_iff.mpr merges) stem remains fits

end Transfer

/-! ## The lines that are found -/

/-- The tokens that are found on a line of a layout. -/
def found (gap : List Char) (line : List Tile) : List Token :=
  (withGap gap (settle line)).map token

section Found

variable {tile next : Tile} {line other : List Tile} {lines : List (List Tile)} {width : Nat}
  {gap : List Char}

theorem map_laidOut_settle (line : List Tile) (lines : List (List Tile)) :
    (laidOut ((line :: lines).map settle)).map (List.map token) =
      found [] line :: lines.map (found ['\n']) := by
  rw [List.map_cons, laidOut, List.map_cons, map_tidy_settle, List.map_map, List.map_map]
  refine congrArg _ (List.map_congr_left ?_)
  intro other _
  rw [Function.comp_apply, Function.comp_apply, map_tidy_settle, found]

theorem found_ne_nil (nonempty : line ≠ []) : found gap line ≠ [] := by
  rcases List.exists_cons_of_ne_nil (settle_ne_nil nonempty) with ⟨first, rest, settle_eq⟩
  simp [found, settle_eq]

theorem join_found (nonempty : line ≠ []) : Token.join (found gap line) = Token.join (line.map token) := by
  have first : Token.join (found gap line) = Token.join ((settle line).map token) := by
    rcases List.exists_cons_of_ne_nil (settle_ne_nil nonempty) with ⟨first, rest, settle_eq⟩
    rw [found, settle_eq]
    rfl
  have shown := weave_withGap_tidy (settle_ne_nil nonempty) []
  rw [map_tidy_settle, settle, ← withGap_reread, weave_reread, weave_withGap_tidy nonempty,
    List.nil_append, List.nil_append] at shown
  rw [first, settle, shown]

theorem kind_found : (found gap line).map Token.kind = (settle line).map Tile.kind := by
  rw [found]
  cases settle line with
  | nil => rfl
  | cons first rest => simp [token]

theorem unbroken_iff {line : List Token} :
    (∀ token ∈ line.dropLast, token.isLineBreak = false) ↔
      .lineBreak ∉ (line.map Token.kind).dropLast := by
  simp [← List.map_dropLast, Token.isLineBreak]

theorem map_kind_merge (text_eq : next.text = ['/', '>']) (word : tile.kind = .word) :
    (tile.merge next).map Tile.kind =
      (if stemOf tile.text = [] then [] else [Token.Kind.word]) ++ [.lineBreak] := by
  by_cases stem : stemOf tile.text = []
  · simp [merge, stem, text_eq]
  · simp [merge, stem, text_eq, word]

/-- In the line that is found nothing comes behind a break, unless words make a tag inside it. -/
theorem packed_found_iff (packed : Packed width (line.map token)) :
    Packed width (found gap line) ↔ ¬Inside (line.map tidy) := by
  have nonempty : line ≠ [] := by simpa using packed.nonempty
  have kinds : (line.map token).map Token.kind = (line.map tidy).map Tile.kind := by
    simp [token, tidy]
  have unbroken := unbroken_iff.mp packed.unbroken
  rw [kinds] at unbroken
  constructor
  · intro foundPacked inside
    rcases exists_inner_break inside with ⟨piece, mem, isBreak⟩
    apply unbroken_iff.mp foundPacked.unbroken
    rw [kind_found, ← List.map_dropLast, ← isBreak]
    exact List.mem_map_of_mem mem
  · intro outside
    refine ⟨found_ne_nil nonempty, ?_, ?_⟩
    · intro two
      rw [join_found nonempty]
      apply packed.fits
      rcases line with _ | ⟨first, _ | ⟨second, rest⟩⟩
      · exact absurd rfl nonempty
      · simp [found, settle, attach] at two
      · simp
    · rw [unbroken_iff, kind_found, settle]
      rcases reread_of_outside outside with unmerged | ⟨front, tile, next, line_eq, merges, text_eq,
        reread_eq⟩
      · rwa [reread_of_unmerged unmerged]
      · rw [reread_eq, List.map_append, map_kind_merge text_eq merges.kind, ← List.append_assoc,
          List.dropLast_concat]
        have others : .lineBreak ∉ front.map Tile.kind := by
          intro mem
          apply unbroken
          rw [line_eq, List.map_append, List.dropLast_append_of_ne_nil (by simp)]
          exact List.mem_append_left _ mem
        split <;> simpa using others

theorem exists_break_iff {line : List Token} :
    (∃ last, line.getLast? = some last ∧ last.isLineBreak) ↔
      (line.map Token.kind).getLast? = some .lineBreak := by
  simp [Token.isLineBreak]

/-- The line that is found ends with a tag if the line did so. -/
theorem ends_found_iff (outside : ¬Inside (line.map tidy)) :
    (∃ last, (found gap line).getLast? = some last ∧ last.isLineBreak) ↔
      EndsWithTag (line.map token) := by
  have kinds : (line.map token).map Token.kind = (line.map tidy).map Tile.kind := by
    simp [token, tidy]
  rw [exists_break_iff, kind_found, settle]
  rcases reread_of_outside outside with unmerged | ⟨front, first, second, line_eq, merges, text_eq,
    reread_eq⟩
  · rw [reread_of_unmerged unmerged, ← kinds, ← exists_break_iff]
    constructor
    · exact .of_break
    · intro ends
      generalize image_eq : line.map token = image at ends
      cases ends with
      | @tag front tag isBreak => exact ⟨tag, by simp, isBreak⟩
      | words makes =>
        rcases exists_neighbours image_eq with ⟨left, tile, next, right, rfl, rfl, rfl, rfl, _⟩
        rw [List.map_append, List.map_cons, List.map_cons] at unmerged
        have apart := (List.isChain_append_cons_cons.mp unmerged).2.1
        exact absurd (makesTag_token_iff.mp makes) apart
  · rw [reread_eq, List.map_append, map_kind_merge text_eq merges.kind, ← List.append_assoc,
      List.getLast?_concat]
    rcases exists_neighbours line_eq with ⟨left, tile, next, right, rfl, rfl, rfl, rfl, right_eq⟩
    rw [List.map_eq_nil_iff.mp right_eq, List.map_append, List.map_cons, List.map_cons,
      List.map_nil]
    exact iff_of_true rfl (.words (makesTag_token_iff.mpr merges))

theorem head?_found (apart : ∀ next, line.head? = some next → ¬tile.tidy.Merges next.tidy) :
    (found ['\n'] (tile :: line)).head? = some ⟨tile.kind, tile.text, !tile.isDestination⟩ := by
  have settle_eq : settle (tile :: line) = tile.tidy :: settle line := by
    have whole : reread ([tile.tidy] ++ line.map tidy) = reread [tile.tidy] ++ reread (line.map tidy) := by
      apply reread_append
      intro first second first_eq second_eq
      cases first_eq
      rw [List.head?_map, Option.map_eq_some_iff] at second_eq
      rcases second_eq with ⟨next, next_eq, rfl⟩
      exact apart next next_eq
    exact whole
  rw [found, settle_eq]
  rfl

theorem head?_found_merged (merges : tile.tidy.Merges next.tidy) :
    (found ['\n'] [tile, next]).head? =
      if stemOf tile.text = [] then
        some ⟨.lineBreak, nameOf tile.text ++ [' ', '/', '>'], true⟩
      else some ⟨tile.kind, stemOf tile.text, !tile.isDestination⟩ := by
  have settle_eq : settle [tile, next] = tile.tidy.merge next.tidy := by
    rw [settle, List.map_cons, List.map_cons, List.map_nil, reread_cons, reread_cons, reread_nil,
      attach, attach, if_pos merges, List.append_nil]
  have text_eq : tile.tidy.text = tile.text := rfl
  rw [found, settle_eq, merge, text_eq]
  by_cases stem : stemOf tile.text = []
  · rw [if_pos stem, if_pos stem, if_pos stem]
    rfl
  · rw [if_neg stem, if_neg stem, if_neg stem]
    rfl

theorem length_spacedText (token : Token) :
    token.spacedText.length = token.text.length + if token.spaced then 1 else 0 := by
  cases spaced : token.spaced <;> simp [Token.spacedText, spaced]

/-- A line that does not end with a break closes before a token that does not fit. -/
theorem closes_iff {line next : List Token} (nonempty : line ≠ [])
    (remains : ¬∃ last, line.getLast? = some last ∧ last.isLineBreak) :
    Closes width line next ↔ ∀ first, next.head? = some first →
      width < (Token.join line).length + first.spacedText.length := by
  rw [Closes, or_iff_right remains]
  refine forall_congr' fun first => ?_
  rw [Token.join_concat nonempty, List.length_append]

/-- A tile that did not fit the line before does not fit it behind a newline. -/
theorem wide_found {before : Nat} (wide : width < before + tile.token.spacedText.length)
    (apart : ∀ next, line.head? = some next → ¬tile.tidy.Merges next.tidy) :
    ∀ first, (found ['\n'] (tile :: line)).head? = some first →
      width < before + first.spacedText.length := by
  intro first first_eq
  rw [head?_found apart] at first_eq
  cases first_eq
  rw [length_spacedText] at wide ⊢
  cases isDestination : tile.isDestination with
  | false =>
    simp only [Bool.not_false, if_true]
    have spaced_le : (if tile.token.spaced then 1 else 0) ≤ 1 := by split <;> omega
    have text_eq : tile.token.text = tile.text := rfl
    rw [text_eq] at wide
    omega
  | true => simpa [token, isSpaced, isDestination] using wide

/-- A tag that words make at the front of a line fits the line before just if something stands
before the tag and fits there. -/
theorem wide_found_iff {before : Nat} (wide : width < before + tile.token.spacedText.length)
    (merges : tile.tidy.Merges next.tidy) (inner : tile.isDestination = false) :
    (∀ first, (found ['\n'] [tile, next]).head? = some first →
      width < before + first.spacedText.length) ↔
      (stemOf tile.text ≠ [] → width < before + 1 + (stemOf tile.text).length) := by
  have name_length : (nameOf tile.text).length = 3 := merges.tag.1.length_eq
  have text_length := congrArg List.length (stemOf_append_nameOf tile.text)
  rw [List.length_append, name_length] at text_length
  rw [head?_found_merged merges, inner]
  by_cases stem : stemOf tile.text = []
  · refine iff_of_true ?_ (fun nonempty => absurd stem nonempty)
    intro first first_eq
    rw [if_pos stem] at first_eq
    cases first_eq
    have spaced_le : (if tile.token.spaced then 1 else 0) ≤ 1 := by split <;> omega
    have text_eq : tile.token.text = tile.text := rfl
    rw [length_spacedText, text_eq] at wide
    rw [length_spacedText]
    simp only [stem, List.length_nil] at text_length
    simp only [List.length_append, name_length, List.length_cons, List.length_nil, if_true]
    omega
  · rw [if_neg stem, imp_iff_right stem]
    simp only [Option.some.injEq, forall_eq', length_spacedText, Bool.not_false, if_true]
    constructor <;> intro fits <;> omega

/-- The next line that is found had to be begun there, unless what stands before its tag fits. -/
theorem closes_found_iff (nonempty : line ≠ []) (otherNonempty : other ≠ [])
    (closes : Closes width (line.map token) (other.map token))
    (outside : ¬Inside (line.map tidy)) (otherOutside : ¬Inside (other.map tidy))
    (inner : ∀ tile ∈ other, tile.kind = .word → tile.isDestination = false) :
    Closes width (found gap line) (found ['\n'] other) ↔ ¬Ahead width line other := by
  by_cases ends : EndsWithTag (line.map token)
  · refine iff_of_true (Or.inl ((ends_found_iff outside).mpr ends)) ?_
    rintro ⟨tile, second, back, _, _, _, remains, _⟩
    exact remains ends
  · rw [closes_iff (by simpa using nonempty) fun isBreak => ends (.of_break isBreak)] at closes
    rw [closes_iff (found_ne_nil nonempty) (fun last => ends ((ends_found_iff outside).mp last)),
      join_found nonempty]
    rcases List.exists_cons_of_ne_nil otherNonempty with ⟨tile, rest, rfl⟩
    have wide := closes tile.token rfl
    -- The first tile of the next line is found again, unless it is the first word of a tag.
    by_cases merged : ∃ second, rest.head? = some second ∧ tile.tidy.Merges second.tidy
    · rcases merged with ⟨second, head_eq, merges⟩
      rcases List.head?_eq_some_iff.mp head_eq with ⟨back, rfl⟩
      -- Nothing comes behind the tag, or it would be inside the next line.
      have empty : back = [] := by
        by_contra more
        exact otherOutside ⟨[], tile.tidy, second.tidy, back.map tidy, rfl, merges,
          Or.inr (by simpa using more)⟩
      subst empty
      rw [wide_found_iff wide merges (inner tile (by simp) merges.kind)]
      constructor
      · rintro wide ⟨_, _, _, same, _, stem, _, fits⟩
        cases same
        exact absurd (wide stem) (Nat.not_lt_of_le fits)
      · intro notAhead stem
        by_contra narrow
        exact notAhead ⟨tile, second, [], rfl, merges, stem, ends, Nat.le_of_not_lt narrow⟩
    · have apart : ∀ next, rest.head? = some next → ¬tile.tidy.Merges next.tidy :=
        fun next head_eq merges => merged ⟨next, head_eq, merges⟩
      refine iff_of_true (wide_found wide apart) ?_
      rintro ⟨_, second, _, same, merges, _⟩
      cases same
      exact apart second rfl merges

theorem chain_found_iff (nonempty : ∀ other ∈ line :: lines, other ≠ [])
    (closes : ((line :: lines).map (List.map token)).IsChain (Closes width))
    (outside : ∀ other ∈ line :: lines, ¬Inside (other.map tidy))
    (inner : ∀ other ∈ line :: lines, ∀ tile ∈ other, tile.kind = .word → tile.isDestination = false) :
    (found gap line :: lines.map (found ['\n'])).IsChain (Closes width) ↔
      (line :: lines).IsChain fun line next => ¬Ahead width line next := by
  induction lines generalizing gap line with
  | nil => exact iff_of_true (.singleton _) (.singleton _)
  | cons next lines ih =>
    rw [List.forall_mem_cons] at nonempty outside inner
    rw [List.map_cons, List.map_cons, List.isChain_cons_cons] at closes
    rw [List.map_cons, List.isChain_cons_cons, List.isChain_cons_cons,
      ih nonempty.2 closes.2 outside.2 inner.2]
    exact and_congr_left fun _ => closes_found_iff nonempty.1 (nonempty.2 next (by simp)) closes.1
      outside.1 (outside.2 next (by simp)) (inner.2 next (by simp))

/-- The lines that are found are greedy if the lines do not change when they are refilled. -/
theorem greedy_settle_iff (greedy : Greedy width (lines.map (List.map token)))
    (visible : Visible (lines.flatten.map token))
    (inner : ∀ tile ∈ lines.flatten, tile.kind = .word → tile.isDestination = false) :
    Greedy width ((laidOut (lines.map settle)).map (List.map token)) ↔
      ¬Unsettled width (lines.map (List.map token)) := by
  have packed : ∀ line ∈ lines, Packed width (line.map token) :=
    fun line mem => greedy.packed _ (List.mem_map_of_mem mem)
  have nonempty : ∀ line ∈ lines, line ≠ [] := by
    intro line mem
    simpa using (packed line mem).nonempty
  have innerLines : ∀ line ∈ lines, ∀ tile ∈ line, tile.kind = .word → tile.isDestination = false :=
    fun line mem tile inside => inner tile (List.mem_flatten.mpr ⟨line, mem, inside⟩)
  rw [unsettled_map_iff visible, not_or]
  cases lines with
  | nil => exact iff_of_true ⟨by simp [laidOut], .nil⟩ ⟨by simp, by simp⟩
  | cons line lines =>
    rw [map_laidOut_settle]
    have packed_iff : (∀ again ∈ found [] line :: lines.map (found ['\n']), Packed width again) ↔
        ¬∃ other ∈ line :: lines, Inside (other.map tidy) := by
      rw [List.forall_mem_cons] at packed
      rw [List.forall_mem_cons, packed_found_iff packed.1, List.forall_mem_map]
      simp only [List.exists_mem_cons_iff, not_or, not_exists, not_and]
      exact and_congr_right fun _ => forall₂_congr fun other mem => packed_found_iff (packed.2 other mem)
    have closes_iff : (¬∃ other ∈ line :: lines, Inside (other.map tidy)) →
        ((found [] line :: lines.map (found ['\n'])).IsChain (Closes width) ↔
          (line :: lines).IsChain fun line next => ¬Ahead width line next) := by
      intro outside
      exact chain_found_iff nonempty greedy.closes
        (fun other mem inside => outside ⟨other, mem, inside⟩) innerLines
    simp only [List.isChain_iff_forall_rel_of_append_cons_cons (l := line :: lines)] at closes_iff
    constructor
    · intro again
      have outside := packed_iff.mp again.packed
      refine ⟨outside, ?_⟩
      rintro ⟨before, other, next, after, lines_eq, ahead⟩
      exact (closes_iff outside).mp again.closes lines_eq ahead
    · rintro ⟨outside, settled⟩
      refine ⟨packed_iff.mpr outside, (closes_iff outside).mpr ?_⟩
      intro other next before after lines_eq ahead
      exact settled ⟨before, other, next, after, lines_eq, ahead⟩

end Found

end Refill
