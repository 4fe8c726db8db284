import Mathlib.Data.List.Forall2
import Refill.Proofs.Packing.Lines
import Refill.Proofs.Tiling.Paragraph

/-!
# The layout of a paragraph

A layout changes the gaps of a text and nothing else: its lines show the same tokens, a
newline stands before the first token of each line but the first one, and within a line a
space stands before the tokens that are spaced (`layout_tiles`). So what is visible remains,
and between two tokens there is nothing, a space or a newline (`refill_content`).
-/

namespace Refill

open Text Tile

/-- The tiles with the gaps they have in the given lines. -/
def relay : List (List Tile) → List Tile
  | [] => []
  | line :: lines =>
      withGap [] (line.map tidy) ++ lines.flatMap fun other => withGap ['\n'] (other.map tidy)

/-- The tile with other blanks before it; where the token is spaced, some blanks remain. -/
structure Tile.Regapped (tile other : Tile) : Prop where
  kind : other.kind = tile.kind
  text : other.text = tile.text
  destination : other.isDestination = tile.isDestination
  blank : Blank other.gap
  spaced : tile.isSpaced → other.gap ≠ []

theorem Tile.Regapped.sound {tile other : Tile} (regapped : tile.Regapped other)
    (sound : tile.Sound) : other.Sound where
  gap := regapped.blank
  text := by rw [regapped.text]; exact sound.text
  atomic := by rw [regapped.destination, regapped.kind]; exact sound.atomic

theorem sound_of_regapped {tiles others : List Tile} (sound : ∀ tile ∈ tiles, tile.Sound)
    (regapped : List.Forall₂ Regapped tiles others) : ∀ other ∈ others, other.Sound := by
  induction regapped with
  | nil => exact sound
  | @cons tile other tiles others first _ ih =>
    rw [List.forall_mem_cons] at sound ⊢
    exact ⟨first.sound sound.1, ih sound.2⟩

/-- Lines of images come from lines of the things themselves. -/
theorem exists_lines {α β : Type} {f : α → β} {images : List (List β)} {items : List α}
    (flatten_eq : images.flatten = items.map f) :
    ∃ lines : List (List α), lines.flatten = items ∧ lines.map (List.map f) = images := by
  induction images generalizing items with
  | nil =>
    have empty : items = [] := by simpa using flatten_eq.symm
    exact ⟨[], by simp [empty], rfl⟩
  | cons first others ih =>
    rw [List.flatten_cons] at flatten_eq
    rcases List.map_eq_append_iff.mp flatten_eq.symm with ⟨front, back, rfl, front_eq, back_eq⟩
    rcases ih back_eq.symm with ⟨lines, lines_eq, map_eq⟩
    exact ⟨front :: lines, by simp [lines_eq], by simp [front_eq, map_eq]⟩

/-! ## The gaps in a layout -/

section Relay

variable {line : List Tile} {lines : List (List Tile)}

theorem regapped_tidy (tile : Tile) : tile.Regapped tile.tidy where
  kind := rfl
  text := rfl
  destination := rfl
  blank := by
    unfold tidy tidyGap
    split <;> simp [Blank, isBlank]
  spaced := by
    intro spaced
    simp [tidy, tidyGap, spaced]

theorem forall_tidy (line : List Tile) : List.Forall₂ Regapped line (line.map tidy) := by
  induction line with
  | nil => exact .nil
  | cons tile line ih => exact .cons (regapped_tidy tile) ih

theorem forall_withGap {gap : List Char} (blank : Blank gap)
    (opened : ∀ tile, line.head? = some tile → tile.isSpaced → gap ≠ []) :
    List.Forall₂ Regapped line (withGap gap (line.map tidy)) := by
  cases line with
  | nil => exact .nil
  | cons tile line => exact .cons ⟨rfl, rfl, rfl, blank, opened tile rfl⟩ (forall_tidy line)

/-- A layout only changes gaps. -/
theorem forall_relay (first : ∀ tile, lines.flatten.head? = some tile → tile.isSpaced = false)
    (nonempty : ∀ line ∈ lines, line ≠ []) :
    List.Forall₂ Regapped lines.flatten (relay lines) := by
  cases lines with
  | nil => exact .nil
  | cons line lines =>
    rw [List.flatten_cons, relay]
    apply List.rel_append
    · apply forall_withGap Blank.nil
      intro tile head_eq spaced
      rw [first tile (by simp [head_eq])] at spaced
      cases spaced
    · have later : ∀ lines : List (List Tile), List.Forall₂ Regapped lines.flatten
          (lines.flatMap fun other => withGap ['\n'] (other.map tidy)) := by
        intro lines
        induction lines with
        | nil => exact .nil
        | cons other lines ih =>
          rw [List.flatten_cons, List.flatMap_cons]
          exact List.rel_append (forall_withGap (by simp [Blank, isBlank]) (by simp)) ih
      exact later lines

/-- The lines show the tiles with the gaps of the layout. -/
theorem weave_relay (nonempty : ∀ line ∈ lines, line ≠ []) :
    weave (relay lines) =
      ['\n'].intercalate (lines.map fun line => Token.join (line.map token)) := by
  cases lines with
  | nil => rfl
  | cons line lines =>
    have first := nonempty line (by simp)
    have others : ∀ other ∈ lines, other ≠ [] :=
      fun other mem => nonempty other (List.mem_cons_of_mem line mem)
    rw [relay, weave_append, weave_withGap_tidy first, List.nil_append]
    clear nonempty
    induction lines generalizing line with
    | nil => simp [List.intercalate]
    | cons other lines ih =>
      have second := others other (by simp)
      rw [List.flatMap_cons, weave_append, weave_withGap_tidy second, List.append_assoc,
        ih other second fun another mem => others another (List.mem_cons_of_mem other mem)]
      simp [List.intercalate]

end Relay

namespace Paragraph

variable {text : List Char}

theorem visible_tokens (text : List Char) : Visible (tokens text) := by
  rw [← map_token_tiles]
  intro token mem
  rcases List.mem_map.mp mem with ⟨tile, tileMem, rfl⟩
  exact ((tiles_trim text).sound tile tileMem).text.nonempty

/-- The lines of a paragraph, and their text as tiles. -/
theorem layout_tiles (text : List Char) (width : Nat) :
    ∃ lines : List (List Tile), lines.flatten = tiles text ∧
      pack width (tokens text) = lines.map (List.map token) ∧
      (∀ line ∈ lines, line ≠ []) ∧ List.Forall₂ Regapped (tiles text) (relay lines) ∧
      fill width text = weave (relay lines) := by
  have visible := visible_tokens text
  have flatten_eq := flatten_pack width visible
  rw [← map_token_tiles text] at flatten_eq
  rcases exists_lines flatten_eq with ⟨lines, lines_eq, pack_eq⟩
  rw [map_token_tiles] at pack_eq
  have nonempty : ∀ line ∈ lines, line ≠ [] := by
    intro line mem
    have packed : line.map token ∈ pack width (tokens text) := by
      rw [← pack_eq]
      exact List.mem_map_of_mem mem
    simpa using ne_nil_of_mem_pack visible _ packed
  refine ⟨lines, lines_eq, pack_eq.symm, nonempty, ?_, ?_⟩
  · rw [← lines_eq]
    apply forall_relay _ nonempty
    intro tile head_eq
    rw [lines_eq] at head_eq
    simp [isSpaced, ((tiles_trim text).starts tile head_eq).1]
  · rw [fill, layout_eq visible, ← pack_eq, weave_relay nonempty, List.map_map]
    rfl

/-! ## What a layout preserves -/

theorem filter_of_blank {blanks : List Char} (blank : Blank blanks) :
    blanks.filter isVisible = [] := by
  rw [List.filter_eq_nil_iff]
  intro c mem
  simp [isVisible, blank c mem]

/-- What is visible of tiles is what is visible of their texts. -/
theorem filter_weave {tiles : List Tile} (blank : ∀ tile ∈ tiles, Blank tile.gap) :
    (weave tiles).filter isVisible = (tiles.map Tile.text).flatten.filter isVisible := by
  induction tiles with
  | nil => rfl
  | cons tile tiles ih =>
    have rest := ih fun other mem => blank other (List.mem_cons_of_mem tile mem)
    simp [filter_of_blank (blank tile (by simp)), rest]

theorem filter_tiles (text : List Char) :
    ((tiles text).map Tile.text).flatten.filter isVisible = text.filter isVisible := by
  rw [← filter_weave fun tile mem => ((tiles_trim text).sound tile mem).gap, (tiles_trim text).weave_eq]
  have text_eq := congrArg (List.filter isVisible) (leading_append text)
  simpa [filter_of_blank (blank_leading text), filter_of_blank (blank_trailing text)] using text_eq

theorem map_text_of_regapped {tiles others : List Tile} (regapped : List.Forall₂ Regapped tiles others) :
    others.map Tile.text = tiles.map Tile.text := by
  induction regapped with
  | nil => rfl
  | cons first _ ih => simp [first.text, ih]

theorem gap_of_mem_relay {lines : List (List Tile)} {tile : Tile} (mem : tile ∈ relay lines) :
    tile.gap ∈ [[], [' '], ['\n']] := by
  have inside : ∀ {gap : List Char} {line : List Tile}, gap ∈ [[], [' '], ['\n']] →
      tile ∈ withGap gap (line.map tidy) → tile.gap ∈ [[], [' '], ['\n']] := by
    intro gap line gap_mem mem
    cases line with
    | nil => cases mem
    | cons first line =>
      rcases List.mem_cons.mp mem with rfl | mem
      · exact gap_mem
      · rcases List.mem_map.mp mem with ⟨other, _, rfl⟩
        unfold tidy tidyGap
        split <;> simp
  cases lines with
  | nil => cases mem
  | cons line lines =>
    rcases List.mem_append.mp mem with mem | mem
    · exact inside (by simp) mem
    · rcases List.mem_flatMap.mp mem with ⟨other, _, mem⟩
      exact inside (by simp) mem

theorem blank_of_mem_relay {lines : List (List Tile)} {tile : Tile} (mem : tile ∈ relay lines) :
    Blank tile.gap := by
  have gap_mem := gap_of_mem_relay mem
  simp only [List.mem_cons, List.not_mem_nil, or_false] at gap_mem
  rcases gap_mem with gap_eq | gap_eq | gap_eq <;> rw [gap_eq] <;> simp [Blank, isBlank]

theorem filter_fill (width : Nat) (text : List Char) :
    (fill width text).filter isVisible = text.filter isVisible := by
  rcases layout_tiles text width with ⟨lines, _, _, _, regapped, fill_eq⟩
  rw [fill_eq, filter_weave fun tile mem => blank_of_mem_relay mem, map_text_of_regapped regapped,
    filter_tiles]

theorem head_gap_relay {lines : List (List Tile)} (nonempty : ∀ line ∈ lines, line ≠ [])
    (gap : List Char) (head_eq : ((relay lines).map Tile.gap).head? = some gap) : gap = [] := by
  cases lines with
  | nil => cases head_eq
  | cons line lines =>
    cases line with
    | nil => exact absurd rfl (nonempty [] (by simp))
    | cons tile line =>
      cases head_eq
      rfl

/-- The texts one after the other, each behind its separator. -/
def spread (separators texts : List (List Char)) : List Char :=
  (List.zipWith (· ++ ·) separators texts).flatten

theorem weave_eq_spread (tiles : List Tile) :
    weave tiles = spread (tiles.map Tile.gap) (tiles.map Tile.text) := by
  rw [spread, List.zipWith_map, List.zipWith_self, weave, List.flatMap_def]
  rfl

theorem refill_eq {width : Nat} (text : List Char) (positive : 1 ≤ width) :
    refill text width = .ok (fill width text) :=
  wrapTokens_of_pos (tokens text) positive

/-- Refilling succeeds. It preserves everything that is visible, and it shows the texts of the
tokens as they are, with nothing, a space or a newline between them. -/
theorem refill_content (text : List Char) (width : Nat) (positive : 1 ≤ width) :
    ∃ output, refill text width = .ok output ∧
      output.filter isVisible = text.filter isVisible ∧
      ∃ separators, separators.length = (tokens text).length ∧
        (∀ separator ∈ separators, separator ∈ [[], [' '], ['\n']]) ∧
        (∀ first, separators.head? = some first → first = []) ∧
        output = spread separators ((tokens text).map Token.text) := by
  rcases layout_tiles text width with ⟨lines, lines_eq, _, nonempty, regapped, fill_eq⟩
  have texts := map_text_of_regapped regapped
  refine ⟨fill width text, refill_eq text positive, ?_, (relay lines).map Tile.gap, ?_, ?_, ?_, ?_⟩
  · rw [fill_eq, filter_weave, texts, filter_tiles]
    exact fun tile mem => blank_of_mem_relay mem
  · rw [List.length_map, ← regapped.length_eq, ← map_token_tiles, List.length_map]
  · intro separator mem
    rcases List.mem_map.mp mem with ⟨tile, tileMem, rfl⟩
    exact gap_of_mem_relay tileMem
  · intro first head_eq
    exact head_gap_relay nonempty first head_eq
  · rw [fill_eq, weave_eq_spread, texts, ← map_token_tiles, List.map_map]
    rfl

/-- A text with a code span that is wider than a line, in lines of three characters. -/
theorem refill_content_narrow :
    1 ≤ 3 ∧ ∃ output, refill "a  `b c`, d".toList 3 = .ok output ∧
      output.filter isVisible = "a  `b c`, d".toList.filter isVisible ∧
      ∃ separators, separators.length = (tokens "a  `b c`, d".toList).length ∧
        (∀ separator ∈ separators, separator ∈ [[], [' '], ['\n']]) ∧
        (∀ first, separators.head? = some first → first = []) ∧
        output = spread separators ((tokens "a  `b c`, d".toList).map Token.text) :=
  ⟨by decide, refill_content "a  `b c`, d".toList 3 (by decide)⟩

end Paragraph

end Refill
