import Mathlib.Data.List.Basic
import Refill.Proofs.Text.Trim
import Refill.Token

/-!
# Tiles

A tile is a token together with the blanks before it. Tiles side by side make up a text
(`weave`), so a list of tiles tells where in a text its tokens stand, and from the blanks
before a tile follows whether its token is spaced.

A text without blanks at its ends can be tiled in stages: in a tiling, a tile may be
exchanged for a tiling of its text (`Tiles.flatMap`).
-/

namespace Refill

open Text

/-- A token with the blanks before it. -/
structure Tile where
  gap : List Char
  kind : Token.Kind
  text : List Char
  /-- Whether the token is the destination of a link, which is never spaced. -/
  isDestination : Bool
  deriving DecidableEq, Repr

namespace Tile

def isPlain (tile : Tile) : Bool :=
  tile.kind == .plain

def isSpaced (tile : Tile) : Bool :=
  !tile.gap.isEmpty && !tile.isDestination

def token (tile : Tile) : Token where
  kind := tile.kind
  text := tile.text
  spaced := tile.isSpaced

def source (tile : Tile) : List Char :=
  tile.gap ++ tile.text

/-- The text that the tiles make up. -/
def weave (tiles : List Tile) : List Char :=
  tiles.flatMap source

def withGap (gap : List Char) : List Tile → List Tile
  | [] => []
  | first :: others => { first with gap } :: others

/-- The space that the token has before it within a line. -/
def tidyGap (tile : Tile) : List Char :=
  if tile.isSpaced then [' '] else []

/-- The tile with the space that its token has within a line. -/
def tidy (tile : Tile) : Tile :=
  { tile with gap := tile.tidyGap }

/-- There are only blanks in the gap, and the text has none at its ends. -/
structure Sound (tile : Tile) : Prop where
  gap : Blank tile.gap
  text : Tight tile.text
  atomic : tile.isDestination → tile.kind = .atomic

@[simp]
theorem weave_nil : weave [] = [] := rfl

@[simp]
theorem weave_cons (tile : Tile) (tiles : List Tile) :
    weave (tile :: tiles) = tile.gap ++ (tile.text ++ weave tiles) := by
  simp [weave, source]

@[simp]
theorem weave_append (front back : List Tile) : weave (front ++ back) = weave front ++ weave back :=
  List.flatMap_append

@[simp]
theorem withGap_cons (gap : List Char) (tile : Tile) (tiles : List Tile) :
    withGap gap (tile :: tiles) = { tile with gap } :: tiles := rfl

theorem spacedText_token (tile : Tile) : tile.token.spacedText = tile.tidy.source := by
  cases spaced : tile.isSpaced <;>
    simp [Token.spacedText, token, tidy, tidyGap, source, spaced]

/-- Within a line, the tiles show the join of their tokens. -/
theorem weave_withGap_tidy {line : List Tile} (nonempty : line ≠ []) (gap : List Char) :
    weave (withGap gap (line.map tidy)) = gap ++ Token.join (line.map token) := by
  cases line with
  | nil => exact absurd rfl nonempty
  | cons tile line =>
    have others : weave (line.map tidy) = (line.map token).flatMap Token.spacedText := by
      rw [weave, List.flatMap_map, List.flatMap_map]
      apply List.flatMap_congr
      intro other _
      exact (spacedText_token other).symm
    simp [others, Token.join, tidy, token]

theorem isPlain_token (tile : Tile) : tile.token.isPlain = tile.isPlain := rfl

theorem isPlain_iff {tile : Tile} : tile.isPlain ↔ tile.kind = .plain := by
  simp [isPlain]

/-- What the tiles make up, apart from the first gap, has no blanks at its ends. -/
theorem tight_weave {tile : Tile} {tiles : List Tile} (sound : ∀ other ∈ tile :: tiles, other.Sound) :
    Tight (tile.text ++ weave tiles) := by
  induction tiles generalizing tile with
  | nil => simpa using (sound tile (by simp)).text
  | cons next tiles ih =>
    have first := (sound tile (by simp)).text
    have rest : Tight (next.text ++ weave tiles) := by
      apply ih
      intro other mem
      exact sound other (List.mem_cons_of_mem tile mem)
    refine ⟨by simp [first.nonempty], first.startsBlank_append_right _, ?_⟩
    rw [weave_cons, ← List.append_assoc]
    exact rest.endsBlank_append_left _

end Tile

/-! ## Tilings -/

open Tile

/-- The tiles make up the text, which begins with the first token. -/
structure Tiles (text : List Char) (tiles : List Tile) : Prop where
  weave_eq : weave tiles = text
  sound : ∀ tile ∈ tiles, tile.Sound
  starts : ∀ tile, tiles.head? = some tile → tile.gap = [] ∧ tile.isDestination = false

namespace Tiles

variable {text : List Char} {tiles : List Tile}

theorem exists_cons (tiling : Tiles text tiles) (nonempty : text ≠ []) :
    ∃ first others, tiles = first :: others ∧ first.gap = [] ∧ first.isDestination = false := by
  cases tiles with
  | nil => exact absurd tiling.weave_eq.symm nonempty
  | cons first others => exact ⟨first, others, rfl, tiling.starts first rfl⟩

/-- The gap before the first tile is what it takes to begin the text with its first token. -/
theorem of_weave (tight : Tight text) (weave_eq : weave tiles = text)
    (sound : ∀ tile ∈ tiles, tile.Sound)
    (first : ∀ tile, tiles.head? = some tile → tile.isDestination = false) : Tiles text tiles where
  weave_eq := weave_eq
  sound := sound
  starts := by
    intro tile head_eq
    refine ⟨?_, first tile head_eq⟩
    rcases List.head?_eq_some_iff.mp head_eq with ⟨others, rfl⟩
    apply (sound tile (by simp)).gap.eq_nil_of_starts
    rw [← weave_cons, weave_eq]
    exact tight.starts

theorem weave_withGap (tiling : Tiles text tiles) (nonempty : text ≠ []) (gap : List Char) :
    weave (withGap gap tiles) = gap ++ text := by
  rcases tiling.exists_cons nonempty with ⟨first, others, rfl, gap_eq, _⟩
  simp [← tiling.weave_eq, gap_eq]

theorem sound_withGap (tiling : Tiles text tiles) {gap : List Char} (blank : Blank gap) :
    ∀ tile ∈ withGap gap tiles, tile.Sound := by
  cases tiles with
  | nil => simp [withGap]
  | cons first others =>
    intro tile mem
    have sound := tiling.sound first (by simp)
    rcases List.mem_cons.mp mem with rfl | mem
    · exact ⟨blank, sound.text, sound.atomic⟩
    · exact tiling.sound tile (List.mem_cons_of_mem first mem)

end Tiles

/-! ## Tilings in stages -/

namespace Tile

/-- The tile itself, or if it is plain, the tiles its text is cut into. -/
def cutWith (stage : List Char → List Tile) (tile : Tile) : List Tile :=
  if tile.isPlain then withGap tile.gap (stage tile.text) else [tile]

variable {stage : List Char → List Tile} {tile : Tile}

theorem cutWith_of_plain (plain : tile.isPlain) :
    tile.cutWith stage = withGap tile.gap (stage tile.text) :=
  if_pos plain

theorem cutWith_of_not_plain (other : tile.isPlain = false) : tile.cutWith stage = [tile] := by
  simp [cutWith, other]

variable (tiling : ∀ text, Tight text → Tiles text (stage text))
include tiling

theorem weave_cutWith (sound : tile.Sound) : weave (tile.cutWith stage) = tile.source := by
  by_cases plain : tile.isPlain
  · rw [cutWith_of_plain plain, (tiling _ sound.text).weave_withGap sound.text.nonempty, source]
  · simp [cutWith_of_not_plain (by simpa using plain), source]

theorem sound_cutWith (sound : tile.Sound) : ∀ piece ∈ tile.cutWith stage, piece.Sound := by
  by_cases plain : tile.isPlain
  · rw [cutWith_of_plain plain]
    exact (tiling _ sound.text).sound_withGap sound.gap
  · simpa [cutWith_of_not_plain (by simpa using plain)] using sound

theorem exists_cutWith (sound : tile.Sound) :
    ∃ first others, tile.cutWith stage = first :: others ∧ first.gap = tile.gap ∧
      first.isDestination = tile.isDestination := by
  by_cases plain : tile.isPlain
  · rcases (tiling _ sound.text).exists_cons sound.text.nonempty with
      ⟨first, others, stage_eq, _, inner⟩
    have outer : tile.isDestination = false := by
      by_contra isDestination
      have atomic := sound.atomic (by simpa using isDestination)
      rw [isPlain_iff.mp plain] at atomic
      cases atomic
    refine ⟨{ first with gap := tile.gap }, others, ?_, rfl, inner.trans outer.symm⟩
    rw [cutWith_of_plain plain, stage_eq, withGap_cons]
  · exact ⟨tile, [], cutWith_of_not_plain (by simpa using plain), rfl, rfl⟩

end Tile

theorem weave_flatMap_cutWith {tiles : List Tile} {stage : List Char → List Tile}
    (tiling : ∀ text, Tight text → Tiles text (stage text)) (sound : ∀ tile ∈ tiles, tile.Sound) :
    weave (tiles.flatMap (cutWith stage)) = weave tiles := by
  have source_eq : ∀ tile ∈ tiles, weave (tile.cutWith stage) = tile.source :=
    fun tile mem => weave_cutWith tiling (sound tile mem)
  rw [weave, List.flatMap_assoc, weave]
  exact List.flatMap_congr source_eq

/-- Cutting the plain tiles of a tiling gives a tiling of the same text. -/
theorem Tiles.flatMap {text : List Char} {tiles : List Tile} {stage : List Char → List Tile}
    (tiling : ∀ text, Tight text → Tiles text (stage text)) (outer : Tiles text tiles) :
    Tiles text (tiles.flatMap (cutWith stage)) where
  weave_eq := by rw [weave_flatMap_cutWith tiling outer.sound, outer.weave_eq]
  sound := by
    intro piece mem
    rcases List.mem_flatMap.mp mem with ⟨tile, tileMem, pieceMem⟩
    exact sound_cutWith tiling (outer.sound tile tileMem) piece pieceMem
  starts := by
    intro piece head_eq
    cases tiles with
    | nil => cases head_eq
    | cons tile tiles =>
      rcases exists_cutWith tiling (outer.sound tile (by simp)) with
        ⟨first, others, cut_eq, gap_eq, destination_eq⟩
      rw [List.flatMap_cons, cut_eq] at head_eq
      cases head_eq
      rw [gap_eq, destination_eq]
      exact outer.starts tile rfl

end Refill
