import Refill.Proofs.Tiling.Cut

/-!
# Tiles that cover a part of a text

A part of a text is covered by a tile if it lies within the text of the tile (`Covers`). When the
other tiles are cut further, the tile still covers the part at its place (`Covers.flatMap`). When
the tile itself is cut, whatever covers the part in the tiles of its text does
(`Covers.flatMap_plain`).
-/

namespace Refill

open Text Tile

/-- The tile is one of the tiles, and it has the part in its text between the given ends; the part
stands behind the given characters of what the tiles make up. -/
structure Covers (tiles : List Tile) (front part : List Char) (tile : Tile)
    (left right : List Char) : Prop where
  text_eq : tile.text = left ++ (part ++ right)
  place : ∃ earlier later, tiles = earlier ++ tile :: later ∧
    front = weave earlier ++ (tile.gap ++ left)

section Covers

variable {tiles : List Tile} {tile : Tile} {front part left right : List Char}

theorem Covers.append_right (covers : Covers tiles front part tile left right)
    (more : List Tile) : Covers (tiles ++ more) front part tile left right := by
  rcases covers.place with ⟨earlier, later, rfl, front_eq⟩
  exact ⟨covers.text_eq, earlier, later ++ more, by simp, front_eq⟩

theorem Covers.append_left (covers : Covers tiles front part tile left right)
    (before : List Tile) :
    Covers (before ++ tiles) (weave before ++ front) part tile left right := by
  rcases covers.place with ⟨earlier, later, rfl, rfl⟩
  exact ⟨covers.text_eq, before ++ earlier, later, by simp, by simp⟩

theorem covers_singleton (text_eq : tile.text = left ++ (part ++ right)) :
    Covers [tile] (tile.gap ++ left) part tile left right :=
  ⟨text_eq, [], [], rfl, rfl⟩

theorem Covers.mem (covers : Covers tiles front part tile left right) : tile ∈ tiles := by
  rcases covers.place with ⟨earlier, later, rfl, _⟩
  simp

/-- Another gap before the first tile leaves what the tiles cover. -/
theorem Covers.withGap {text : List Char} (tiling : Tiles text tiles)
    (covers : Covers tiles front part tile left right) (gap : List Char) :
    ∃ piece, piece.kind = tile.kind ∧
      Covers (Tile.withGap gap tiles) (gap ++ front) part piece left right := by
  rcases covers.place with ⟨earlier, later, rfl, rfl⟩
  cases earlier with
  | nil =>
    have gap_eq : tile.gap = [] := (tiling.starts tile rfl).1
    exact ⟨{ tile with gap }, rfl, covers.text_eq, [], later, rfl, by simp [gap_eq]⟩
  | cons first earlier =>
    have gap_eq : first.gap = [] := (tiling.starts first rfl).1
    exact ⟨tile, rfl, covers.text_eq, { first with gap } :: earlier, later, rfl, by simp [gap_eq]⟩

variable {stage : List Char → List Tile}

/-- A tile that is not plain covers what it covered when the others are cut. -/
theorem Covers.flatMap (tiling : ∀ text, Tight text → Tiles text (stage text))
    (sound : ∀ tile ∈ tiles, tile.Sound) (covers : Covers tiles front part tile left right)
    (other : tile.isPlain = false) :
    Covers (tiles.flatMap (cutWith stage)) front part tile left right := by
  rcases covers.place with ⟨earlier, later, rfl, rfl⟩
  rw [List.forall_mem_append] at sound
  rw [List.flatMap_append, List.flatMap_cons, cutWith_of_not_plain other,
    ← weave_flatMap_cutWith tiling sound.1]
  exact ((covers_singleton covers.text_eq).append_right _).append_left _

/-- What a plain tile covers is covered by one of the tiles that its text is cut into. -/
theorem Covers.flatMap_plain {inner : Tile} {innerLeft innerRight : List Char}
    (tiling : ∀ text, Tight text → Tiles text (stage text))
    (sound : ∀ tile ∈ tiles, tile.Sound) (covers : Covers tiles front part tile left right)
    (plain : tile.isPlain)
    (inside : Covers (stage tile.text) left part inner innerLeft innerRight) :
    ∃ piece, piece.kind = inner.kind ∧
      Covers (tiles.flatMap (cutWith stage)) front part piece innerLeft innerRight := by
  rcases covers.place with ⟨earlier, later, rfl, rfl⟩
  rw [List.forall_mem_append, List.forall_mem_cons] at sound
  rcases inside.withGap (tiling tile.text sound.2.1.text) tile.gap with ⟨piece, kind_eq, covered⟩
  refine ⟨piece, kind_eq, ?_⟩
  rw [List.flatMap_append, List.flatMap_cons, cutWith_of_plain plain,
    ← weave_flatMap_cutWith tiling sound.1]
  exact (covered.append_right _).append_left _

end Covers

end Refill
