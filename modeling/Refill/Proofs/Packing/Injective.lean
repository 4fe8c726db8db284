import Refill.Proofs.Packing.Layout

/-!
# A layout shows its lines

The text that tiles make up tells their gaps, if it is known what the tiles show
(`gaps_eq_of_weave`); and the gaps of a layout tell its lines, because a newline stands before
the first tile of a line and before no other one (`lines_eq_of_relay`).
-/

namespace Refill

open Text Tile

theorem gaps_eq_of_weave {tiles others : List Tile} (sound : ∀ tile ∈ tiles, tile.Sound)
    (otherSound : ∀ other ∈ others, other.Sound)
    (texts : others.map Tile.text = tiles.map Tile.text) (weave_eq : weave others = weave tiles) :
    others.map Tile.gap = tiles.map Tile.gap := by
  induction tiles generalizing others with
  | nil => simpa using texts
  | cons tile tiles ih =>
    rcases List.map_eq_cons_iff.mp texts with ⟨other, rest, rfl, text_eq, later⟩
    rw [List.forall_mem_cons] at sound otherSound
    rw [weave_cons, weave_cons, text_eq] at weave_eq
    have gap_eq : other.gap = tile.gap := by
      have leading_eq := congrArg leading weave_eq
      rw [← List.append_assoc, ← List.append_assoc] at leading_eq
      rwa [sound.1.text.leading_append otherSound.1.gap, sound.1.text.leading_append sound.1.gap]
        at leading_eq
    rw [gap_eq] at weave_eq
    have rest_eq := List.append_cancel_left (List.append_cancel_left weave_eq)
    rw [List.map_cons, List.map_cons, gap_eq, ih sound.2 otherSound.2 later rest_eq]

section Lines

variable {line other : List Tile} {lines others : List (List Tile)}

/-- The gaps of lines that are not the first ones. -/
def laterGaps (lines : List (List Tile)) : List (List Char) :=
  (lines.flatMap fun line => withGap ['\n'] (line.map tidy)).map Tile.gap

theorem laterGaps_cons (tile : Tile) (line : List Tile) (lines : List (List Tile)) :
    laterGaps ((tile :: line) :: lines) = ['\n'] :: (line.map tidyGap ++ laterGaps lines) := by
  simp [laterGaps, tidy]

theorem gaps_relay (tile : Tile) (line : List Tile) (lines : List (List Tile)) :
    (relay ((tile :: line) :: lines)).map Tile.gap =
      [] :: (line.map tidyGap ++ laterGaps lines) := by
  simp [relay, laterGaps, tidy]

theorem tidyGap_ne_newline (tile : Tile) : tile.tidyGap ≠ ['\n'] := by
  unfold tidyGap
  split <;> simp

/-- No tile of a line is the first one of the next line. -/
theorem overlap_eq_nil {overlap : List Tile} {rest : List Tile} {gaps : List (List Char)}
    (nonempty : ∀ line ∈ lines, line ≠ []) (flatten_eq : lines.flatten = overlap ++ rest)
    (gaps_eq : laterGaps lines = overlap.map tidyGap ++ gaps) : overlap = [] := by
  cases overlap with
  | nil => rfl
  | cons tile overlap =>
    cases lines with
    | nil => cases flatten_eq
    | cons line lines =>
      rcases List.exists_cons_of_ne_nil (nonempty line (by simp)) with ⟨first, others, rfl⟩
      rw [laterGaps_cons, List.map_cons, List.cons_append] at gaps_eq
      injection gaps_eq with head_eq
      exact absurd head_eq.symm (tidyGap_ne_newline tile)

theorem line_eq_of_gaps (nonempty : ∀ line ∈ lines, line ≠ [])
    (otherNonempty : ∀ line ∈ others, line ≠ [])
    (flatten_eq : line ++ lines.flatten = other ++ others.flatten)
    (gaps_eq : line.map tidyGap ++ laterGaps lines = other.map tidyGap ++ laterGaps others) :
    line = other := by
  rcases List.append_eq_append_iff.mp flatten_eq with
    ⟨overlap, rfl, later_eq⟩ | ⟨overlap, rfl, later_eq⟩
  · rw [List.map_append, List.append_assoc] at gaps_eq
    rw [overlap_eq_nil nonempty later_eq (List.append_cancel_left gaps_eq), List.append_nil]
  · rw [List.map_append, List.append_assoc] at gaps_eq
    rw [overlap_eq_nil otherNonempty later_eq (List.append_cancel_left gaps_eq).symm,
      List.append_nil]

theorem lines_eq_of_gaps (nonempty : ∀ line ∈ lines, line ≠ [])
    (otherNonempty : ∀ line ∈ others, line ≠ [])
    (flatten_eq : line ++ lines.flatten = other ++ others.flatten)
    (gaps_eq : line.map tidyGap ++ laterGaps lines = other.map tidyGap ++ laterGaps others) :
    line :: lines = other :: others := by
  induction lines generalizing line other others with
  | nil =>
    have line_eq := line_eq_of_gaps nonempty otherNonempty flatten_eq gaps_eq
    rw [line_eq] at flatten_eq
    have later_eq := List.append_cancel_left flatten_eq
    cases others with
    | nil => rw [line_eq]
    | cons next others =>
      rw [List.flatten_nil, List.flatten_cons] at later_eq
      exact absurd (List.append_eq_nil_iff.mp later_eq.symm).1 (otherNonempty next (by simp))
  | cons next lines ih =>
    have line_eq := line_eq_of_gaps nonempty otherNonempty flatten_eq gaps_eq
    rw [line_eq] at flatten_eq gaps_eq
    have later_eq := List.append_cancel_left flatten_eq
    have later_gaps := List.append_cancel_left gaps_eq
    -- Both rests begin a line with the same tile, and behind it the argument repeats.
    rw [List.forall_mem_cons] at nonempty
    cases others with
    | nil =>
      rw [List.flatten_nil, List.flatten_cons] at later_eq
      exact absurd (List.append_eq_nil_iff.mp later_eq).1 nonempty.1
    | cons second others =>
      rw [List.forall_mem_cons] at otherNonempty
      rcases List.exists_cons_of_ne_nil nonempty.1 with ⟨tile, front, rfl⟩
      rcases List.exists_cons_of_ne_nil otherNonempty.1 with ⟨otherTile, otherFront, rfl⟩
      simp only [List.flatten_cons, List.cons_append, List.cons.injEq] at later_eq
      simp only [laterGaps_cons, List.cons.injEq, true_and] at later_gaps
      have rest_eq := ih nonempty.2 otherNonempty.2 later_eq.2 later_gaps
      simp only [List.cons.injEq] at rest_eq
      rw [line_eq, later_eq.1, rest_eq.1, rest_eq.2]

/-- Lines of the same tiles that have the same gaps in a layout are the same. -/
theorem lines_eq_of_relay (nonempty : ∀ line ∈ lines, line ≠ [])
    (otherNonempty : ∀ line ∈ others, line ≠ []) (flatten_eq : lines.flatten = others.flatten)
    (gaps_eq : (relay lines).map Tile.gap = (relay others).map Tile.gap) : lines = others := by
  have later : laterGaps lines = laterGaps others := by
    cases lines with
    | nil =>
      cases others with
      | nil => rfl
      | cons other others =>
        rcases List.exists_cons_of_ne_nil (otherNonempty other (by simp)) with ⟨tile, rest, rfl⟩
        cases flatten_eq
    | cons line lines =>
      rcases List.exists_cons_of_ne_nil (nonempty line (by simp)) with ⟨tile, rest, rfl⟩
      cases others with
      | nil => cases flatten_eq
      | cons other others =>
        rcases List.exists_cons_of_ne_nil (otherNonempty other (by simp)) with ⟨first, more, rfl⟩
        rw [gaps_relay, gaps_relay] at gaps_eq
        rw [laterGaps_cons, laterGaps_cons, List.cons_injective gaps_eq]
  have whole : [] :: lines = [] :: others :=
    lines_eq_of_gaps nonempty otherNonempty flatten_eq later
  exact List.cons_injective whole

end Lines

end Refill
