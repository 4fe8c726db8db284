import Refill.Proofs.Packing.Injective
import Refill.Proofs.Rewrapping.Constructs
import Refill.Proofs.Rewrapping.Unsettled

/-!
# Refilling what is filled

A filled paragraph is found again line by line, and it is left as it is just if the lines
that are found are greedy (`fill_fill_iff`). So refilling at the same width changes a filled
paragraph in two cases only, and both come from two words that make a break tag when a
newline between them becomes a space (`refill_idempotent_iff`).
-/

namespace Refill

open Text Tile

section LaidOut

variable {line : List Tile} {lines : List (List Tile)}

theorem withGap_tidy_withGap (gap other : List Char) (line : List Tile) :
    withGap gap ((withGap other (line.map tidy)).map tidy) = withGap gap (line.map tidy) := by
  cases line with
  | nil => rfl
  | cons tile line =>
    have rest : (line.map tidy).map tidy = line.map tidy := by
      rw [List.map_map]
      exact List.map_congr_left fun other _ => (isTidy_tidy other).tidy_eq
    rw [List.map_cons, withGap_cons, withGap_cons, List.map_cons, withGap_cons, rest]
    rfl

theorem relay_laidOut (lines : List (List Tile)) : relay (laidOut lines) = relay lines := by
  cases lines with
  | nil => rfl
  | cons line lines =>
    rw [laidOut, relay, relay, withGap_tidy_withGap, List.flatMap_map]
    simp only [withGap_tidy_withGap]

theorem laidOut_ne_nil (nonempty : ∀ line ∈ lines, line ≠ []) : ∀ line ∈ laidOut lines, line ≠ [] := by
  have gapped : ∀ gap {line : List Tile}, line ≠ [] → withGap gap (line.map tidy) ≠ [] := by
    intro gap line nonempty
    rcases List.exists_cons_of_ne_nil nonempty with ⟨tile, rest, rfl⟩
    simp
  cases lines with
  | nil => simp [laidOut]
  | cons line lines =>
    rw [List.forall_mem_cons] at nonempty
    refine List.forall_mem_cons.mpr ⟨gapped [] nonempty.1, ?_⟩
    intro other mem
    rcases List.mem_map.mp mem with ⟨origin, originMem, rfl⟩
    exact gapped ['\n'] (nonempty.2 origin originMem)

end LaidOut

namespace Paragraph

/-- Refilling leaves a filled paragraph as it is just if the lines that are found in it are
greedy. -/
theorem fill_fill_iff (text : List Char) (width : Nat) :
    ∃ lines : List (List Tile), lines.flatten = tiles text ∧
      pack width (tokens text) = lines.map (List.map token) ∧ (∀ line ∈ lines, line ≠ []) ∧
      (fill width (fill width text) = fill width text ↔
        Greedy width ((laidOut (lines.map settle)).map (List.map token))) := by
  rcases tiles_fill text width with ⟨lines, lines_eq, pack_eq, nonempty, _, shown_eq, tiles_eq⟩
  rcases layout_tiles (fill width text) width with
    ⟨again, again_eq, again_pack, again_nonempty, regapped, fill_eq⟩
  refine ⟨lines, lines_eq, pack_eq, nonempty, ?_⟩
  have settled : ∀ line ∈ lines.map settle, line ≠ [] := by
    intro line mem
    rcases List.mem_map.mp mem with ⟨origin, originMem, rfl⟩
    exact settle_ne_nil (nonempty origin originMem)
  have outNonempty := laidOut_ne_nil settled
  rw [reread_relay nonempty, ← flatten_laidOut] at tiles_eq
  have weave_eq : weave (tiles (fill width text)) = fill width text := by
    rw [tiles_eq, flatten_laidOut, ← reread_relay nonempty, weave_reread, ← shown_eq]
  have visible := visible_tokens (fill width text)
  rw [← map_token_tiles, tiles_eq, List.map_flatten] at visible
  rw [← pack_flatten_iff visible, ← List.map_flatten, ← tiles_eq, map_token_tiles]
  constructor
  · intro same
    -- Equal texts give the tiles equal gaps, and these tell where the lines begin.
    have sound := (tiles_trim (fill width text)).sound
    have gaps_eq := gaps_eq_of_weave sound (sound_of_regapped sound regapped)
      (map_text_of_regapped regapped) (by rw [weave_eq, ← fill_eq, same])
    rw [tiles_eq, flatten_laidOut, ← relay_laidOut (lines.map settle)] at gaps_eq
    rw [again_pack, lines_eq_of_relay again_nonempty outNonempty (again_eq.trans tiles_eq) gaps_eq]
  · intro packed
    have shown := weave_relay outNonempty
    rw [relay_laidOut, ← flatten_laidOut, ← tiles_eq, weave_eq] at shown
    rw [fill, layout_eq (visible_tokens _), packed, List.map_map]
    exact shown.symm

/-- Filling leaves a filled paragraph as it is, unless its lines are unsettled. -/
theorem fill_fill_eq_iff (text : List Char) (width : Nat) :
    fill width (fill width text) = fill width text ↔
      ¬Unsettled width (pack width (tokens text)) := by
  rcases fill_fill_iff text width with ⟨lines, lines_eq, pack_eq, nonempty, fill_iff⟩
  have visible := visible_tokens text
  have greedy := greedy_pack width visible
  rw [← map_token_tiles, ← lines_eq] at visible
  rw [pack_eq] at greedy ⊢
  have inner : ∀ tile ∈ lines.flatten, tile.kind = .word → tile.isDestination = false := by
    intro tile mem word
    rw [lines_eq] at mem
    by_contra isDestination
    have atomic := ((tiles_trim text).sound tile mem).atomic (by simpa using isDestination)
    rw [word] at atomic
    cases atomic
  rw [← greedy_settle_iff greedy visible inner, ← fill_iff]

/-- Refilling a filled paragraph at the same width leaves it as it is, unless its lines are
unsettled. -/
theorem refill_idempotent_iff (text : List Char) (width : Nat) (positive : 1 ≤ width) :
    ∃ output, refill text width = .ok output ∧
      (refill output width = .ok output ↔ ¬Unsettled width (pack width (tokens text))) := by
  refine ⟨fill width text, refill_eq text positive, ?_⟩
  rw [← fill_fill_eq_iff, refill_eq _ positive, Except.ok.injEq]

/-- Two words that make a tag in front of another word. -/
theorem refill_idempotent_iff_tag :
    1 ≤ 80 ∧ ∃ output, refill "<br\n/> a".toList 80 = .ok output ∧
      (refill output 80 = .ok output ↔ ¬Unsettled 80 (pack 80 (tokens "<br\n/> a".toList))) :=
  ⟨by decide, refill_idempotent_iff "<br\n/> a".toList 80 (by decide)⟩

/-- There is a paragraph that refilling changes twice. -/
theorem refill_not_idempotent :
    ¬∀ text width, 1 ≤ width → ∃ output, refill text width = .ok output ∧
      refill output width = .ok output := by
  intro idempotent
  have first : fill 80 "<br\n/> a".toList = "<br /> a".toList := by decide +kernel
  have second : fill 80 "<br /> a".toList = "<br />\na".toList := by decide +kernel
  rcases idempotent "<br\n/> a".toList 80 (by decide) with ⟨output, output_eq, again⟩
  rw [refill_eq _ (by decide), first, Except.ok.injEq] at output_eq
  rw [← output_eq, refill_eq _ (by decide), second, Except.ok.injEq] at again
  exact absurd again (by decide)

end Paragraph

end Refill
