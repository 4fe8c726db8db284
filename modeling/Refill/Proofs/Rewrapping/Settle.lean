import Mathlib.Data.List.Chain
import Refill.Proofs.Packing.Layout
import Refill.Proofs.Respacing.Merge

/-!
# Lines that settle

What a line becomes when it is reread: it is the same line if no two of its words make a tag,
and if the last two make one and nothing comes behind it, the tag closes the line
(`reread_of_outside`). Every other tag that words make stands inside the line, where a line
would have ended had it been there before (`exists_inner_break`).
-/

namespace Refill

open Text Tile BreakTag

/-- Two words of the line make a tag behind which the line goes on. -/
def Inside (line : List Tile) : Prop :=
  ∃ front tile next back, line = front ++ tile :: next :: back ∧ tile.Merges next ∧
    (next.text ≠ ['/', '>'] ∨ back ≠ [])

def Unmerged (line : List Tile) : Prop :=
  line.IsChain fun tile next => ¬tile.Merges next

section Line

variable {tile next : Tile} {line : List Tile}

theorem reread_of_unmerged (unmerged : Unmerged line) : reread line = line := by
  induction line with
  | nil => rfl
  | cons tile rest ih =>
    rcases List.isChain_cons.mp unmerged with ⟨first, later⟩
    rw [reread_cons, ih later]
    apply attach_eq_cons
    exact first

/-- The words that make a tag at the end of the line leave the rest of it as it is. -/
theorem reread_of_outside (outside : ¬Inside line) :
    Unmerged line ∨ ∃ front tile next, line = front ++ [tile, next] ∧ tile.Merges next ∧
      next.text = ['/', '>'] ∧ reread line = front ++ tile.merge next := by
  induction line with
  | nil => exact Or.inl .nil
  | cons tile rest ih =>
    have restOutside : ¬Inside rest := by
      rintro ⟨front, x, y, back, rfl, merges, goesOn⟩
      exact outside ⟨tile :: front, x, y, back, rfl, merges, goesOn⟩
    cases rest with
    | nil => exact Or.inl (.singleton tile)
    | cons next rest =>
      by_cases merges : tile.Merges next
      · have text_eq : next.text = ['/', '>'] := by
          by_contra other
          exact outside ⟨[], tile, next, rest, rfl, merges, Or.inl other⟩
        have empty : rest = [] := by
          by_contra nonempty
          exact outside ⟨[], tile, next, rest, rfl, merges, Or.inr nonempty⟩
        subst empty
        refine Or.inr ⟨[], tile, next, rfl, merges, text_eq, ?_⟩
        rw [reread_cons, reread_cons, reread_nil, attach, attach, if_pos merges, List.append_nil,
          List.nil_append]
      · rcases ih restOutside with unmerged | ⟨front, x, y, rest_eq, both, text_eq, reread_eq⟩
        · exact Or.inl (List.isChain_cons_cons.mpr ⟨merges, unmerged⟩)
        · refine Or.inr ⟨tile :: front, x, y, by rw [rest_eq, List.cons_append], both, text_eq, ?_⟩
          rcases exists_attach next (reread rest) with ⟨first, others, attach_eq, _, merges_iff⟩
          rw [List.cons_append, ← reread_eq, reread_cons]
          apply attach_eq_cons
          intro other head_eq
          rw [reread_cons, attach_eq] at head_eq
          cases head_eq
          rwa [merges_iff]

/-! ## Breaks inside a line -/

theorem mem_merge (tile next : Tile) :
    ⟨if stemOf tile.text = [] then tile.gap else [], .lineBreak, nameOf tile.text ++ [' ', '/', '>'],
      false⟩ ∈ tile.merge next := by
  simp [merge]

theorem dropLast_merge (rest : next.text.drop 2 ≠ []) :
    ⟨if stemOf tile.text = [] then tile.gap else [], .lineBreak, nameOf tile.text ++ [' ', '/', '>'],
      false⟩ ∈ (tile.merge next).dropLast := by
  rw [merge, if_neg rest, List.dropLast_append_of_ne_nil (by simp)]
  simp

/-- A break inside a line remains inside when a tile comes before the line. -/
theorem exists_break_attach (inside : ∃ piece ∈ line.dropLast, piece.kind = .lineBreak) (tile : Tile) :
    ∃ piece ∈ (tile.attach line).dropLast, piece.kind = .lineBreak := by
  rcases inside with ⟨piece, mem, isBreak⟩
  cases line with
  | nil => cases mem
  | cons next rest =>
    have nonempty : rest ≠ [] := by
      rintro rfl
      cases mem
    by_cases merges : tile.Merges next
    · rw [List.dropLast_cons_of_ne_nil nonempty] at mem
      rcases List.mem_cons.mp mem with rfl | mem
      · rw [merges.next_kind] at isBreak
        cases isBreak
      · rw [attach, if_pos merges, List.dropLast_append_of_ne_nil nonempty]
        exact ⟨piece, List.mem_append_right _ mem, isBreak⟩
    · rw [attach, if_neg merges, List.dropLast_cons_of_ne_nil (by simp)]
      exact ⟨piece, List.mem_cons_of_mem tile mem, isBreak⟩

/-- A tile that comes before others is not the only one, if a word before it makes a tag with it. -/
theorem attach_ne_singleton {before first : Tile} (merges : before.Merges tile) (nonempty : line ≠ []) :
    tile.attach line ≠ [first] := by
  intro alone
  rcases List.exists_cons_of_ne_nil nonempty with ⟨next, rest, rfl⟩
  by_cases both : tile.Merges next
  · have stem : stemOf tile.text ≠ [] := by
      intro empty
      have starts := (prefix_stemOf_iff both.tag.1).mpr merges.tag.2
      simp [empty] at starts
    rw [attach, if_pos both, merge, if_neg stem] at alone
    simp at alone
  · rw [attach, if_neg both] at alone
    cases alone

theorem exists_break_merged {back : List Tile} (merges : tile.Merges next)
    (goesOn : next.text ≠ ['/', '>'] ∨ back ≠ []) :
    ∃ piece ∈ (reread (tile :: next :: back)).dropLast, piece.kind = .lineBreak := by
  rcases exists_attach next (reread back) with ⟨first, others, attach_eq, _, merges_iff⟩
  have both := (merges_iff tile).mpr merges
  rw [reread_cons, reread_cons, attach_eq, attach, if_pos both]
  by_cases alone : others = []
  · rw [alone] at attach_eq ⊢
    have empty : back = [] := by
      by_contra nonempty
      apply attach_ne_singleton merges _ attach_eq
      rcases List.exists_cons_of_ne_nil nonempty with ⟨third, more, rfl⟩
      rcases exists_attach third (reread more) with ⟨_, _, third_eq, _⟩
      rw [reread_cons, third_eq]
      simp
    rw [empty, reread_nil, attach] at attach_eq
    cases attach_eq
    have rest : next.text.drop 2 ≠ [] := by
      rcases merges.tag.2 with ⟨rest, text_eq⟩
      rcases goesOn with other | nonempty
      · rintro dropped
        rw [← text_eq] at dropped other
        exact other (by simpa using dropped)
      · exact absurd empty nonempty
    rw [List.append_nil]
    exact ⟨_, dropLast_merge rest, rfl⟩
  · rw [List.dropLast_append_of_ne_nil alone]
    exact ⟨_, List.mem_append_left _ (mem_merge tile first), rfl⟩

/-- A tag that words make inside a line is a break inside of what the line becomes. -/
theorem exists_inner_break (inside : Inside line) :
    ∃ piece ∈ (reread line).dropLast, piece.kind = .lineBreak := by
  rcases inside with ⟨front, tile, next, back, rfl, merges, goesOn⟩
  induction front with
  | nil => exact exists_break_merged merges goesOn
  | cons other front ih => exact exists_break_attach ih other

end Line

/-! ## Lines that are reread -/

/-- The line that is found where the given one was laid out. -/
def settle (line : List Tile) : List Tile :=
  reread (line.map tidy)

/-- The gap is one that a tile may have within a line. -/
def Tile.IsTidy (tile : Tile) : Prop :=
  tile.gap = [] ∨ tile.gap = [' '] ∧ tile.isDestination = false

/-- The lines with the gaps they have in a layout. -/
def laidOut : List (List Tile) → List (List Tile)
  | [] => []
  | line :: lines =>
      withGap [] (line.map tidy) :: lines.map fun other => withGap ['\n'] (other.map tidy)

theorem flatten_laidOut (lines : List (List Tile)) : (laidOut lines).flatten = relay lines := by
  cases lines with
  | nil => rfl
  | cons line lines => rw [laidOut, relay, List.flatten_cons, List.flatMap_def]

section Settle

variable {tile next : Tile} {tiles line : List Tile} {lines : List (List Tile)}

theorem weave_attach (tile : Tile) (tiles : List Tile) :
    weave (tile.attach tiles) = weave (tile :: tiles) := by
  cases tiles with
  | nil => rfl
  | cons next rest =>
    by_cases merges : tile.Merges next
    · rcases merges.tag.2 with ⟨more, text_eq⟩
      have stem_eq := stemOf_append_nameOf tile.text
      rw [attach, if_pos merges, merge, weave_cons tile, weave_cons next, merges.gap, ← text_eq]
      conv_rhs => rw [← stem_eq]
      by_cases stem : stemOf tile.text = []
      · by_cases rest : more = []
        · simp [stem, rest]
        · simp [stem, rest]
      · by_cases rest : more = []
        · simp [stem, rest]
        · simp [stem, rest]
    · rw [attach, if_neg merges]

theorem weave_reread (tiles : List Tile) : weave (reread tiles) = weave tiles := by
  induction tiles with
  | nil => rfl
  | cons tile tiles ih => rw [reread_cons, weave_attach, weave_cons, weave_cons, ih]

theorem isTidy_tidy (tile : Tile) : tile.tidy.IsTidy := by
  cases spaced : tile.isSpaced with
  | false => exact Or.inl (by simp [tidy, tidyGap, spaced])
  | true =>
    refine Or.inr ⟨by simp [tidy, tidyGap, spaced], ?_⟩
    simp only [isSpaced, Bool.and_eq_true, Bool.not_eq_true'] at spaced
    exact spaced.2

theorem Tile.IsTidy.tidy_eq (isTidy : tile.IsTidy) : tile.tidy = tile := by
  have gap_eq : tile.tidyGap = tile.gap := by
    rcases isTidy with gap_eq | ⟨gap_eq, inner⟩
    · simp [tidyGap, isSpaced, gap_eq]
    · simp [tidyGap, isSpaced, gap_eq, inner]
  rw [tidy, gap_eq]

theorem isTidy_attach (first : tile.IsTidy) (later : ∀ other ∈ tiles, other.IsTidy) :
    ∀ other ∈ tile.attach tiles, other.IsTidy := by
  cases tiles with
  | nil => exact List.forall_mem_singleton.mpr first
  | cons next rest =>
    by_cases merges : tile.Merges next
    · rw [attach, if_pos merges]
      rw [List.forall_mem_cons] at later
      refine List.forall_mem_append.mpr ⟨?_, later.2⟩
      have gap_tidy : tile.gap = [] ∨ tile.gap = [' '] := first.imp_right And.left
      by_cases stem : stemOf tile.text = []
      · by_cases rest : next.text.drop 2 = []
        · simpa [merge, stem, rest, IsTidy] using gap_tidy
        · simpa [merge, stem, rest, IsTidy] using gap_tidy
      · by_cases rest : next.text.drop 2 = []
        · simpa [merge, stem, rest, IsTidy] using first
        · simpa [merge, stem, rest, IsTidy] using first
    · rw [attach, if_neg merges]
      exact List.forall_mem_cons.mpr ⟨first, later⟩

/-- A line that is reread has the gaps of a line. -/
theorem map_tidy_settle (line : List Tile) : (settle line).map tidy = settle line := by
  have isTidy : ∀ tiles : List Tile, (∀ tile ∈ tiles, tile.IsTidy) →
      ∀ tile ∈ reread tiles, tile.IsTidy := by
    intro tiles all
    induction tiles with
    | nil => exact all
    | cons tile tiles ih =>
      rw [List.forall_mem_cons] at all
      exact isTidy_attach all.1 (ih all.2)
  have pointwise : ∀ tile ∈ settle line, tile.tidy = tile := by
    intro tile mem
    apply IsTidy.tidy_eq
    apply isTidy (line.map tidy) _ tile mem
    intro other mem
    rcases List.mem_map.mp mem with ⟨origin, _, rfl⟩
    exact isTidy_tidy origin
  exact (List.map_congr_left pointwise).trans (List.map_id _)

theorem settle_ne_nil (nonempty : line ≠ []) : settle line ≠ [] := by
  rcases List.exists_cons_of_ne_nil nonempty with ⟨tile, rest, rfl⟩
  rcases exists_attach tile.tidy (reread (rest.map tidy)) with ⟨first, others, attach_eq, _⟩
  rw [settle, List.map_cons, reread_cons, attach_eq]
  simp

theorem head_gap_later {gap : List Char} (nonempty : ∀ line ∈ lines, line ≠ [])
    (head_eq : (lines.flatMap fun line => withGap gap (line.map tidy)).head? = some tile) :
    tile.gap = gap := by
  cases lines with
  | nil => cases head_eq
  | cons line lines =>
    rcases List.exists_cons_of_ne_nil (nonempty line (by simp)) with ⟨first, rest, rfl⟩
    cases head_eq
    rfl

/-- The lines of a layout are reread one by one. -/
theorem reread_relay (nonempty : ∀ line ∈ lines, line ≠ []) :
    reread (relay lines) = relay (lines.map settle) := by
  have alone : ∀ gap (line : List Tile),
      reread (withGap gap (line.map tidy)) = withGap gap ((settle line).map tidy) := by
    intro gap line
    rw [withGap_reread, map_tidy_settle, settle]
  have apart : ∀ {front : List Tile} {lines : List (List Tile)}, (∀ line ∈ lines, line ≠ []) →
      reread (front ++ lines.flatMap fun line => withGap ['\n'] (line.map tidy)) =
        reread front ++ reread (lines.flatMap fun line => withGap ['\n'] (line.map tidy)) := by
    intro front lines nonempty
    apply reread_append
    intro tile next _ head_eq merges
    have gap_eq := merges.gap
    rw [head_gap_later nonempty head_eq] at gap_eq
    cases gap_eq
  have later : ∀ lines : List (List Tile), (∀ line ∈ lines, line ≠ []) →
      reread (lines.flatMap fun line => withGap ['\n'] (line.map tidy)) =
        (lines.map settle).flatMap fun line => withGap ['\n'] (line.map tidy) := by
    intro lines nonempty
    induction lines with
    | nil => rfl
    | cons line lines ih =>
      rw [List.forall_mem_cons] at nonempty
      rw [List.flatMap_cons, apart nonempty.2, alone, ih nonempty.2, List.map_cons,
        List.flatMap_cons]
  cases lines with
  | nil => rfl
  | cons line lines =>
    rw [List.forall_mem_cons] at nonempty
    rw [relay, apart nonempty.2, alone, later lines nonempty.2, List.map_cons, relay]

end Settle

end Refill
