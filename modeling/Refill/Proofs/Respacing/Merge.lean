import Refill.Proofs.Construct.BreakTag
import Refill.Proofs.Tiling.Tile

/-!
# Words that make a tag

A word that ends with the name of a break tag and a word that begins with its end make a tag
if just a space stands between them. `reread` makes the tags that the words of a list of
tiles make. It goes piece by piece where no such words meet (`reread_append`).
-/

namespace Refill

open Text Tile

namespace BreakTag

instance (name : List Char) : Decidable (IsName name) :=
  inferInstanceAs (Decidable (_ = _))

/-- What may be the name of a tag at the end of a text. -/
def nameOf (text : List Char) : List Char :=
  text.drop (text.length - 3)

/-- The text before that. -/
def stemOf (text : List Char) : List Char :=
  text.take (text.length - 3)

/-- A space between the two texts makes a tag of their ends. -/
def MakesTag (text next : List Char) : Prop :=
  IsName (nameOf text) ∧ ['/', '>'] <+: next

instance (text next : List Char) : Decidable (MakesTag text next) :=
  inferInstanceAs (Decidable (_ ∧ _))

variable {text front name : List Char}

theorem stemOf_append_nameOf (text : List Char) : stemOf text ++ nameOf text = text :=
  List.take_append_drop _ text

theorem nameOf_append (isName : IsName name) : nameOf (front ++ name) = name := by
  simp [nameOf, isName.length_eq]

theorem prefix_stemOf_iff (isName : IsName (nameOf text)) :
    ['/', '>'] <+: stemOf text ↔ ['/', '>'] <+: text := by
  rcases isName.exists_chars with ⟨second, third, name_eq, _⟩
  conv_rhs => rw [← stemOf_append_nameOf text, name_eq]
  constructor
  · intro starts
    exact starts.trans (List.prefix_append _ _)
  · intro starts
    generalize stemOf text = stem at starts ⊢
    rcases stem with _ | ⟨a, _ | ⟨b, rest⟩⟩
    · simp at starts
    · simp at starts
    · simpa using starts

end BreakTag

open BreakTag

namespace Tile

/-- The two words make a tag. -/
structure Merges (tile next : Tile) : Prop where
  kind : tile.kind = .word
  next_kind : next.kind = .word
  gap : next.gap = [' ']
  tag : MakesTag tile.text next.text

instance (tile next : Tile) : Decidable (tile.Merges next) :=
  decidable_of_iff (tile.kind = .word ∧ next.kind = .word ∧ next.gap = [' '] ∧
    MakesTag tile.text next.text)
    ⟨fun ⟨kind, next_kind, gap, tag⟩ => ⟨kind, next_kind, gap, tag⟩,
      fun ⟨kind, next_kind, gap, tag⟩ => ⟨kind, next_kind, gap, tag⟩⟩

/-- The tag that two words make, with what they have before and behind it. -/
def merge (tile next : Tile) : List Tile :=
  let stem := stemOf tile.text
  let rest := next.text.drop 2
  (if stem = [] then [] else [{ tile with text := stem }]) ++
    ⟨if stem = [] then tile.gap else [], .lineBreak, nameOf tile.text ++ [' ', '/', '>'], false⟩ ::
      if rest = [] then [] else [⟨[], .word, rest, false⟩]

/-- The tile before others, which makes a tag with the first of them if it can. -/
def attach (tile : Tile) : List Tile → List Tile
  | [] => [tile]
  | next :: rest => if tile.Merges next then tile.merge next ++ rest else tile :: next :: rest

theorem attach_eq_cons {tile : Tile} {tiles : List Tile}
    (apart : ∀ next, tiles.head? = some next → ¬tile.Merges next) :
    tile.attach tiles = tile :: tiles := by
  cases tiles with
  | nil => rfl
  | cons next rest => rw [attach, if_neg (apart next rfl)]

theorem attach_append {tile : Tile} {front : List Tile} (nonempty : front ≠ []) (back : List Tile) :
    tile.attach (front ++ back) = tile.attach front ++ back := by
  cases front with
  | nil => exact absurd rfl nonempty
  | cons next rest =>
    simp only [List.cons_append, attach]
    split
    · rw [List.append_assoc]
    · rfl

/-- The first of the tiles makes a tag with a word before it as the tile alone does. -/
theorem exists_attach (tile : Tile) (tiles : List Tile) :
    ∃ first others, tile.attach tiles = first :: others ∧ first.gap = tile.gap ∧
      ∀ before : Tile, before.Merges first ↔ before.Merges tile := by
  cases tiles with
  | nil => exact ⟨tile, [], rfl, rfl, fun _ => Iff.rfl⟩
  | cons next rest =>
    by_cases merges : tile.Merges next
    · have starts := prefix_stemOf_iff merges.tag.1
      by_cases empty : stemOf tile.text = []
      · refine ⟨_, _, by rw [attach, if_pos merges, merge, if_pos empty]; rfl, if_pos empty, ?_⟩
        intro before
        constructor
        · intro both
          cases both.next_kind
        · intro both
          have inside := starts.mpr both.tag.2
          simp [empty] at inside
      · refine ⟨{ tile with text := stemOf tile.text }, _,
          by rw [attach, if_pos merges, merge, if_neg empty]; rfl, rfl, ?_⟩
        intro before
        constructor
        · intro both
          exact ⟨both.kind, both.next_kind, both.gap, both.tag.1, starts.mp both.tag.2⟩
        · intro both
          exact ⟨both.kind, both.next_kind, both.gap, both.tag.1, starts.mpr both.tag.2⟩
    · exact ⟨tile, next :: rest, by rw [attach, if_neg merges], rfl, fun _ => Iff.rfl⟩

theorem withGap_attach (tile : Tile) (tiles : List Tile) (gap : List Char) :
    ({ tile with gap } : Tile).attach tiles = withGap gap (tile.attach tiles) := by
  cases tiles with
  | nil => rfl
  | cons next rest =>
    by_cases merges : tile.Merges next
    · have other : ({ tile with gap } : Tile).Merges next := { merges with }
      rw [attach, attach, if_pos merges, if_pos other, merge, merge]
      by_cases empty : stemOf tile.text = []
      · simp [empty]
      · simp [empty]
    · have other : ¬({ tile with gap } : Tile).Merges next := fun both => merges { both with }
      rw [attach, attach, if_neg merges, if_neg other, withGap_cons]

end Tile

/-! ## Rereading -/

/-- The tiles with the tags that words of them make. -/
def reread (tiles : List Tile) : List Tile :=
  tiles.foldr attach []

section Reread

variable {tile : Tile} {tiles front back : List Tile}

@[simp]
theorem reread_nil : reread [] = [] := rfl

@[simp]
theorem reread_cons (tile : Tile) (tiles : List Tile) :
    reread (tile :: tiles) = tile.attach (reread tiles) := rfl

/-- Where no words meet that make a tag, the tiles are reread piece by piece. -/
theorem reread_append
    (apart : ∀ tile next, front.getLast? = some tile → back.head? = some next → ¬tile.Merges next) :
    reread (front ++ back) = reread front ++ reread back := by
  induction front with
  | nil => rfl
  | cons tile front ih =>
    rw [List.cons_append, reread_cons, reread_cons]
    cases front with
    | nil =>
      cases back with
      | nil => simp
      | cons next back =>
        rcases exists_attach next (reread back) with ⟨first, others, attach_eq, _, merges_iff⟩
        rw [List.nil_append, reread_nil, reread_cons, attach_eq, attach_eq_cons]
        · rfl
        · intro other head_eq
          cases head_eq
          rw [merges_iff]
          exact apart tile next rfl rfl
    | cons second front =>
      rw [ih (by simpa using apart), attach_append]
      rcases exists_attach second (reread front) with ⟨first, others, attach_eq, _⟩
      rw [reread_cons, attach_eq]
      simp

theorem withGap_reread (gap : List Char) (tiles : List Tile) :
    reread (withGap gap tiles) = withGap gap (reread tiles) := by
  cases tiles with
  | nil => rfl
  | cons tile tiles => exact withGap_attach tile (reread tiles) gap

end Reread

end Refill
