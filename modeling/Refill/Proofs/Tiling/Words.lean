import Refill.Paragraph
import Refill.Proofs.Tiling.Tile

/-!
# Tiles of words

A text is blank, or it is a gap, a word and a text that a blank parts from the word
(`word_induction`). This gives the words of a text along with their gaps, and no other
tiles that are words make up the same text (`wordTiles_weave`).
-/

namespace Refill

open Text Tile

def isVisible (c : Char) : Bool :=
  !isBlank c

/-- A text without blanks, and not an empty one. -/
structure IsWord (word : List Char) : Prop where
  nonempty : word ≠ []
  visible : ∀ c ∈ word, isVisible c

variable {gap word rest text : List Char}

theorem isBlank_eq_false_iff {c : Char} : isBlank c = false ↔ isVisible c := by
  simp [isVisible]

theorem IsWord.tight (isWord : IsWord word) : Tight word where
  nonempty := isWord.nonempty
  starts := by
    rw [startsBlank, Option.any_eq_false]
    intro c head_eq
    simpa [isVisible] using isWord.visible c (List.mem_of_mem_head? head_eq)
  ends := by
    rw [endsBlank, Option.any_eq_false]
    intro c last_eq
    simpa [isVisible] using isWord.visible c (List.mem_of_getLast? last_eq)

theorem stopsAt_isVisible_iff : StopsAt isVisible rest ↔ rest = [] ∨ startsBlank rest := by
  cases rest with
  | nil => simp [stopsAt_nil]
  | cons c rest => simp [StopsAt, startsBlank, isVisible]

/-! ## The words of a text -/

theorem words_blank (blank : Blank text) : words text = [] := by
  suffices words.go [] text = [] from this
  induction text with
  | nil => rfl
  | cons c rest ih => simp [words.go, blank.head, words.close, ih blank.tail]

theorem words_go_visible (visible : ∀ c ∈ word, isVisible c) (begun rest : List Char) :
    words.go begun (word ++ rest) = words.go (word.reverse ++ begun) rest := by
  induction word generalizing begun with
  | nil => rfl
  | cons c word ih =>
    have first : isBlank c = false := isBlank_eq_false_iff.mpr (visible c (by simp))
    simp only [List.cons_append, words.go, first, Bool.false_eq_true, if_false]
    rw [ih (fun d mem => visible d (List.mem_cons_of_mem c mem))]
    simp

theorem words_append_of_blank (blank : Blank gap) (text : List Char) :
    words (gap ++ text) = words text := by
  induction gap with
  | nil => rfl
  | cons c gap ih =>
    rw [← ih blank.tail]
    simp [words, words.go, blank.head, words.close]

/-- A word comes before the words of the text that a blank parts from it. -/
theorem words_cons (blank : Blank gap) (isWord : IsWord word) (stops : StopsAt isVisible rest) :
    words (gap ++ (word ++ rest)) = word :: words rest := by
  have nonempty : word.reverse ≠ [] := by simpa using isWord.nonempty
  rw [words_append_of_blank blank, words, words_go_visible isWord.visible, List.append_nil]
  cases rest with
  | nil => simp [words.go, words.close, words, isWord.nonempty]
  | cons c rest =>
    have first : isBlank c := by simpa [isVisible] using stops c rfl
    simp [words.go, words.close, words, isWord.nonempty, first]

/-- A text is blank, or it is a gap, a word and a text that a blank parts from it. -/
theorem word_induction {motive : List Char → Prop} (blank : ∀ text, Blank text → motive text)
    (word : ∀ gap word rest, Blank gap → IsWord word → StopsAt isVisible rest → motive rest →
      motive (gap ++ (word ++ rest))) (text : List Char) : motive text := by
  induction length_eq : text.length using Nat.strong_induction_on generalizing text with
  | _ length ih =>
    by_cases empty : text.dropWhile isBlank = []
    · rw [List.dropWhile_eq_nil_iff] at empty
      exact blank text empty
    · have outer := (List.takeWhile_append_dropWhile (p := isBlank) (l := text)).symm
      have starts := startsBlank_dropWhile text
      generalize text.dropWhile isBlank = visible at empty outer starts
      have inner := (List.takeWhile_append_dropWhile (p := isVisible) (l := visible)).symm
      have isWord : IsWord (visible.takeWhile isVisible) := by
        refine ⟨?_, fun c => holds_of_mem_takeWhile⟩
        cases visible with
        | nil => exact absurd rfl empty
        | cons c rest =>
          have first : isVisible c := by simpa [startsBlank, isVisible] using starts
          simp [first]
      rw [inner] at outer
      rw [outer] at length_eq ⊢
      refine word _ _ _ (blank_takeWhile text) isWord (stopsAt_dropWhile isVisible visible) ?_
      have positive := List.length_pos_iff.mpr isWord.nonempty
      simp only [List.length_append] at length_eq
      exact ih _ (by omega) _ rfl

/-! ## Words with their gaps -/

/-- The given words of a text, with the blanks before them. -/
def wordTilesOf : List (List Char) → List Char → List Tile
  | [], _ => []
  | word :: later, text =>
      ⟨leading text, .word, word, false⟩ ::
        wordTilesOf later (text.drop ((leading text).length + word.length))

def wordTiles (text : List Char) : List Tile :=
  wordTilesOf (words text) text

theorem wordTiles_blank (blank : Blank text) : wordTiles text = [] := by
  rw [wordTiles, words_blank blank, wordTilesOf]

theorem wordTiles_cons (blank : Blank gap) (isWord : IsWord word) (stops : StopsAt isVisible rest) :
    wordTiles (gap ++ (word ++ rest)) = ⟨gap, .word, word, false⟩ :: wordTiles rest := by
  have leading_eq : leading (gap ++ (word ++ rest)) = gap := by
    rw [← List.append_assoc]
    exact isWord.tight.leading_append blank
  rw [wordTiles, words_cons blank isWord stops, wordTilesOf, leading_eq, ← List.length_append,
    ← List.append_assoc, List.drop_left, wordTiles]

theorem weave_wordTiles (text : List Char) :
    ∃ tail, Blank tail ∧ weave (wordTiles text) ++ tail = text := by
  induction text using word_induction with
  | blank text blank => exact ⟨text, blank, by rw [wordTiles_blank blank, weave_nil, List.nil_append]⟩
  | word gap word rest blank isWord stops ih =>
    rcases ih with ⟨tail, tailBlank, tail_eq⟩
    refine ⟨tail, tailBlank, ?_⟩
    rw [wordTiles_cons blank isWord stops, weave_cons]
    simp only [List.append_assoc, tail_eq]

structure Tile.IsWordTile (tile : Tile) : Prop where
  gap : Blank tile.gap
  kind : tile.kind = .word
  text : IsWord tile.text
  inner : tile.isDestination = false

theorem Tile.IsWordTile.sound {tile : Tile} (isWordTile : tile.IsWordTile) : tile.Sound where
  gap := isWordTile.gap
  text := isWordTile.text.tight
  atomic := by simp [isWordTile.inner]

theorem isWordTile_of_mem {tile : Tile} (mem : tile ∈ wordTiles text) : tile.IsWordTile := by
  induction text using word_induction with
  | blank text blank => simp [wordTiles_blank blank] at mem
  | word gap word rest blank isWord stops ih =>
    rw [wordTiles_cons blank isWord stops, List.mem_cons] at mem
    rcases mem with rfl | mem
    · exact ⟨blank, rfl, isWord, rfl⟩
    · exact ih mem

theorem tiles_wordTiles (tight : Tight text) : Tiles text (wordTiles text) := by
  rcases weave_wordTiles text with ⟨tail, blank, text_eq⟩
  have empty : tail = [] := by
    apply blank.eq_nil_of_ends
    rw [text_eq]
    exact tight.ends
  rw [empty, List.append_nil] at text_eq
  refine .of_weave tight text_eq (fun tile mem => (isWordTile_of_mem mem).sound) ?_
  intro tile head_eq
  exact (isWordTile_of_mem (List.mem_of_mem_head? head_eq)).inner

/-! ## Words and their spacing -/

theorem gap_ne_nil (isWord : IsWord word) (parted : StopsAt isVisible (gap ++ (word ++ rest))) :
    gap ≠ [] := by
  rintro rfl
  rcases stopsAt_isVisible_iff.mp parted with empty | starts
  · simp [isWord.nonempty] at empty
  · rw [List.nil_append, startsBlank_append isWord.nonempty, isWord.tight.starts] at starts
    cases starts

theorem map_token_wordTiles (parted : StopsAt isVisible text) :
    (wordTiles text).map token = (words text).map (⟨.word, ·, true⟩) := by
  induction text using word_induction with
  | blank text blank => simp [wordTiles_blank blank, words_blank blank]
  | word gap word rest blank isWord stops ih =>
    have nonempty := gap_ne_nil isWord parted
    simp [wordTiles_cons blank isWord stops, words_cons blank isWord stops, ih stops, token,
      isSpaced, nonempty]

/-- The tokens of the word tiles are the words' tokens, the first one spaced if it has a gap. -/
theorem map_token_withGap_wordTiles (gap text : List Char) :
    (withGap gap (wordTiles text)).map token =
      Paragraph.withSpacing (!gap.isEmpty) (Paragraph.wordTokens text) := by
  induction text using word_induction with
  | blank text blank =>
    simp [wordTiles_blank blank, words_blank blank, Paragraph.wordTokens, withGap,
      Paragraph.withSpacing]
  | word inner word rest blank isWord stops =>
    simp [wordTiles_cons blank isWord stops, words_cons blank isWord stops, Paragraph.wordTokens,
      map_token_wordTiles stops, Paragraph.withSpacing, token, isSpaced]

/-! ## Reading words back -/

/-- The tiles are words, and there are blanks between them. -/
def AreWords (tiles : List Tile) : Prop :=
  (∀ tile ∈ tiles, tile.IsWordTile) ∧ ∀ tile ∈ tiles.tail, tile.gap ≠ []

/-- Words with blanks between them are the words of the text they make up. -/
theorem wordTiles_weave {tiles : List Tile} (areWords : AreWords tiles) {tail : List Char}
    (blank : Blank tail) : wordTiles (weave tiles ++ tail) = tiles := by
  induction tiles with
  | nil => exact wordTiles_blank blank
  | cons tile tiles ih =>
    have first := areWords.1 tile (by simp)
    have rest : AreWords tiles :=
      ⟨fun other mem => areWords.1 other (List.mem_cons_of_mem tile mem),
        fun other mem => areWords.2 other (List.mem_of_mem_tail mem)⟩
    have stops : StopsAt isVisible (weave tiles ++ tail) := by
      cases tiles with
      | nil =>
        rw [weave_nil, List.nil_append, stopsAt_isVisible_iff, blank.startsBlank_iff]
        exact em _
      | cons next tiles =>
        have nonempty := areWords.2 next (by simp)
        rw [stopsAt_isVisible_iff, weave_cons, List.append_assoc, startsBlank_append nonempty,
          (areWords.1 next (by simp)).gap.startsBlank_iff]
        exact Or.inr nonempty
    rw [weave_cons, List.append_assoc, List.append_assoc, wordTiles_cons first.gap first.text stops,
      ih rest]
    rw [← first.kind, ← first.inner]

end Refill
