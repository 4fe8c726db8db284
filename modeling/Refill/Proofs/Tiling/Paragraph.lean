import Refill.Proofs.Tiling.Padding
import Refill.Proofs.Tiling.Seam

/-!
# Tiles of a paragraph

The stages in which a paragraph is cut into tokens cut it into tiles as well. The tiles
follow the recursion of `Paragraph.expand`: what one stage leaves plain is tiled by the later
ones (`tileInStages`), and the first tile of such a text takes over the gap before it, as
the first token takes over the spacing. `tokens_tile` says what this makes of a paragraph.
-/

namespace Refill

open Text Tile

namespace Paragraph

/-- A way to tile a text. -/
abbrev Tiler : Type := List Char → List Tile

/-- The tiler tiles every trimmed text, and joins the tiles. -/
structure Tiler.Sound (tiler : Tiler) (border : Border) : Prop where
  tiles : ∀ text, Tight text → Tiles text (tiler text)
  joined : ∀ text, Tight text → Joined border none (tiler text)

/-- The tiles are where the stage has its tokens. -/
def Tiler.Follows (tiler : Tiler) (stage : Stage) : Prop :=
  ∀ gap text, (withGap gap (tiler text)).map token = withSpacing (!gap.isEmpty) (stage text)

/-- Tiles a text in stages: what one tiler leaves plain is tiled by the later ones. -/
def tileInStages : List Tiler → Tiler
  | [], text => [⟨[], .word, text, false⟩]
  | tiler :: tilers, text => (tiler text).flatMap (cutWith (tileInStages tilers))

def tilers : List Tiler :=
  [fun text => (CodeSpan.scanner.cut text).tiles, fun text => (Link.scanner.cut text).tiles,
    fun text => (BreakTag.scanner.cut text).tiles, wordTiles]

/-- The tiles of a paragraph. -/
def tiles (text : List Char) : List Tile :=
  tileInStages tilers (trim text)

/-! ## The stages -/

theorem follows_tiles (scanner : Scanner) :
    Tiler.Follows (fun text => (scanner.cut text).tiles) scanner.tokens := by
  intro gap text
  have inner : ∀ tile, (scanner.cut text).tiles.head? = some tile → tile.isDestination = false :=
    fun tile => Cut.inner_of_head
  dsimp only
  rw [Scanner.tokens, ← Cut.map_token_tiles]
  generalize (scanner.cut text).tiles = tiles at inner
  cases tiles with
  | nil => rfl
  | cons first others => simp [withGap, withSpacing, token, isSpaced, inner first rfl]

theorem follows_tilers : List.Forall₂ Tiler.Follows tilers stages := by
  refine .cons (follows_tiles _) (.cons (follows_tiles _) (.cons (follows_tiles _) (.cons ?_ .nil)))
  exact map_token_withGap_wordTiles

variable {border : Border}

theorem Tiler.Sound.mono {tiler : Tiler} {wider : Border} (sound : tiler.Sound border)
    (weaker : ∀ last next, border last next → wider last next) : tiler.Sound wider where
  tiles := sound.tiles
  joined text tight := (sound.joined text tight).mono weaker

theorem sound_of_reads {scanner : Scanner} {grammar : Grammar}
    {Sound : ∀ text, scanner.Memo text → Prop} (reads : scanner.Reads grammar Sound)
    (seamless : grammar.Seamless border) :
    Tiler.Sound (fun text => (scanner.cut text).tiles) border where
  tiles _ tight := reads.tiles_cut seamless.tileable tight
  joined text _ := Cut.joined_tiles seamless (reads.fits_cut text) (by simp)

theorem sound_wordTiles : Tiler.Sound wordTiles border where
  tiles _ tight := tiles_wordTiles tight
  joined _ _ := joined_wordTiles (Or.inl rfl)

theorem sound_breakTag : Tiler.Sound (fun text => (BreakTag.scanner.cut text).tiles) .byTag :=
  sound_of_reads BreakTag.reads_scanner BreakTag.seamless_grammar

theorem sound_link : Tiler.Sound (fun text => (Link.scanner.cut text).tiles) .noRun :=
  sound_of_reads Link.reads_scanner Link.seamless_grammar

theorem sound_codeSpan : Tiler.Sound (fun text => (CodeSpan.scanner.cut text).tiles) .noRun :=
  sound_of_reads CodeSpan.reads_scanner CodeSpan.seamless_grammar

theorem sound_of_mem_tilers : ∀ tiler ∈ tilers, Tiler.Sound tiler .noRun := by
  simp only [tilers, List.forall_mem_cons]
  exact ⟨sound_codeSpan, sound_link, sound_breakTag.mono fun _ _ => Border.noRun_of_byTag,
    sound_wordTiles, by simp⟩

/-! ## Tiling in stages -/

section Stages

variable {list : List Tiler} {border : Border} {text : List Char}

/-- Sound tilers in stages are a sound tiler. -/
theorem sound_tileInStages (sound : ∀ tiler ∈ list, Tiler.Sound tiler border) :
    Tiler.Sound (tileInStages list) border := by
  induction list with
  | nil =>
    refine ⟨fun text tight => ⟨by simp [tileInStages], ?_, ?_⟩, fun text _ => ⟨⟨?_, ?_⟩, trivial⟩⟩
    · intro tile mem
      rw [List.mem_singleton.mp mem]
      exact ⟨Blank.nil, tight, by simp⟩
    · intro tile head_eq
      cases head_eq
      exact ⟨rfl, rfl⟩
    · simp
    · simp
  | cons tiler list ih =>
    have first := sound tiler (by simp)
    have later := ih (fun other mem => sound other (List.mem_cons_of_mem tiler mem))
    refine ⟨?_, ?_⟩
    · intro text tight
      exact (first.tiles text tight).flatMap later.tiles
    · intro text tight
      exact (first.joined text tight).flatMap later.tiles later.joined (first.tiles text tight).sound

theorem withGap_flatMap {stage : Tiler} (tiling : ∀ text, Tight text → Tiles text (stage text))
    {outer : List Tile} (sound : ∀ tile ∈ outer, tile.Sound) (gap : List Char) :
    withGap gap (outer.flatMap (cutWith stage)) = (withGap gap outer).flatMap (cutWith stage) := by
  cases outer with
  | nil => rfl
  | cons tile others =>
    rcases exists_cutWith tiling (sound tile (by simp)) with ⟨first, pieces, cut_eq, _⟩
    rw [withGap_cons, List.flatMap_cons, List.flatMap_cons, cut_eq]
    by_cases plain : tile.isPlain
    · rw [cutWith_of_plain plain] at cut_eq
      have gapped : ({ tile with gap := gap } : Tile).isPlain := plain
      rw [cutWith_of_plain gapped]
      cases stage_eq : stage tile.text with
      | nil => simp [stage_eq, withGap] at cut_eq
      | cons inner more =>
        simp only [stage_eq, withGap_cons, List.cons.injEq] at cut_eq
        simp [← cut_eq.1, ← cut_eq.2, withGap_cons]
    · have other : tile.isPlain = false := by simpa using plain
      have gapped : ({ tile with gap := gap } : Tile).isPlain = false := other
      rw [cutWith_of_not_plain other] at cut_eq
      rw [cutWith_of_not_plain gapped]
      simp only [List.cons.injEq] at cut_eq
      simp [← cut_eq.1, ← cut_eq.2, withGap_cons]

/-- The tiles that follow the stages have the tokens to which the stages expand the text. -/
theorem map_token_tileInStages {stages : List Stage}
    (follows : List.Forall₂ Tiler.Follows list stages)
    (sound : ∀ tiler ∈ list, Tiler.Sound tiler border) (tight : Tight text) {gap : List Char}
    (blank : Blank gap) :
    (withGap gap (tileInStages list text)).map token = expand stages (!gap.isEmpty) text := by
  induction follows generalizing text gap with
  | nil => simp [tileInStages, expand, withGap, token, isSpaced]
  | @cons tiler stage list stages first later ih =>
    have tiling := sound tiler (by simp)
    have rest : ∀ other ∈ list, Tiler.Sound other border :=
      fun other mem => sound other (List.mem_cons_of_mem tiler mem)
    have outer := tiling.tiles text tight
    rw [tileInStages, expand, withGap_flatMap (sound_tileInStages rest).tiles outer.sound,
      ← first gap text, List.map_flatMap, List.flatMap_map]
    apply List.flatMap_congr
    intro tile mem
    have tileSound := outer.sound_withGap blank tile mem
    rw [isPlain_token]
    by_cases plain : tile.isPlain
    · have inner : tile.isDestination = false := by
        by_contra isDestination
        have atomic := tileSound.atomic (by simpa using isDestination)
        rw [isPlain_iff.mp plain] at atomic
        cases atomic
      rw [cutWith_of_plain plain, if_pos plain, ih rest tileSound.text tileSound.gap]
      simp [token, isSpaced, inner]
    · have other : tile.isPlain = false := by simpa using plain
      simp [cutWith_of_not_plain other, other]

theorem mem_tileInStages_cons {tiler : Tiler} {piece : Tile}
    (mem : piece ∈ tileInStages (tiler :: list) text) :
    ∃ tile ∈ tiler text, (tile.isPlain = false ∧ piece = tile) ∨
      tile.isPlain ∧ ∃ inner ∈ tileInStages list tile.text,
        piece.kind = inner.kind ∧ piece.text = inner.text := by
  rcases List.mem_flatMap.mp mem with ⟨tile, tileMem, pieceMem⟩
  refine ⟨tile, tileMem, ?_⟩
  by_cases plain : tile.isPlain
  · refine Or.inr ⟨plain, ?_⟩
    rw [cutWith_of_plain plain] at pieceMem
    cases stage_eq : tileInStages list tile.text with
    | nil => simp [stage_eq, withGap] at pieceMem
    | cons first others =>
      rw [stage_eq, withGap_cons] at pieceMem
      rcases List.mem_cons.mp pieceMem with rfl | inside
      · exact ⟨first, by simp, rfl, rfl⟩
      · exact ⟨piece, List.mem_cons_of_mem first inside, rfl, rfl⟩
  · left
    rw [cutWith_of_not_plain (by simpa using plain)] at pieceMem
    exact ⟨by simpa using plain, List.mem_singleton.mp pieceMem⟩

/-- What holds of all words, and of what each tiler cuts for good, holds of all tiles. -/
theorem forall_mem_tileInStages (P : Token.Kind → List Char → Prop) (word : ∀ text, P .word text)
    (cut : ∀ tiler ∈ list, ∀ text, ∀ tile ∈ tiler text, tile.isPlain = false →
      P tile.kind tile.text) :
    ∀ tile ∈ tileInStages list text, P tile.kind tile.text := by
  induction list generalizing text with
  | nil =>
    intro tile mem
    rw [List.mem_singleton.mp mem]
    exact word text
  | cons tiler list ih =>
    rw [List.forall_mem_cons] at cut
    intro tile mem
    rcases mem_tileInStages_cons mem with
      ⟨outer, outerMem, ⟨other, rfl⟩ | ⟨_, inner, innerMem, kind_eq, text_eq⟩⟩
    · exact cut.1 text tile outerMem other
    · rw [kind_eq, text_eq]
      exact ih cut.2 inner innerMem

theorem not_plain_of_mem_tileInStages {tile : Tile} (mem : tile ∈ tileInStages list text) :
    tile.kind ≠ .plain := by
  apply forall_mem_tileInStages (fun kind _ => kind ≠ .plain) (by simp) _ tile mem
  intro tiler _ text tile _ other
  simpa [isPlain] using other

/-- The tilers make words only of texts without blanks. -/
def SpellsWords (list : List Tiler) : Prop :=
  ∀ text, ∀ tile ∈ tileInStages list text, tile.kind = .word → IsWord tile.text

theorem SpellsWords.cons {tiler : Tiler} (spells : SpellsWords list)
    (noWords : ∀ text, ∀ tile ∈ tiler text, tile.kind ≠ .word) : SpellsWords (tiler :: list) := by
  intro text tile mem word
  rcases mem_tileInStages_cons mem with
    ⟨outer, outerMem, ⟨_, rfl⟩ | ⟨_, inner, innerMem, kind_eq, text_eq⟩⟩
  · exact absurd word (noWords text tile outerMem)
  · rw [text_eq]
    exact spells outer.text inner innerMem (kind_eq.symm.trans word)

theorem spellsWords_wordTiles : SpellsWords [wordTiles] := by
  intro text tile mem _
  rcases mem_tileInStages_cons mem with ⟨outer, outerMem, ⟨_, rfl⟩ | ⟨plain, _⟩⟩
  · exact (isWordTile_of_mem outerMem).text
  · rw [isPlain_iff, (isWordTile_of_mem outerMem).kind] at plain
    cases plain

theorem spellsWords_tilers : SpellsWords tilers :=
  ((spellsWords_wordTiles.cons fun _ => Cut.kind_ne_word _).cons
    fun _ => Cut.kind_ne_word _).cons fun _ => Cut.kind_ne_word _

end Stages

/-! ## Tiles of a paragraph -/

variable {text : List Char}

theorem sound_tilers : Tiler.Sound (tileInStages tilers) .noRun :=
  sound_tileInStages sound_of_mem_tilers

theorem tiles_blank (blank : Blank text) : tiles text = [] := by
  have nothing : ∀ scanner : Scanner, (scanner.cut []).tiles = [] := by
    intro scanner
    rw [scanner.cut_nil]
    rfl
  simp [tiles, trim_eq_nil_iff.mpr blank, tilers, tileInStages, nothing]

/-- The tiles of a text make up what trimming leaves of it. -/
theorem tiles_trim (text : List Char) : Tiles (trim text) (tiles text) := by
  by_cases left : trim text = []
  · rw [tiles_blank (trim_eq_nil_iff.mp left), left]
    exact ⟨rfl, by simp, by simp⟩
  · exact sound_tilers.tiles (trim text) (tight_trim left)

theorem tokens_trim (text : List Char) : tokens (trim text) = tokens text := by
  have first : withSpacing false (CodeSpan.scanner.tokens (trim text)) =
      withSpacing false (CodeSpan.scanner.tokens text) := by
    have trimmed := follows_tiles CodeSpan.scanner [] (trim text)
    have whole := follows_tiles CodeSpan.scanner [] text
    dsimp only at trimmed whole
    rw [CodeSpan.withGap_tiles_trim [] text] at whole
    exact trimmed.symm.trans whole
  rw [tokens, tokens, stages, expand, expand, first]

theorem map_token_tiles (text : List Char) : (tiles text).map token = tokens text := by
  rw [← tokens_trim]
  by_cases left : trim text = []
  · rw [tiles_blank (trim_eq_nil_iff.mp left), left]
    simp [tokens, stages, expand, Scanner.tokens, Scanner.cut_nil, Cut.tokens, Cut.plainToken,
      withSpacing, show trim [] = [] from rfl]
  · have tight := tight_trim left
    rcases (tiles_trim text).exists_cons left with ⟨first, others, tiles_eq, gap_eq, _⟩
    have same := map_token_tileInStages follows_tilers sound_of_mem_tilers tight Blank.nil
    rw [← tiles, tiles_eq, withGap_cons, ← gap_eq] at same
    rw [tiles_eq, same]
    simp [tokens, gap_eq]

/-- The words among the tiles have no blanks in them. -/
theorem isWord_of_mem_tiles {tile : Tile} (mem : tile ∈ tiles text) (word : tile.kind = .word) :
    IsWord tile.text :=
  spellsWords_tilers (trim text) tile mem word

theorem joined_tiles (text : List Char) : Joined .noRun none (tiles text) := by
  by_cases left : trim text = []
  · rw [tiles_blank (trim_eq_nil_iff.mp left)]
    trivial
  · exact sound_tilers.joined (trim text) (tight_trim left)

/-! ## What a paragraph is made of -/

/-- The tiles are where the tokens of the text stand. -/
structure Tiling (text : List Char) (tiles : List Tile) : Prop where
  /-- The tokens are slices of the text, one after the other. -/
  text_eq : leading text ++ weave tiles ++ trailing text = text
  /-- Everything outside the tokens is blank. -/
  blank : Blank (leading text) ∧ Blank (trailing text) ∧ ∀ tile ∈ tiles, Blank tile.gap
  /-- No token is empty, and none begins or ends with a blank. -/
  tight : ∀ tile ∈ tiles, Tight tile.text
  /-- Nothing remains to be cut. -/
  not_plain : ∀ tile ∈ tiles, tile.kind ≠ .plain
  /-- There are no blanks in a word. -/
  word : ∀ tile ∈ tiles, tile.kind = .word → ∀ c ∈ tile.text, isBlank c = false
  /-- The first token is not spaced. -/
  first : ∀ tile, tiles.head? = some tile → tile.gap = [] ∧ tile.isDestination = false
  /-- A destination is behind the bracket that opens it. -/
  opened : ∀ front before tile back, tiles = front ++ before :: tile :: back → tile.isDestination →
    tile.kind = .atomic ∧ ∃ opening close, before.text.getLast? = some opening ∧
      Link.destinationClose opening = some close ∧ close ∈ tile.text

theorem tiling_tiles (text : List Char) : Tiling text (tiles text) where
  text_eq := by rw [(tiles_trim text).weave_eq, leading_append]
  blank := ⟨blank_leading text, blank_trailing text,
    fun tile mem => ((tiles_trim text).sound tile mem).gap⟩
  tight tile mem := ((tiles_trim text).sound tile mem).text
  not_plain _ := not_plain_of_mem_tileInStages
  word tile mem word c inside :=
    isBlank_eq_false_iff.mpr ((isWord_of_mem_tiles mem word).visible c inside)
  first := (tiles_trim text).starts
  opened := by
    intro front before tile back tiles_eq isDestination
    have joined := joined_tiles text
    rw [tiles_eq, joined_append] at joined
    exact ⟨((tiles_trim text).sound tile (by simp [tiles_eq])).atomic isDestination,
      joined.2.2.1.opened isDestination⟩

theorem join_map_token {tiles : List Tile}
    (first : ∀ tile, tiles.head? = some tile → tile.gap = []) :
    Token.join (tiles.map token) = weave (tiles.map tidy) := by
  cases tiles with
  | nil => rfl
  | cons tile others =>
    have same : withGap [] ((tile :: others).map tidy) = (tile :: others).map tidy := by
      simp [tidy, tidyGap, isSpaced, first tile rfl]
    rw [← same, weave_withGap_tidy (by simp), List.nil_append]

/-- The tokens of a text tile it, and they tell where blanks stand between them; joined, they are
the text with a space for every gap, and none before a destination. -/
theorem tokens_tile (text : List Char) :
    Tiling text (tiles text) ∧ tokens text = (tiles text).map token ∧
      Token.join (tokens text) = weave ((tiles text).map tidy) ∧
      ((leading text = [] ∧ trailing text = [] ∧
        ∀ tile ∈ tiles text, tile.gap = tile.tidyGap) → Token.join (tokens text) = text) := by
  have joined : Token.join (tokens text) = weave ((tiles text).map tidy) := by
    rw [← map_token_tiles]
    exact join_map_token fun tile head_eq => ((tiles_trim text).starts tile head_eq).1
  refine ⟨tiling_tiles text, (map_token_tiles text).symm, joined, ?_⟩
  rintro ⟨noLeading, noTrailing, tidied⟩
  have text_eq := leading_append text
  rw [noLeading, noTrailing, List.nil_append, List.append_nil] at text_eq
  have same : (tiles text).map tidy = tiles text := by
    have pointwise : ∀ tile ∈ tiles text, tile.tidy = tile := by
      intro tile mem
      rw [tidy, ← tidied tile mem]
    exact (List.map_congr_left pointwise).trans (List.map_id _)
  rw [joined, same, (tiles_trim text).weave_eq, text_eq]

end Paragraph

end Refill
