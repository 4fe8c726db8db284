import Mathlib.Data.List.Chain
import Refill.Proofs.Packing.Layout
import Refill.Proofs.Respacing.Reread
import Refill.Proofs.Respacing.Stable

/-!
# Rereading in stages

If the gaps of a paragraph change as a layout changes them, its tiles are found again, apart
from the break tags that its words make (`tiles_weave`). The proof follows the stages: the
last two read words and tags, and a stage before them finds its constructs again because its
grammar is stable, whatever the later stages make of the text between the constructs.
-/

namespace Refill

open Text Tile BreakTag

/-! ## The words and tags of a text -/

section Spelled

variable {afterWord : Prop} {tiles others : List Tile}

theorem spelled_wordTiles {text later : List Char} {more : List Tile}
    (follows : ∀ afterWord, Spelled afterWord more) (nowhere : Nowhere Begins text later)
    (parted : afterWord → StopsAt isVisible text) :
    Spelled afterWord (wordTiles text ++ more) := by
  induction text using word_induction generalizing afterWord with
  | blank text blank =>
    rw [wordTiles_blank blank]
    exact follows afterWord
  | word gap word rest blank isWord stops ih =>
    rcases nowhere_append.mp nowhere with ⟨_, nowhere⟩
    rcases nowhere_append.mp nowhere with ⟨inside, behind⟩
    rw [wordTiles_cons blank isWord stops, List.cons_append]
    have plain : Nowhere Begins word [] := nowhere_shorten inside
    refine Or.inr ⟨⟨⟨blank, rfl, isWord, rfl⟩, plain⟩, ?_, ih behind fun _ => stops⟩
    · intro after
      exact gap_ne_nil isWord (parted after)

/-- The words and tags of a cut are spelled out. -/
theorem spelled_wordsOf {cut : Cut} (fits : cut.Fits BreakTag.grammar) :
    Spelled False (wordsOf cut) := by
  induction cut with
  | last text =>
    rw [wordsOf_last, ← List.append_nil (wordTiles text)]
    exact spelled_wordTiles (fun _ => trivial) fits False.elim
  | before text construct later ih =>
    rcases fits with ⟨nowhere, ⟨tag, rfl, isTag⟩, laterFits⟩
    rw [wordsOf_before]
    refine spelled_wordTiles ?_ nowhere False.elim
    intro afterWord
    exact Or.inl ⟨⟨blank_blankTail text, rfl, isTag, rfl⟩, ih laterFits⟩

theorem Spelled.regapped (spelled : Spelled afterWord tiles)
    (regapped : List.Forall₂ Regapped tiles others) : Spelled afterWord others := by
  induction regapped generalizing afterWord with
  | nil => trivial
  | @cons tile other tiles others first _ ih =>
    rcases spelled with ⟨isTagTile, later⟩ | ⟨isPlainWord, parted, later⟩
    · refine Or.inl ⟨⟨first.blank, ?_, ?_, ?_⟩, ih later⟩
      · rw [first.kind, isTagTile.kind]
      · rw [first.text]
        exact isTagTile.text
      · rw [first.destination, isTagTile.inner]
    · refine Or.inr ⟨⟨⟨first.blank, ?_, ?_, ?_⟩, ?_⟩, ?_, ih later⟩
      · rw [first.kind, isPlainWord.kind]
      · rw [first.text]
        exact isPlainWord.text
      · rw [first.destination, isPlainWord.inner]
      · rw [first.text]
        exact isPlainWord.nowhere
      · intro after
        apply first.spaced
        simp [isSpaced, isPlainWord.inner, parted after]

end Spelled

/-! ## Pieces of tiles -/

/-- A plain tile comes before another one only if that is the label of a link. -/
def Parted (tile next : Tile) : Prop :=
  tile.isPlain → next.isPlain → next.text.head? = some '['

/-- Labels of links begin with a bracket. -/
def Grammar.Bracketed (grammar : Grammar) : Prop :=
  ∀ {opener gap destination later}, grammar.Stands (.link opener gap destination) later →
    opener.head? = some '['

theorem CodeSpan.bracketed_grammar : CodeSpan.grammar.Bracketed := by
  rintro opener gap destination later ⟨span, same, _⟩
  cases same

theorem Link.bracketed_grammar : Link.grammar.Bracketed := by
  rintro opener gap destination later ⟨_, _, _, _, same, ⟨label, opening, opener_eq, _⟩, _⟩
  cases same
  rw [opener_eq]
  rfl

theorem Cut.parted_tiles {grammar : Grammar} (bracketed : grammar.Bracketed) {cut : Cut}
    (fits : cut.Fits grammar) : cut.tiles.IsChain Parted := by
  have alone : ∀ text, (plainTile text).IsChain Parted := by
    intro text
    unfold plainTile
    split
    · exact .nil
    · exact .singleton _
  induction cut with
  | last text => exact alone text
  | before text construct later ih =>
    have later := ih fits.2.2
    rw [tiles, List.append_assoc, List.isChain_append]
    cases construct with
    | codeSpan span =>
      refine ⟨alone text, List.isChain_cons.mpr ⟨?_, later⟩, ?_⟩
      · intro next _ plain
        cases plain
      · intro tile _ next mem _ plain
        cases mem
        cases plain
    | link opener gap destination =>
      refine ⟨alone text, List.isChain_cons_cons.mpr ⟨?_, List.isChain_cons.mpr ⟨?_, later⟩⟩, ?_⟩
      · intro _ plain
        cases plain
      · intro next _ plain
        cases plain
      · intro tile _ next mem _ _
        cases mem
        exact bracketed fits.2.1
    | breakTag tag =>
      refine ⟨alone text, List.isChain_cons.mpr ⟨?_, later⟩, ?_⟩
      · intro next _ plain
        cases plain
      · intro tile _ next mem _ plain
        cases mem
        cases plain

/-- The tile that was cut into the pieces, with the gaps they have now. -/
def gather (tile : Tile) (pieces : List Tile) : Tile where
  gap := (pieces.head?.map Tile.gap).getD []
  kind := tile.kind
  text := weave (withGap [] pieces)
  isDestination := tile.isDestination

section Gather

variable {tile : Tile} {pieces : List Tile} {stage : List Char → List Tile} {border : Border}

theorem source_gather (tile : Tile) (pieces : List Tile) :
    (gather tile pieces).source = weave pieces := by
  cases pieces with
  | nil => rfl
  | cons first others => simp [gather, source]

theorem Tile.Regapped.respaced {other : Tile} (regapped : tile.Regapped other) (sound : tile.Sound) :
    tile.Respaced border other where
  kind := regapped.kind
  destination := regapped.destination
  blank := regapped.blank
  spaced := regapped.spaced
  text := by rw [regapped.text]; exact .refl sound.text
  verbatim _ := regapped.text

theorem gather_of_not_plain (other : tile.isPlain = false)
    (regapped : List.Forall₂ Regapped (tile.cutWith stage) pieces) :
    pieces = [gather tile pieces] ∧ tile.Regapped (gather tile pieces) := by
  rw [cutWith_of_not_plain other] at regapped
  rcases List.forall₂_cons_left_iff.mp regapped with ⟨piece, rest, first, none, rfl⟩
  rw [List.forall₂_nil_left_iff.mp none]
  have same : gather tile [piece] = piece := by
    rw [gather, ← first.kind, ← first.destination]
    simp
  rw [same]
  exact ⟨rfl, first⟩

/-- Without the gap before them, the pieces of a plain tile are those of its text. -/
theorem regapped_withGap (tiling : ∀ text, Tight text → Tiles text (stage text))
    (sound : tile.Sound) (plain : tile.isPlain)
    (regapped : List.Forall₂ Regapped (tile.cutWith stage) pieces) :
    List.Forall₂ Regapped (stage tile.text) (withGap [] pieces) ∧
      withGap (gather tile pieces).gap pieces = pieces ∧
      (tile.isSpaced → (gather tile pieces).gap ≠ []) ∧ Blank (gather tile pieces).gap := by
  rcases (tiling tile.text sound.text).exists_cons sound.text.nonempty with
    ⟨first, others, stage_eq, gap_eq, inner⟩
  rw [cutWith_of_plain plain, stage_eq, withGap_cons] at regapped
  rcases List.forall₂_cons_left_iff.mp regapped with ⟨piece, rest, head, later, rfl⟩
  rw [stage_eq]
  refine ⟨.cons ⟨head.kind, head.text, head.destination, Blank.nil, ?_⟩ later, rfl, ?_, head.blank⟩
  · simp [isSpaced, gap_eq]
  · intro spaced
    apply head.spaced
    simp only [isSpaced, Bool.and_eq_true] at spaced ⊢
    exact ⟨spaced.1, by simp [inner]⟩

theorem respaced_of_regapped {tiles others : List Tile} (sound : ∀ tile ∈ tiles, tile.Sound)
    (regapped : List.Forall₂ Regapped tiles others) :
    List.Forall₂ (Tile.Respaced border) tiles others := by
  induction regapped with
  | nil => exact .nil
  | @cons tile other tiles others first _ ih =>
    rw [List.forall_mem_cons] at sound
    exact .cons (first.respaced sound.1) (ih sound.2)

/-- Tiles with other gaps make up a text alike. -/
theorem alike_weave (stageSound : Paragraph.Tiler.Sound stage border) {text : List Char}
    (tight : Tight text) (regapped : List.Forall₂ Regapped (stage text) pieces)
    (starts : ∀ piece, pieces.head? = some piece → piece.gap = []) :
    Alike border text (weave pieces) := by
  have tiling := stageSound.tiles text tight
  have respaced := respaced_weave (fun _ _ => id) tiling.sound (stageSound.joined text tight)
    (respaced_of_regapped tiling.sound regapped)
  rw [tiling.weave_eq] at respaced
  apply Alike.of_respaced tight respaced
  cases pieces with
  | nil => rfl
  | cons piece pieces =>
    rw [weave_cons, starts piece rfl]
    exact (tight_weave (sound_of_regapped tiling.sound regapped)).starts

theorem respaced_gather (stageSound : Paragraph.Tiler.Sound stage border) (sound : tile.Sound)
    (regapped : List.Forall₂ Regapped (tile.cutWith stage) pieces) :
    tile.Respaced border (gather tile pieces) := by
  by_cases plain : tile.isPlain
  · rcases regapped_withGap stageSound.tiles sound plain regapped with
      ⟨regapped, _, spaced, blank⟩
    refine ⟨rfl, rfl, blank, spaced, ?_, by simp [plain]⟩
    apply alike_weave stageSound sound.text regapped
    intro piece head_eq
    cases pieces with
    | nil => cases head_eq
    | cons first others =>
      cases head_eq
      rfl
  · exact (gather_of_not_plain (by simpa using plain) regapped).2.respaced sound

end Gather

/-! ## Stages -/

namespace Paragraph

/-- Cut again with other gaps, a text has the same tiles, but for the tags that words make. -/
def Restores (stage : Tiler) : Prop :=
  ∀ text, Tight text → ∀ others, List.Forall₂ Regapped (stage text) others →
    stage (weave others) = reread others

section Stages

variable {stage : Tiler} {border : Border} {tile : Tile} {pieces : List Tile}

theorem cutWith_gather (restores : Restores stage) (stageSound : Tiler.Sound stage border)
    (sound : tile.Sound) (regapped : List.Forall₂ Regapped (tile.cutWith stage) pieces) :
    (gather tile pieces).cutWith stage = reread pieces := by
  by_cases plain : tile.isPlain
  · rcases regapped_withGap stageSound.tiles sound plain regapped with ⟨inner, whole, _, _⟩
    have gathered : (gather tile pieces).isPlain := plain
    rw [cutWith_of_plain gathered, show (gather tile pieces).text = weave (withGap [] pieces) from rfl,
      restores tile.text sound.text _ inner, ← withGap_reread]
    conv_rhs => rw [← whole]
    cases pieces <;> rfl
  · have other : tile.isPlain = false := by simpa using plain
    have gathered : (gather tile pieces).isPlain = false := other
    rcases gather_of_not_plain other regapped with ⟨alone, _⟩
    rw [cutWith_of_not_plain gathered]
    conv_rhs => rw [alone]
    rfl

/-- Only what was plain has words among its pieces. -/
theorem plain_of_word (noWord : tile.kind ≠ .word) {piece : Tile} (mem : piece ∈ pieces)
    (word : piece.kind = .word) (regapped : List.Forall₂ Regapped (tile.cutWith stage) pieces) :
    tile.isPlain := by
  by_contra other
  rcases gather_of_not_plain (by simpa using other) regapped with ⟨alone, _⟩
  rw [alone, List.mem_singleton] at mem
  rw [mem] at word
  exact noWord word

/-- The words on either side of a bracket do not make a tag. -/
theorem not_merges {next : Tile} {others : List Tile} (stageSound : Tiler.Sound stage border)
    (parted : Parted tile next) (noWord : tile.kind ≠ .word) (nextNoWord : next.kind ≠ .word)
    (nextSound : next.Sound) (regapped : List.Forall₂ Regapped (tile.cutWith stage) pieces)
    (nextRegapped : List.Forall₂ Regapped (next.cutWith stage) others) {last first : Tile}
    (last_eq : pieces.getLast? = some last) (first_eq : others.head? = some first) :
    ¬last.Merges first := by
  intro merges
  rcases List.head?_eq_some_iff.mp first_eq with ⟨more, rfl⟩
  have plain := plain_of_word noWord (List.mem_of_getLast? last_eq) merges.kind regapped
  have nextPlain := plain_of_word nextNoWord (by simp) merges.next_kind nextRegapped
  have bracket := (respaced_gather stageSound nextSound nextRegapped).text.head?_eq
  rw [parted plain nextPlain] at bracket
  rcases merges.tag.2 with ⟨rest, text_eq⟩
  simp [gather, ← text_eq] at bracket

/-- The pieces of tiles are gathered into tiles that are cut into what the pieces make. -/
theorem exists_gathered (restores : Restores stage) (stageSound : Tiler.Sound stage border)
    {tiles others : List Tile} (sound : ∀ tile ∈ tiles, tile.Sound)
    (noWords : ∀ tile ∈ tiles, tile.kind ≠ .word) (parted : tiles.IsChain Parted)
    (regapped : List.Forall₂ Regapped (tiles.flatMap (cutWith stage)) others) :
    ∃ gathered, List.Forall₂ (Tile.Respaced border) tiles gathered ∧
      weave gathered = weave others ∧ gathered.flatMap (cutWith stage) = reread others := by
  induction tiles generalizing others with
  | nil =>
    rw [List.forall₂_nil_left_iff.mp regapped]
    exact ⟨[], .nil, rfl, rfl⟩
  | cons tile tiles ih =>
    rw [List.flatMap_cons] at regapped
    rw [List.forall_mem_cons] at sound noWords
    rcases exists_append regapped with ⟨pieces, rest, rfl, first, later⟩
    rcases ih sound.2 noWords.2 parted.tail later with ⟨gathered, respaced, weave_eq, cut_eq⟩
    refine ⟨gather tile pieces :: gathered,
      .cons (respaced_gather stageSound sound.1 first) respaced, ?_, ?_⟩
    · rw [weave_append, ← weave_eq, ← source_gather tile pieces]
      rfl
    · rw [List.flatMap_cons, cutWith_gather restores stageSound sound.1 first, cut_eq,
        reread_append]
      -- Words that meet between two tiles would make a tag that neither tile accounts for.
      intro last next last_eq head_eq
      cases tiles with
      | nil =>
        rw [List.forall₂_nil_left_iff.mp later] at head_eq
        cases head_eq
      | cons second tiles =>
        rw [List.forall_mem_cons] at sound noWords
        rw [List.flatMap_cons] at later
        rcases exists_append later with ⟨behind, rest, rfl, secondRegapped, _⟩
        have nonempty : behind ≠ [] := by
          rcases exists_cutWith stageSound.tiles sound.2.1 with ⟨piece, more, second_eq, _⟩
          rw [second_eq] at secondRegapped
          rcases List.forall₂_cons_left_iff.mp secondRegapped with ⟨_, _, _, _, rfl⟩
          simp
        rw [List.head?_append_of_ne_nil _ nonempty] at head_eq
        exact not_merges stageSound (List.isChain_cons_cons.mp parted).1 noWords.1 noWords.2.1
          sound.2.1 first secondRegapped last_eq head_eq

end Stages

section Pipeline

variable {list : List Tiler} {inner outer : Border}

/-- A stage that finds its constructs again may come before stages that restore theirs. -/
theorem Restores.cons {scanner : Scanner} {grammar : Grammar}
    {Sound : ∀ text, scanner.Memo text → Prop} (restores : Restores (tileInStages list))
    (reads : scanner.Reads grammar Sound) (stable : grammar.Stable inner outer)
    (bracketed : grammar.Bracketed) (sound : ∀ tiler ∈ list, Tiler.Sound tiler inner) :
    Restores (tileInStages ((fun text => (scanner.cut text).tiles) :: list)) := by
  intro text tight others regapped
  have fits := reads.fits_cut text
  rcases exists_gathered restores (sound_tileInStages sound)
    (Cut.sound_tiles stable.tileable fits) (Cut.kind_ne_word _) (Cut.parted_tiles bracketed fits)
    regapped with ⟨gathered, respaced, weave_eq, cut_eq⟩
  rw [← weave_eq, tileInStages, reads.tiles_respaced stable tight respaced, cut_eq]

/-- The words of a text are cut no further. -/
theorem tileInStages_wordTiles (text : List Char) : tileInStages [wordTiles] text = wordTiles text := by
  rw [tileInStages]
  have whole : ∀ tile ∈ wordTiles text, tile.cutWith (tileInStages []) = [tile] := by
    intro tile mem
    apply cutWith_of_not_plain
    simp [isPlain, (isWordTile_of_mem mem).kind]
  rw [List.flatMap_congr whole, List.flatMap_singleton']

theorem restores_words_and_tags :
    Restores (tileInStages [fun text => (BreakTag.scanner.cut text).tiles, wordTiles]) := by
  have words_eq : ∀ text,
      tileInStages [fun text => (BreakTag.scanner.cut text).tiles, wordTiles] text =
        wordsOf (BreakTag.scanner.cut text) := by
    intro text
    rw [tileInStages, funext tileInStages_wordTiles]
    rfl
  intro text _ others regapped
  rw [words_eq] at regapped ⊢
  exact wordsOf_cut ((spelled_wordsOf (reads_cut text).1).regapped regapped)

/-- The stages of a paragraph find its tiles again. -/
theorem restores_tilers : Restores (tileInStages tilers) := by
  have links := restores_words_and_tags.cons Link.reads_scanner Link.stable_grammar
    Link.bracketed_grammar
    (List.forall_mem_cons.mpr ⟨sound_breakTag, List.forall_mem_singleton.mpr sound_wordTiles⟩)
  refine links.cons CodeSpan.reads_scanner CodeSpan.stable_grammar CodeSpan.bracketed_grammar ?_
  intro tiler mem
  exact sound_of_mem_tilers tiler (List.mem_cons_of_mem _ mem)

/-- Woven with other gaps, the tiles of a paragraph are found again, but for the tags that words
make. -/
theorem tiles_weave {text : List Char} {others : List Tile}
    (regapped : List.Forall₂ Regapped (tiles text) others)
    (starts : ∀ tile, others.head? = some tile → tile.gap = []) :
    tiles (weave others) = reread others := by
  by_cases left : trim text = []
  · rw [tiles_blank (trim_eq_nil_iff.mp left)] at regapped
    rw [List.forall₂_nil_left_iff.mp regapped, weave_nil, reread_nil, tiles_blank Blank.nil]
  · have tight := tight_trim left
    have woven := (alike_weave sound_tilers tight regapped starts).tight
    have trimmed := woven.trim_append Blank.nil Blank.nil
    rw [List.nil_append, List.append_nil] at trimmed
    rw [tiles, trimmed]
    exact restores_tilers (trim text) tight others regapped

end Pipeline

end Paragraph

end Refill
