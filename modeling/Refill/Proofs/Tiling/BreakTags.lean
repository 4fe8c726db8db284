import Refill.Proofs.Construct.TagSeams
import Refill.Proofs.Tiling.Cover
import Refill.Proofs.Tiling.Paragraph

/-!
# Break tags of a paragraph

Wherever a break tag stands in a text, it is inside one code span or destination, or it is a token
of its own (`tokens_breakTags`). A code span, a link and a tag begin and end with characters that
leave no tag across their seams, so a tag of a text is covered by one tile in each stage
(`Cut.exists_covers`). The first two stages may leave that tile plain for the later ones. The third
does not, and the last one, which would part a tag at its space, never sees one.
-/

namespace Refill

open Text Tile BreakTag

/-! ## Tags of a cut -/

namespace Tile

/-- With these characters around a tag, the tile is a construct that holds it, or the tag itself. -/
def KeepsTag (tile : Tile) (left right : List Char) : Prop :=
  tile.kind = .atomic ∨ tile.kind = .lineBreak ∧ left = [] ∧ right = []

/-- The tile keeps the tag, or it remains to be cut. -/
def SparesTag (tile : Tile) (left right : List Char) : Prop :=
  tile.kind = .plain ∨ tile.KeepsTag left right

end Tile

/-- What may cover a tag, with the characters of the tile around it. -/
abbrev Cover : Type := Tile → List Char → List Char → Prop

/-- A tag is never cut by a construct, and it is covered as said where it stands in one or in the
text between two. -/
structure Grammar.Finds (grammar : Grammar) (cover : Cover) : Prop where
  starts : ∀ {construct later}, grammar.Stands construct later →
    ∃ c rest, construct.source = c :: rest ∧ isInner c = false ∧ c ≠ '>'
  ends : ∀ {construct later}, grammar.Stands construct later →
    ∃ before mark punctuation, construct.source = before ++ mark :: punctuation ∧
      isInner mark = false ∧ mark ≠ '<' ∧ '<' ∉ punctuation
  construct : ∀ {construct later front tag behind}, grammar.Stands construct later → IsTag tag →
    construct.source = front ++ (tag ++ behind) → ∀ gap, ∃ tile left right,
      Covers (construct.tiles gap) (gap ++ front) tag tile left right ∧ cover tile left right
  between : ∀ {text later front tag behind}, grammar.Idle text later → IsTag tag →
    text = front ++ (tag ++ behind) → ∀ tile left right, tile.kind = .plain → cover tile left right

namespace Cut

variable {grammar : Grammar} {cover : Cover} {front tag behind : List Char}

theorem exists_covers_plainTile {text later : List Char} (finds : grammar.Finds cover)
    (idle : grammar.Idle text later) (isTag : IsTag tag)
    (text_eq : text = front ++ (tag ++ behind)) :
    ∃ tile left right, Covers (plainTile text) front tag tile left right ∧
      cover tile left right := by
  have covered := finds.between idle isTag text_eq
  rcases blank_or_tight text with blank | ⟨before, inner, after, rfl, left, tight, right⟩
  · rcases isTag.exists_inner with ⟨inner, tag_eq, _⟩
    exact absurd (by simp [text_eq, tag_eq]) (blank.notMem (show isBlank '<' = false by decide))
  · rw [List.append_assoc] at text_eq
    rcases isTag.tight.exists_between left right text_eq with
      ⟨onLeft, onRight, inner_eq, rfl⟩
    rw [plainTile_append tight left right]
    exact ⟨_, onLeft, onRight, covers_singleton inner_eq, covered _ onLeft onRight rfl⟩

/-- A tag is covered in the cut of a text. -/
theorem exists_covers (finds : grammar.Finds cover) {cut : Cut} (fits : cut.Fits grammar)
    (isTag : IsTag tag) (source_eq : cut.source = front ++ (tag ++ behind)) :
    ∃ tile left right, Covers cut.tiles front tag tile left right ∧ cover tile left right := by
  induction cut generalizing front with
  | last text => exact exists_covers_plainTile finds fits isTag source_eq
  | before text construct later ih =>
    rcases fits with ⟨idle, stands, laterFits⟩
    have uncutBefore : Uncut text (construct.source ++ later.source) := by
      rcases finds.starts stands with ⟨c, rest, construct_eq, outer, other⟩
      rw [construct_eq, List.cons_append]
      exact uncut_of_starts outer other
    have uncutBehind : Uncut construct.source later.source := by
      rcases finds.ends stands with ⟨before, mark, punctuation, construct_eq, outer, other, opens⟩
      rw [construct_eq]
      exact uncut_of_ends outer other opens
    have text_weave := weave_plainTile text
    rw [source, List.append_assoc] at source_eq
    -- No seam cuts the tag, so it stands before the construct, in it, or behind it.
    rcases uncutBefore.occurs isTag source_eq with ⟨rest, text_eq⟩ | ⟨place, rfl, rest_eq⟩
    · rcases exists_covers_plainTile finds idle isTag text_eq with ⟨tile, left, right, covers, fit⟩
      exact ⟨tile, left, right, (covers.append_right _).append_right _, fit⟩
    rcases uncutBehind.occurs isTag rest_eq with ⟨rest, construct_eq⟩ | ⟨place, rfl, later_eq⟩
    · rcases finds.construct stands isTag construct_eq (blankTail text) with
        ⟨tile, left, right, covers, fit⟩
      have placed := (covers.append_left (plainTile text)).append_right later.tiles
      rw [← List.append_assoc, text_weave] at placed
      exact ⟨tile, left, right, placed, fit⟩
    · rcases ih laterFits later_eq with ⟨tile, left, right, covers, fit⟩
      have placed := covers.append_left (plainTile text ++ construct.tiles (blankTail text))
      rw [weave_append, Construct.weave_tiles, ← List.append_assoc (weave _), text_weave,
        List.append_assoc text] at placed
      exact ⟨tile, left, right, placed, fit⟩

end Cut

/-! ## The three grammars -/

theorem not_mem_punctuation {punctuation : List Char} (trailing : ∀ c ∈ punctuation, isTrailing c) :
    '<' ∉ punctuation := by
  intro mem
  simpa [isTrailing] using trailing '<' mem

theorem CodeSpan.finds_grammar : CodeSpan.grammar.Finds SparesTag where
  starts := by
    rintro _ later ⟨span, rfl, fence, body, punctuation, isBody, rfl, _⟩
    rw [ticks_eq_cons isBody.positive]
    exact ⟨'`', _, rfl, by decide, by decide⟩
  ends := by
    rintro _ later ⟨span, rfl, fence, body, punctuation, isBody, rfl, trailing, _⟩
    refine ⟨ticks fence ++ body ++ ticks (fence - 1), '`', punctuation, ?_, by decide, by decide,
      not_mem_punctuation trailing⟩
    have closing : ticks fence = ticks (fence - 1) ++ ['`'] := ticks_eq_concat isBody.positive
    rw [Construct.source]
    calc ticks fence ++ body ++ ticks fence ++ punctuation
        = ticks fence ++ body ++ (ticks (fence - 1) ++ ['`']) ++ punctuation := by rw [← closing]
      _ = ticks fence ++ body ++ ticks (fence - 1) ++ '`' :: punctuation := by simp
  construct := by
    rintro _ later front tag behind ⟨span, rfl, _⟩ _ source_eq gap
    exact ⟨_, front, behind, covers_singleton source_eq, Or.inr (Or.inl rfl)⟩
  between _ _ _ _ _ _ plain := Or.inl plain

theorem Link.finds_grammar : Link.grammar.Finds SparesTag where
  starts := by
    rintro _ later ⟨opener, gap, destination, close, rfl, ⟨label, opening, rfl, _⟩, _⟩
    exact ⟨'[', _, rfl, by decide, by decide⟩
  ends := by
    rintro _ later ⟨opener, gap, destination, close, rfl, ⟨label, opening, rfl, _, close_eq⟩, _,
      ⟨body, punctuation, rfl, _, _, trailing, _⟩⟩
    refine ⟨'[' :: (label ++ [']', opening]) ++ gap ++ body, close, punctuation,
      by simp [Construct.source], ?_, ?_, not_mem_punctuation trailing⟩
    · rcases destinationClose_eq close_eq with ⟨_, rfl⟩ | ⟨_, rfl⟩ <;> decide
    · rcases destinationClose_eq close_eq with ⟨_, rfl⟩ | ⟨_, rfl⟩ <;> decide
  construct := by
    rintro _ later front tag behind ⟨opener, inner, destination, close, rfl, isOpener, blank, _⟩
      isTag source_eq gap
    have uncut : Uncut opener (inner ++ destination) := by
      rcases isOpener with ⟨label, opening, rfl, _, close_eq⟩
      rw [show '[' :: (label ++ [']', opening]) = ('[' :: (label ++ [']'])) ++ [opening] by simp]
      rcases destinationClose_eq close_eq with ⟨rfl, _⟩ | ⟨rfl, _⟩
      · exact uncut_of_ends (by decide) (by decide) (by simp)
      · exact uncut_of_ends (by decide) (by decide) (by simp)
    rw [Construct.source, List.append_assoc] at source_eq
    rcases uncut.occurs isTag source_eq with ⟨rest, opener_eq⟩ | ⟨place, rfl, rest_eq⟩
    · exact ⟨_, front, rest, (covers_singleton opener_eq).append_right _, Or.inl rfl⟩
    · rw [← List.append_nil destination] at rest_eq
      rcases isTag.tight.exists_between blank Blank.nil rest_eq with
        ⟨left, right, destination_eq, rfl⟩
      have covers : Covers [⟨inner, .atomic, destination, true⟩] (inner ++ left) tag
          ⟨inner, .atomic, destination, true⟩ left right := covers_singleton destination_eq
      have placed := covers.append_left [⟨gap, .plain, opener, false⟩]
      rw [weave_cons, weave_nil, List.append_nil, List.append_assoc] at placed
      exact ⟨_, left, right, placed, Or.inr (Or.inl rfl)⟩
  between _ _ _ _ _ _ plain := Or.inl plain

theorem BreakTag.finds_grammar : BreakTag.grammar.Finds KeepsTag where
  starts := by
    rintro _ later ⟨tag, rfl, isTag⟩
    rcases isTag.exists_inner with ⟨inner, rfl, _⟩
    exact ⟨'<', _, rfl, by decide, by decide⟩
  ends := by
    rintro _ later ⟨tag, rfl, isTag⟩
    rcases isTag.exists_inner with ⟨inner, rfl, _⟩
    exact ⟨'<' :: inner, '>', [], rfl, by decide, by decide, by simp⟩
  construct := by
    rintro _ later front tag behind ⟨outer, rfl, outerTag⟩ isTag source_eq gap
    rw [Construct.source] at source_eq
    rw [source_eq] at outerTag
    rcases isTag.eq_of_inside outerTag with ⟨rfl, rfl⟩
    exact ⟨_, [], [], covers_singleton source_eq, Or.inr ⟨rfl, rfl, rfl⟩⟩
  between := by
    rintro text later front tag behind nowhere isTag rfl
    rcases isTag.exists_inner with ⟨inner, rfl, _⟩
    have none := (nowhere_append.mp (nowhere_append.mp nowhere).2).1.1
    exact absurd ⟨_, _, isTag, rfl⟩ none

/-- The tiles that mark line breaks are tags. -/
def Grammar.Marks (grammar : Grammar) : Prop :=
  ∀ {construct later gap}, grammar.Stands construct later → ∀ tile ∈ construct.tiles gap,
    tile.kind = .lineBreak → IsTag tile.text

theorem CodeSpan.marks_grammar : CodeSpan.grammar.Marks := by
  rintro _ later gap ⟨span, rfl, _⟩ tile mem kind_eq
  rw [List.mem_singleton.mp mem] at kind_eq
  cases kind_eq

theorem Link.marks_grammar : Link.grammar.Marks := by
  rintro _ later gap ⟨opener, inner, destination, close, rfl, _⟩ tile mem kind_eq
  simp only [Construct.tiles, List.mem_cons, List.not_mem_nil, or_false] at mem
  rcases mem with rfl | rfl <;> cases kind_eq

theorem BreakTag.marks_grammar : BreakTag.grammar.Marks := by
  rintro _ later gap ⟨tag, rfl, isTag⟩ tile mem _
  rw [List.mem_singleton.mp mem]
  exact isTag

/-! ## Tags of a paragraph -/

namespace Paragraph

/-- The tiler covers the tags of every trimmed text as said. -/
def Tiler.Finds (tiler : Tiler) (cover : Cover) : Prop :=
  ∀ text, Tight text → ∀ front tag behind, IsTag tag → text = front ++ (tag ++ behind) →
    ∃ tile left right, Covers (tiler text) front tag tile left right ∧ cover tile left right

/-- The tiles of the tiler that mark line breaks are tags. -/
def Tiler.Marks (tiler : Tiler) : Prop :=
  ∀ text, ∀ tile ∈ tiler text, tile.kind = .lineBreak → IsTag tile.text

section Scanners

variable {scanner : Scanner} {grammar : Grammar} {Sound : ∀ text, scanner.Memo text → Prop}

theorem finds_of_reads {cover : Cover} (reads : scanner.Reads grammar Sound)
    (finds : grammar.Finds cover) :
    Tiler.Finds (fun text => (scanner.cut text).tiles) cover := by
  intro text _ front tag behind isTag text_eq
  exact Cut.exists_covers finds (reads.fits_cut text) isTag ((reads.source_cut text).trans text_eq)

theorem marks_of_reads (reads : scanner.Reads grammar Sound) (marks : grammar.Marks) :
    Tiler.Marks fun text => (scanner.cut text).tiles := by
  intro text
  refine Cut.forall_mem_tiles ?_ (fun stands _ => marks stands) (reads.fits_cut text)
  intro between tile mem kind_eq
  rw [Cut.kind_of_mem_plainTile mem] at kind_eq
  cases kind_eq

end Scanners

section Stages

variable {tiler : Tiler} {list : List Tiler} {border : Border}

/-- A stage that keeps the tags leaves nothing of them to the later ones. -/
theorem Tiler.Finds.of_keeps (first : tiler.Sound border)
    (later : ∀ other ∈ list, Tiler.Sound other border) (finds : tiler.Finds KeepsTag) :
    Tiler.Finds (tileInStages (tiler :: list)) KeepsTag := by
  intro text tight front tag behind isTag text_eq
  have tiling := (sound_tileInStages later).tiles
  rcases finds text tight front tag behind isTag text_eq with ⟨tile, left, right, covers, keeps⟩
  have other : tile.isPlain = false := by
    rcases keeps with kind | ⟨kind, _⟩ <;> simp [isPlain, kind]
  exact ⟨tile, left, right, covers.flatMap tiling (first.tiles text tight).sound other, keeps⟩

/-- A stage that spares the tags leaves them to later ones that keep them. -/
theorem Tiler.Finds.of_spares (first : tiler.Sound border)
    (later : ∀ other ∈ list, Tiler.Sound other border) (finds : tiler.Finds SparesTag)
    (laterFinds : Tiler.Finds (tileInStages list) KeepsTag) :
    Tiler.Finds (tileInStages (tiler :: list)) KeepsTag := by
  intro text tight front tag behind isTag text_eq
  have tiling := (sound_tileInStages later).tiles
  have sound := (first.tiles text tight).sound
  rcases finds text tight front tag behind isTag text_eq with ⟨tile, left, right, covers, spares⟩
  by_cases plain : tile.isPlain
  · have tileTight : Tight tile.text := (sound tile covers.mem).text
    rcases laterFinds tile.text tileTight left tag right isTag covers.text_eq with
      ⟨inner, innerLeft, innerRight, inside, keeps⟩
    rcases covers.flatMap_plain tiling sound plain inside with ⟨piece, kind_eq, covered⟩
    refine ⟨piece, innerLeft, innerRight, covered, ?_⟩
    rw [KeepsTag, kind_eq]
    exact keeps
  · have other : tile.isPlain = false := by simpa using plain
    rcases spares with kind | keeps
    · exact absurd (isPlain_iff.mpr kind) plain
    · exact ⟨tile, left, right, covers.flatMap tiling sound other, keeps⟩

end Stages

theorem finds_tilers : Tiler.Finds (tileInStages tilers) KeepsTag := by
  have sound := sound_of_mem_tilers
  rw [tilers, List.forall_mem_cons, List.forall_mem_cons, List.forall_mem_cons] at sound
  rcases sound with ⟨spans, links, tags, words⟩
  -- From the stage of the tags back to the first one; the words are cut after it.
  have breakTags := Tiler.Finds.of_keeps tags words
    (finds_of_reads BreakTag.reads_scanner BreakTag.finds_grammar)
  have belowLinks := Tiler.Finds.of_spares links (List.forall_mem_cons.mpr ⟨tags, words⟩)
    (finds_of_reads Link.reads_scanner Link.finds_grammar) breakTags
  exact Tiler.Finds.of_spares spans
    (List.forall_mem_cons.mpr ⟨links, List.forall_mem_cons.mpr ⟨tags, words⟩⟩)
    (finds_of_reads CodeSpan.reads_scanner CodeSpan.finds_grammar) belowLinks

theorem marks_of_mem_tilers : ∀ tiler ∈ tilers, tiler.Marks := by
  simp only [tilers, List.forall_mem_cons]
  refine ⟨marks_of_reads CodeSpan.reads_scanner CodeSpan.marks_grammar,
    marks_of_reads Link.reads_scanner Link.marks_grammar,
    marks_of_reads BreakTag.reads_scanner BreakTag.marks_grammar, ?_, by simp⟩
  intro text tile mem kind_eq
  rw [(isWordTile_of_mem mem).kind] at kind_eq
  cases kind_eq

variable {text front tag behind : List Char}

theorem exists_covers_tiles (isTag : IsTag tag) (text_eq : text = front ++ (tag ++ behind)) :
    ∃ place tile left right, front = leading text ++ place ∧
      Covers (tiles text) place tag tile left right ∧ tile.KeepsTag left right := by
  have parts : leading text ++ (trim text ++ trailing text) = front ++ (tag ++ behind) := by
    rw [← List.append_assoc, leading_append, text_eq]
  rcases isTag.tight.exists_between (blank_leading text) (blank_trailing text) parts with
    ⟨place, rest, trim_eq, front_eq⟩
  have left : trim text ≠ [] := by
    rw [trim_eq]
    simp [isTag.tight.nonempty]
  rcases finds_tilers (trim text) (tight_trim left) place tag rest isTag trim_eq with
    ⟨tile, onLeft, onRight, covers, keeps⟩
  exact ⟨place, tile, onLeft, onRight, front_eq, covers, keeps⟩

theorem isTag_of_mem_tiles {tile : Tile} (mem : tile ∈ tiles text)
    (kind_eq : tile.kind = .lineBreak) : IsTag tile.text := by
  refine forall_mem_tileInStages (fun kind text => kind = .lineBreak → IsTag text) (by simp) ?_
    tile mem kind_eq
  intro tiler tilerMem text tile mem _
  exact marks_of_mem_tilers tiler tilerMem text tile mem

/-- Wherever a break tag stands in a text, one token holds it: an atomic one, or a line break that
is the tag and nothing else. All line breaks are such tags. -/
theorem tokens_breakTags (text : List Char) :
    tokens text = (tiles text).map token ∧ Tiling text (tiles text) ∧
      (∀ front tag behind, IsTag tag → text = front ++ (tag ++ behind) →
        ∃ place tile left right, front = leading text ++ place ∧
          Covers (tiles text) place tag tile left right ∧ tile.KeepsTag left right) ∧
      ∀ tile ∈ tiles text, tile.kind = .lineBreak → IsTag tile.text :=
  ⟨(map_token_tiles text).symm, tiling_tiles text,
    fun _ _ _ isTag text_eq => exists_covers_tiles isTag text_eq,
    fun _ mem kind_eq => isTag_of_mem_tiles mem kind_eq⟩

/-- A tag between two words that touch it. -/
theorem tokens_breakTags_inline :
    IsTag "<BR />".toList ∧ ∃ tile left right,
      Covers (tiles "a<BR />b".toList) "a".toList "<BR />".toList tile left right ∧
        tile.KeepsTag left right := by
  have isTag : IsTag "<BR />".toList := ⟨"<BR".toList, " /".toList, by rfl, by decide, rfl⟩
  have noBlanks : leading "a<BR />b".toList = [] := by decide
  rcases (tokens_breakTags "a<BR />b".toList).2.2.1 "a".toList _ "b".toList isTag rfl with
    ⟨place, tile, left, right, place_eq, covers, keeps⟩
  rw [noBlanks, List.nil_append] at place_eq
  rw [← place_eq] at covers
  exact ⟨isTag, tile, left, right, covers, keeps⟩

example : (tokens "a<BR />b `<br>`".toList).map Token.kind =
    [.word, .lineBreak, .word, .atomic] := by
  decide +kernel

end Paragraph

end Refill
