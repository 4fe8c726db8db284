import Refill.Proofs.Construct.BreakTag
import Refill.Proofs.Construct.CodeSpan
import Refill.Proofs.Construct.Link
import Refill.Proofs.Tiling.Tile

/-!
# Tiles of a cut

A cut of a text gives tiles: the blanks around the text between two constructs become the
gaps of the tiles. The destination of a link is marked as such. The tokens of a cut are
those of its tiles, whatever the text (`map_token_tiles`); and a scanner that reads the
grammar of well formed constructs tiles every trimmed text (`tiles_cut`).
-/

namespace Refill

open Text Tile

/-- The tiles of a construct, of which the first has the given gap. -/
def Construct.tiles (gap : List Char) : Construct → List Tile
  | codeSpan text => [⟨gap, .atomic, text, false⟩]
  | link opener inner destination =>
      [⟨gap, .plain, opener, false⟩, ⟨inner, .atomic, destination, true⟩]
  | breakTag text => [⟨gap, .lineBreak, text, false⟩]

/-- The tile of a text between constructs; none if that is blank. -/
def Cut.plainTile (text : List Char) : List Tile :=
  if (trim text).isEmpty then [] else [⟨leading text, .plain, trim text, false⟩]

def Cut.tiles : Cut → List Tile
  | last text => plainTile text
  | before text construct later =>
      plainTile text ++ construct.tiles (blankTail text) ++ later.tiles

/-- The blanks behind the last tile. -/
def Cut.tail : Cut → List Char
  | last text => blankTail text
  | before _ _ later => later.tail

/-! ## The text between constructs -/

theorem blank_blankTail (text : List Char) : Blank (blankTail text) :=
  (blank_takeWhile _).reverse

theorem blankTail_of_blank {text : List Char} (blank : Blank text) : blankTail text = text := by
  have whole := takeWhile_append_of_blank blank.reverse []
  rw [List.append_nil, List.takeWhile_nil, List.append_nil] at whole
  rw [blankTail, whole, List.reverse_reverse]

theorem Text.Tight.blankTail_append {text before after : List Char} (tight : Tight text)
    (blank : Blank after) : blankTail (before ++ text ++ after) = after := by
  have ends := tight.reverse.startsBlank_append_right before.reverse
  rw [blankTail, List.reverse_append, List.reverse_append,
    takeWhile_append_of_blank blank.reverse, takeWhile_eq_nil ends, List.append_nil,
    List.reverse_reverse]

theorem endsBlank_eq (text : List Char) : endsBlank text = !(blankTail text).isEmpty := by
  rw [← startsBlank_reverse, blankTail]
  cases text.reverse with
  | nil => rfl
  | cons c rest =>
    rw [List.takeWhile_cons]
    by_cases blank : isBlank c <;> simp [startsBlank, blank]

theorem startsBlank_eq (text : List Char) : startsBlank text = !(leading text).isEmpty := by
  cases text with
  | nil => rfl
  | cons c rest =>
    rw [leading, List.takeWhile_cons]
    by_cases blank : isBlank c <;> simp [startsBlank, blank]

namespace Cut

theorem plainTile_blank {text : List Char} (blank : Blank text) : plainTile text = [] := by
  simp [plainTile, trim_eq_nil_iff.mpr blank]

theorem plainTile_append {text before after : List Char} (tight : Tight text)
    (left : Blank before) (right : Blank after) :
    plainTile (before ++ text ++ after) = [⟨before, .plain, text, false⟩] := by
  rw [plainTile, tight.trim_append left right, tight.leading_append left]
  simp [tight.nonempty]

/-- A text is blank, or it is a tile between blanks. -/
theorem blank_or_tight (text : List Char) :
    Blank text ∨ ∃ before inner after, text = before ++ inner ++ after ∧ Blank before ∧
      Tight inner ∧ Blank after := by
  by_cases left : trim text = []
  · exact Or.inl (trim_eq_nil_iff.mp left)
  · exact Or.inr ⟨leading text, trim text, trailing text, (leading_append text).symm,
      blank_leading text, tight_trim left, blank_trailing text⟩

theorem weave_plainTile (text : List Char) : weave (plainTile text) ++ blankTail text = text := by
  rcases blank_or_tight text with blank | ⟨before, inner, after, rfl, left, tight, right⟩
  · rw [plainTile_blank blank, blankTail_of_blank blank, weave_nil, List.nil_append]
  · rw [plainTile_append tight left right, tight.blankTail_append right]
    simp

theorem map_token_plainTile (text : List Char) : (plainTile text).map token = plainToken text := by
  by_cases empty : trim text = []
  · simp [plainTile, plainToken, empty]
  · simp [plainTile, plainToken, empty, token, isSpaced, startsBlank_eq]

theorem sound_plainTile {text : List Char} : ∀ tile ∈ plainTile text, tile.Sound := by
  unfold plainTile
  split
  · simp
  next left =>
    intro tile mem
    rw [List.mem_singleton.mp mem]
    exact ⟨blank_leading text, tight_trim (by simpa using left), by simp⟩

theorem kind_of_mem_plainTile {text : List Char} {tile : Tile} (mem : tile ∈ plainTile text) :
    tile.kind = .plain := by
  unfold plainTile at mem
  split at mem
  · cases mem
  · rw [List.mem_singleton.mp mem]

end Cut

/-! ## The tiles of a cut -/

theorem Construct.map_token_tiles (gap : List Char) (construct : Construct) :
    (construct.tiles gap).map token = construct.tokens (!gap.isEmpty) := by
  cases construct <;> simp [Construct.tiles, Construct.tokens, token, isSpaced]

theorem Construct.weave_tiles (gap : List Char) (construct : Construct) :
    weave (construct.tiles gap) = gap ++ construct.source := by
  cases construct <;> simp [Construct.tiles, Construct.source]

namespace Cut

theorem map_token_tiles (cut : Cut) : cut.tiles.map token = cut.tokens := by
  induction cut with
  | last text => exact map_token_plainTile text
  | before text construct later ih =>
    simp only [tiles, tokens, List.map_append, map_token_plainTile, Construct.map_token_tiles, ih,
      endsBlank_eq]

theorem weave_tiles (cut : Cut) : weave cut.tiles ++ cut.tail = cut.source := by
  induction cut with
  | last text => exact weave_plainTile text
  | before text construct later ih =>
    have text_eq := weave_plainTile text
    simp only [tiles, tail, source, weave_append, Construct.weave_tiles, List.append_assoc, ih]
    rw [← List.append_assoc (weave _), text_eq]

theorem blank_tail (cut : Cut) : Blank cut.tail := by
  induction cut with
  | last text => exact blank_blankTail text
  | before text construct later ih => exact ih

theorem inner_of_head {cut : Cut} {tile : Tile} (head_eq : cut.tiles.head? = some tile) :
    tile.isDestination = false := by
  have plain : ∀ text, ∀ other ∈ plainTile text, other.isDestination = false := by
    intro text other mem
    unfold plainTile at mem
    split at mem
    · cases mem
    · rw [List.mem_singleton.mp mem]
  cases cut with
  | last text => exact plain text tile (List.mem_of_mem_head? head_eq)
  | before text construct later =>
    rw [tiles, List.append_assoc, List.head?_append] at head_eq
    cases text_eq : (plainTile text).head? with
    | some other =>
      rw [text_eq, Option.some_or] at head_eq
      cases head_eq
      exact plain text tile (List.mem_of_mem_head? text_eq)
    | none =>
      rw [text_eq, Option.none_or] at head_eq
      cases construct <;> cases head_eq <;> rfl

theorem kind_ne_word (cut : Cut) : ∀ tile ∈ cut.tiles, tile.kind ≠ .word := by
  have plain : ∀ text, ∀ tile ∈ plainTile text, tile.kind ≠ .word := by
    intro text tile mem
    simp [kind_of_mem_plainTile mem]
  induction cut with
  | last text => exact plain text
  | before text construct later ih =>
    intro tile mem
    simp only [tiles, List.mem_append] at mem
    rcases mem with (mem | mem) | mem
    · exact plain text tile mem
    · cases construct <;> simp [Construct.tiles] at mem <;> aesop
    · exact ih tile mem

end Cut

/-! ## Tilings by scanners -/

theorem Scanner.cut_nil (scanner : Scanner) : scanner.cut [] = .last [] := by
  rw [Scanner.cut, Scanner.cutFrom, dif_pos (by rfl)]
  rfl

/-- Every construct that stands somewhere can be tiled. -/
def Grammar.Tileable (grammar : Grammar) : Prop :=
  ∀ {construct later gap}, grammar.Stands construct later → Blank gap →
    ∀ tile ∈ construct.tiles gap, tile.Sound

namespace Cut

variable {grammar : Grammar}

/-- What holds of the tiles of all constructs and of the texts between them holds of the cut. -/
theorem forall_mem_tiles {P : Tile → Prop} (plain : ∀ text, ∀ tile ∈ plainTile text, P tile)
    (stands : ∀ {construct later gap}, grammar.Stands construct later → Blank gap →
      ∀ tile ∈ construct.tiles gap, P tile) {cut : Cut} (fits : cut.Fits grammar) :
    ∀ tile ∈ cut.tiles, P tile := by
  induction cut with
  | last text => exact plain text
  | before text construct later ih =>
    intro tile mem
    simp only [tiles, List.mem_append] at mem
    rcases mem with (mem | mem) | mem
    · exact plain text tile mem
    · exact stands fits.2.1 (blank_blankTail text) tile mem
    · exact ih fits.2.2 tile mem

theorem sound_tiles (tileable : grammar.Tileable) {cut : Cut} (fits : cut.Fits grammar) :
    ∀ tile ∈ cut.tiles, tile.Sound :=
  forall_mem_tiles (fun _ => sound_plainTile) tileable fits

theorem tail_eq_nil {cut : Cut} (tight : Tight cut.source) : cut.tail = [] := by
  apply cut.blank_tail.eq_nil_of_ends
  rw [cut.weave_tiles]
  exact tight.ends

/-- A cut of a trimmed text that fits such a grammar is a tiling. -/
theorem tiles_tiles (tileable : grammar.Tileable) {cut : Cut} (fits : cut.Fits grammar)
    (tight : Tight cut.source) : Tiles cut.source cut.tiles := by
  have weave_eq := cut.weave_tiles
  rw [tail_eq_nil tight, List.append_nil] at weave_eq
  exact .of_weave tight weave_eq (sound_tiles tileable fits) fun tile => inner_of_head

end Cut

/-- A scanner that reads such a grammar tiles every trimmed text. -/
theorem Scanner.Reads.tiles_cut {scanner : Scanner} {grammar : Grammar}
    {Sound : ∀ text, scanner.Memo text → Prop} (reads : scanner.Reads grammar Sound)
    (tileable : grammar.Tileable) {text : List Char} (tight : Tight text) :
    Tiles text (scanner.cut text).tiles := by
  have tiling := Cut.tiles_tiles tileable (reads.fits_cut text)
  rw [reads.source_cut] at tiling
  exact tiling tight

/-! ## The constructs of the three grammars -/

theorem isBlank_of_isTrailing {c : Char} (trailing : isTrailing c) : isBlank c = false := by
  simp only [isTrailing, Bool.and_eq_true, Bool.not_eq_true'] at trailing
  exact trailing.1.1.1.1

/-- A text with punctuation behind it has no blank at its end if it had none before. -/
theorem endsBlank_append_punctuation {text punctuation : List Char}
    (ends : endsBlank text = false) (trailing : ∀ c ∈ punctuation, isTrailing c) :
    endsBlank (text ++ punctuation) = false := by
  by_cases empty : punctuation = []
  · rwa [empty, List.append_nil]
  · rw [endsBlank_append empty, endsBlank, Option.any_eq_false]
    intro c last_eq
    simpa using isBlank_of_isTrailing (trailing c (List.mem_of_getLast? last_eq))

theorem CodeSpan.IsSpan.tight {span later : List Char} (isSpan : IsSpan span later) :
    Tight span := by
  rcases isSpan with ⟨fence, body, punctuation, isBody, rfl, trailing, _⟩
  have positive := isBody.positive
  refine ⟨by simp [isBody.nonempty], ?_, ?_⟩
  · rw [ticks_eq_cons positive]
    rfl
  · apply endsBlank_append_punctuation _ trailing
    rw [endsBlank, ticks_eq_concat positive, ← List.append_assoc, List.getLast?_concat]
    rfl

theorem CodeSpan.tileable_grammar : CodeSpan.grammar.Tileable := by
  rintro _ later gap ⟨span, rfl, isSpan⟩ blank tile mem
  rw [List.mem_singleton.mp mem]
  exact ⟨blank, isSpan.tight, by simp⟩

theorem Link.IsOpener.tight {opener : List Char} {close : Char} (isOpener : IsOpener opener close) :
    Tight opener := by
  rcases isOpener with ⟨label, opening, rfl, _, close_eq⟩
  refine ⟨by simp, rfl, ?_⟩
  rw [endsBlank, show '[' :: (label ++ [']', opening]) = '[' :: (label ++ [']']) ++ [opening] by simp,
    List.getLast?_concat]
  rcases destinationClose_eq close_eq with ⟨rfl, _⟩ | ⟨rfl, _⟩ <;> decide

theorem Link.IsDestination.tight {destination later : List Char} {opening close : Char}
    (close_eq : destinationClose opening = some close)
    (isDestination : IsDestination close destination later) : Tight destination := by
  rcases isDestination with ⟨body, punctuation, rfl, _, starts, trailing, _⟩
  refine ⟨by simp, starts, ?_⟩
  rw [show body ++ close :: punctuation = body ++ [close] ++ punctuation by simp]
  apply endsBlank_append_punctuation _ trailing
  simp [endsBlank, not_isBlank_close close_eq]

theorem Link.tileable_grammar : Link.grammar.Tileable := by
  rintro _ later gap ⟨opener, inner, destination, close, rfl, isOpener, innerBlank, isDestination⟩
    blank tile mem
  simp only [Construct.tiles, List.mem_cons, List.not_mem_nil, or_false] at mem
  rcases mem with rfl | rfl
  · exact ⟨blank, isOpener.tight, by simp⟩
  · rcases isOpener with ⟨_, _, _, _, close_eq⟩
    exact ⟨innerBlank, isDestination.tight close_eq, by simp⟩

theorem BreakTag.IsTag.tight {tag : List Char} (isTag : IsTag tag) : Tight tag := by
  rcases isTag with ⟨name, slash, isName, _, rfl⟩
  rcases isName.exists_chars with ⟨second, third, rfl, _⟩
  refine ⟨by simp, rfl, ?_⟩
  · rw [← List.append_assoc, endsBlank, List.getLast?_concat]
    rfl

theorem BreakTag.tileable_grammar : BreakTag.grammar.Tileable := by
  rintro _ later gap ⟨tag, rfl, isTag⟩ blank tile mem
  rw [List.mem_singleton.mp mem]
  exact ⟨blank, isTag.tight, by simp⟩

end Refill
