import Refill.Proofs.Tiling.Cut
import Refill.Proofs.Tiling.Words

/-!
# Seams

Where two tokens touch, no run of backticks goes on from one into the other, and if they
come from between links, one of them is a break tag. A `Border` says which characters may
touch. Before the destination of a link stands the bracket that opens it. `Joined` says so
of all seams of a list of tiles. It holds of the tiles of a cut that fits one of the grammars
(`Cut.joined_tiles`) and of words, and cutting plain tiles preserves it (`Joined.flatMap`).
-/

namespace Refill

open Text Tile CodeSpan

/-- Which characters may touch at a seam. -/
abbrev Border : Type := Char → Char → Prop

/-- No run of backticks goes on across the seam. -/
def Border.noRun : Border :=
  fun last next => last = '`' → next ≠ '`'

/-- The seam is at an end of a tag. -/
def Border.byTag : Border :=
  fun last next => last = '>' ∨ next = '<'

/-- Where the texts meet, their characters may touch. -/
def Touch (border : Border) (front back : List Char) : Prop :=
  ∀ last next, front.getLast? = some last → back.head? = some next → border last next

/-- The tile may stand behind the given character. -/
structure Seam (border : Border) (before : Option Char) (tile : Tile) : Prop where
  apart : tile.gap = [] → ∀ last next, before = some last → tile.text.head? = some next →
    border last next
  opened : tile.isDestination → ∃ opening close, before = some opening ∧
    Link.destinationClose opening = some close ∧ close ∈ tile.text

/-- The last character of the tiles, or the one before them. -/
def endOf (before : Option Char) : List Tile → Option Char
  | [] => before
  | tile :: rest => endOf tile.text.getLast? rest

/-- Every tile may stand behind the one before it, and the first one behind the character. -/
def Joined (border : Border) (before : Option Char) : List Tile → Prop
  | [] => True
  | tile :: rest => Seam border before tile ∧ Joined border tile.text.getLast? rest

theorem Border.noRun_of_byTag {last next : Char} (byTag : Border.byTag last next) :
    Border.noRun last next := by
  rintro rfl rfl
  rcases byTag with same | same <;> cases same

variable {border : Border} {before : Option Char} {front back tiles : List Tile} {tile : Tile}

theorem joined_append :
    Joined border before (front ++ back) ↔
      Joined border before front ∧ Joined border (endOf before front) back := by
  induction front generalizing before with
  | nil => simp [Joined, endOf]
  | cons tile front ih => simp [Joined, endOf, ih, and_assoc]

theorem Joined.mono {wider : Border} (weaker : ∀ last next, border last next → wider last next)
    (joined : Joined border before tiles) : Joined wider before tiles := by
  induction tiles generalizing before with
  | nil => trivial
  | cons tile tiles ih =>
    rcases joined with ⟨seam, joined⟩
    refine ⟨⟨?_, seam.opened⟩, ih joined⟩
    intro glued last next before_eq head_eq
    exact weaker last next (seam.apart glued last next before_eq head_eq)

/-- Anything but a destination may stand at the front. -/
theorem Joined.at_front (joined : Joined border before tiles)
    (inner : ∀ tile, tiles.head? = some tile → tile.isDestination = false) :
    Joined border none tiles := by
  cases tiles with
  | nil => trivial
  | cons tile tiles =>
    refine ⟨⟨by simp, ?_⟩, joined.2⟩
    intro isDestination
    rw [inner tile rfl] at isDestination
    cases isDestination

theorem endOf_eq (sound : ∀ tile ∈ tiles, tile.Sound) :
    endOf before tiles = (weave tiles).getLast?.or before := by
  induction tiles generalizing before with
  | nil => rfl
  | cons tile tiles ih =>
    have nonempty := (sound tile (by simp)).text.nonempty
    have rest : ∀ other ∈ tiles, other.Sound :=
      fun other mem => sound other (List.mem_cons_of_mem tile mem)
    rw [endOf, ih rest, weave_cons, getLast?_append _ (by simp [nonempty]),
      List.getLast?_append]
    cases last_eq : tile.text.getLast? with
    | none => exact absurd (List.getLast?_eq_none_iff.mp last_eq) nonempty
    | some c => cases (weave tiles).getLast? <;> rfl

theorem endOf_tiles {text : List Char} (tiling : Tiles text tiles) (nonempty : text ≠ []) :
    endOf before tiles = text.getLast? := by
  rw [endOf_eq tiling.sound, tiling.weave_eq]
  cases last_eq : text.getLast? with
  | none => exact absurd (List.getLast?_eq_none_iff.mp last_eq) nonempty
  | some c => rfl

/-! ## Seams of a cut -/

/-- Constructs and the text around them may touch. -/
def Cut.Apart (border : Border) : Cut → Prop
  | .last _ => True
  | .before text construct later =>
      Touch border text construct.source ∧ Touch border construct.source later.source ∧
        later.Apart border

/-- A link has the bracket before its destination that opens it. -/
def Construct.Opened (border : Border) : Construct → Prop
  | codeSpan _ => True
  | link opener _ destination => ∃ opening close, opener.getLast? = some opening ∧
      Link.destinationClose opening = some close ∧ close ∈ destination ∧
      ∀ next, border opening next
  | breakTag _ => True

/-- Constructs can be tiled, and may touch the text around them. -/
structure Grammar.Seamless (grammar : Grammar) (border : Border) : Prop where
  tileable : grammar.Tileable
  opened : ∀ {construct later}, grammar.Stands construct later → construct.Opened border
  apart : ∀ {text construct later}, grammar.Stands construct later →
    grammar.Idle text (construct.source ++ later) →
      Touch border text construct.source ∧ Touch border construct.source later

theorem Cut.Fits.apart {grammar : Grammar} (seamless : grammar.Seamless border) {cut : Cut}
    (fits : cut.Fits grammar) : cut.Apart border := by
  induction cut with
  | last text => trivial
  | before text construct later ih =>
    rcases seamless.apart fits.2.1 fits.1 with ⟨left, right⟩
    exact ⟨left, right, ih fits.2.2⟩

theorem Construct.endOf_tiles {construct : Construct} {gap : List Char}
    (sound : ∀ tile ∈ construct.tiles gap, tile.Sound) :
    endOf before (construct.tiles gap) = construct.source.getLast? := by
  cases construct with
  | codeSpan text => rfl
  | link opener inner destination =>
    have nonempty := (sound ⟨inner, .atomic, destination, true⟩ (by simp [tiles])).text.nonempty
    exact (getLast?_append _ nonempty).symm
  | breakTag text => rfl

theorem Construct.joined_tiles {construct : Construct} {gap : List Char}
    (sound : ∀ tile ∈ construct.tiles gap, tile.Sound) (opened : construct.Opened border)
    (apart : gap = [] → ∀ last next, before = some last → construct.source.head? = some next →
      border last next) : Joined border before (construct.tiles gap) := by
  cases construct with
  | codeSpan text => exact ⟨⟨apart, by simp⟩, trivial⟩
  | link opener inner destination =>
    have nonempty := (sound ⟨gap, .plain, opener, false⟩ (by simp [tiles])).text.nonempty
    rcases opened with ⟨opening, close, opening_eq, close_eq, mem, free⟩
    refine ⟨⟨?_, by simp⟩, ⟨?_, fun _ => ⟨opening, close, opening_eq, close_eq, mem⟩⟩, trivial⟩
    · intro glued last next before_eq head_eq
      apply apart glued last next before_eq
      rw [source, List.append_assoc, List.head?_append_of_ne_nil _ nonempty]
      exact head_eq
    · intro _ last next last_eq _
      rw [opening_eq] at last_eq
      cases last_eq
      exact free next
  | breakTag text => exact ⟨⟨apart, by simp⟩, trivial⟩

namespace Cut

variable {grammar : Grammar}

/-- The tiles of a cut that fits such a grammar are joined. -/
theorem joined_tiles (seamless : grammar.Seamless border) {cut : Cut} (fits : cut.Fits grammar)
    (apart : ∀ last next, before = some last → cut.source.head? = some next → border last next) :
    Joined border before cut.tiles := by
  have seams := fits.apart seamless
  induction cut generalizing before with
  | last text =>
    rcases blank_or_tight text with blank | ⟨left, inner, right, rfl, leftBlank, tight, rightBlank⟩
    · rw [tiles, plainTile_blank blank]
      trivial
    · rw [tiles, plainTile_append tight leftBlank rightBlank]
      refine ⟨⟨?_, by simp⟩, trivial⟩
      rintro rfl last next before_eq head_eq
      apply apart last next before_eq
      simpa [source, List.head?_append_of_ne_nil _ tight.nonempty] using head_eq
  | before text construct later ih =>
    rcases seams with ⟨leftApart, rightApart, laterApart⟩
    have sound : ∀ {gap}, Blank gap → ∀ tile ∈ construct.tiles gap, tile.Sound :=
      seamless.tileable fits.2.1
    have joinedLater : Joined border construct.source.getLast? later.tiles :=
      ih fits.2.2 rightApart laterApart
    have opened := seamless.opened fits.2.1
    have nonempty := grammar.source_ne_nil fits.2.1
    rw [tiles, List.append_assoc, joined_append, joined_append]
    rcases blank_or_tight text with blank | ⟨left, inner, right, rfl, leftBlank, tight, rightBlank⟩
    · rw [plainTile_blank blank, blankTail_of_blank blank, endOf,
        Construct.endOf_tiles (sound blank)]
      refine ⟨trivial, Construct.joined_tiles (sound blank) opened ?_, joinedLater⟩
      rintro rfl last next before_eq head_eq
      apply apart last next before_eq
      simpa [source, List.head?_append_of_ne_nil _ nonempty] using head_eq
    · rw [plainTile_append tight leftBlank rightBlank, tight.blankTail_append rightBlank,
        Construct.endOf_tiles (sound rightBlank)]
      refine ⟨⟨⟨?_, by simp⟩, trivial⟩, Construct.joined_tiles (sound rightBlank) opened ?_,
        joinedLater⟩
      · rintro rfl last next before_eq head_eq
        apply apart last next before_eq
        simpa [source, List.head?_append_of_ne_nil _ tight.nonempty] using head_eq
      · rintro rfl last next last_eq head_eq
        apply leftApart last next _ head_eq
        rw [List.append_nil, getLast?_append _ tight.nonempty]
        exact last_eq

end Cut

/-! ## The three grammars -/

theorem touch_noRun {front back : List Char} (apart : ¬Meet front back) :
    Touch Border.noRun front back := by
  rintro last next last_eq head_eq rfl rfl
  exact apart ⟨last_eq, head_eq⟩

theorem CodeSpan.seamless_grammar : CodeSpan.grammar.Seamless Border.noRun where
  tileable := tileable_grammar
  opened := by
    rintro _ later ⟨span, rfl, _⟩
    trivial
  apart := by
    rintro text _ later ⟨span, rfl, isSpan⟩ idle
    refine ⟨touch_noRun ?_, touch_noRun ?_⟩
    · rintro ⟨ends, starts⟩
      refine idle.apart ⟨ends, ?_⟩
      rw [Construct.source, List.head?_append_of_ne_nil _ isSpan.tight.nonempty]
      exact starts
    · rintro ⟨ends, starts⟩
      rcases isSpan with ⟨fence, body, punctuation, _, rfl, trailing, _, plain⟩
      by_cases empty : punctuation = []
      · rw [empty, List.nil_append] at plain
        exact startsPlain_iff.mp plain starts
      · rw [Construct.source, getLast?_append _ empty] at ends
        simpa [isTrailing] using trailing '`' (List.mem_of_getLast? ends)

theorem Link.seamless_grammar : Link.grammar.Seamless Border.noRun where
  tileable := tileable_grammar
  opened := by
    rintro _ later ⟨opener, gap, destination, close, rfl, ⟨label, opening, rfl, _, close_eq⟩, _,
      ⟨body, punctuation, rfl, _⟩⟩
    refine ⟨opening, close, ?_, close_eq, by simp, ?_⟩
    · rw [show '[' :: (label ++ [']', opening]) = '[' :: (label ++ [']']) ++ [opening] by simp,
        List.getLast?_concat]
    · intro next tick
      rcases destinationClose_eq close_eq with ⟨rfl, _⟩ | ⟨rfl, _⟩ <;> cases tick
  apart := by
    rintro text _ later ⟨opener, gap, destination, close, rfl, ⟨label, opening, rfl, _, close_eq⟩,
      _, ⟨body, punctuation, rfl, _, _, trailing, _⟩⟩ _
    refine ⟨touch_noRun ?_, touch_noRun ?_⟩
    · rintro ⟨_, starts⟩
      simp [Construct.source] at starts
    · rintro ⟨ends, _⟩
      rw [Construct.source, getLast?_append _ (by simp), getLast?_append _ (by simp)] at ends
      have mem := List.mem_of_getLast? ends
      rcases List.mem_cons.mp mem with same | mem
      · rcases destinationClose_eq close_eq with ⟨_, rfl⟩ | ⟨_, rfl⟩ <;> cases same
      · simpa [isTrailing] using trailing '`' mem

theorem BreakTag.seamless_grammar : BreakTag.grammar.Seamless Border.byTag where
  tileable := tileable_grammar
  opened := by
    rintro _ later ⟨tag, rfl, _⟩
    trivial
  apart := by
    rintro text _ later ⟨tag, rfl, name, slash, isName, _, rfl⟩ _
    rcases isName.exists_chars with ⟨second, third, rfl, _⟩
    constructor
    · intro last next _ head_eq
      rw [Construct.source, List.cons_append] at head_eq
      cases head_eq
      exact Or.inr rfl
    · intro last next last_eq _
      rw [Construct.source, ← List.append_assoc, List.getLast?_concat] at last_eq
      cases last_eq
      exact Or.inl rfl

/-! ## Words, and tilings in stages -/

theorem joined_wordTiles {text : List Char} (parted : before = none ∨ StopsAt isVisible text) :
    Joined border before (wordTiles text) := by
  induction text using word_induction generalizing before with
  | blank text blank =>
    rw [wordTiles_blank blank]
    trivial
  | word gap word rest blank isWord stops ih =>
    rw [wordTiles_cons blank isWord stops]
    refine ⟨⟨?_, by simp⟩, ih (Or.inr stops)⟩
    intro gap_eq last next before_eq
    rcases parted with start | parted
    · rw [start] at before_eq
      cases before_eq
    · exact absurd gap_eq (gap_ne_nil isWord parted)

/-- Cutting the plain ones of joined tiles into joined tiles leaves them joined. -/
theorem Joined.flatMap {stage : List Char → List Tile}
    (tiling : ∀ text, Tight text → Tiles text (stage text))
    (joins : ∀ text, Tight text → Joined border none (stage text))
    (sound : ∀ tile ∈ tiles, tile.Sound) (joined : Joined border before tiles) :
    Joined border before (tiles.flatMap (cutWith stage)) := by
  induction tiles generalizing before with
  | nil => trivial
  | cons tile tiles ih =>
    rcases joined with ⟨seam, joined⟩
    have rest := ih (fun other mem => sound other (List.mem_cons_of_mem tile mem)) joined
    have tight := (sound tile (by simp)).text
    rw [List.flatMap_cons, joined_append]
    by_cases plain : tile.isPlain
    · have inner := tiling tile.text tight
      have innerJoined := joins tile.text tight
      rw [cutWith_of_plain plain]
      have end_eq : endOf none (stage tile.text) = tile.text.getLast? :=
        endOf_tiles inner tight.nonempty
      rcases inner.exists_cons tight.nonempty with ⟨first, others, stage_eq, gap_eq, inner_eq⟩
      rw [stage_eq] at innerJoined end_eq ⊢
      have head_eq : tile.text.head? = first.text.head? := by
        have first_tight := (inner.sound first (by simp [stage_eq])).text
        rw [← inner.weave_eq, stage_eq, weave_cons, gap_eq, List.nil_append,
          List.head?_append_of_ne_nil _ first_tight.nonempty]
      refine ⟨⟨⟨?_, ?_⟩, innerJoined.2⟩, ?_⟩
      · intro glued last next before_eq first_eq
        exact seam.apart glued last next before_eq (head_eq.trans first_eq)
      · intro isDestination
        exact absurd isDestination (by simp [inner_eq])
      · rw [withGap_cons, endOf]
        rw [endOf] at end_eq
        rwa [end_eq]
    · rw [cutWith_of_not_plain (by simpa using plain)]
      exact ⟨⟨seam, trivial⟩, rest⟩

end Refill
