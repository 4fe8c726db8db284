import Mathlib.Data.List.Forall2
import Refill.Proofs.Respacing.Relation
import Refill.Proofs.Tiling.Seam

/-!
# Respaced cuts

If the tiles of a cut are respaced, one by one, then the text they make up is cut into just
these tiles, as long as the grammar is stable: its constructs and the text between them
remain what they are in respaced texts (`Scanner.Reads.tiles_respaced`).
-/

namespace Refill

open Text Tile

/-- The texts begin with the same visible character and are respaced behind it. -/
def Alike (border : Border) (text other : List Char) : Prop :=
  ∃ first rest more after, text = first :: rest ∧ other = first :: more ∧
    isBlank first = false ∧ Respaced border (some first) rest more after

namespace Alike

variable {border : Border} {before : Option Char} {text other : List Char}

theorem refl (tight : Tight text) : Alike border text text := by
  cases text with
  | nil => exact absurd rfl tight.nonempty
  | cons first rest =>
    have visible : isBlank first = false := by simpa [startsBlank] using tight.starts
    have ends : endsBlank rest = false := by
      by_cases empty : rest = []
      · simp [endsBlank, empty]
      · have ends := tight.ends
        rwa [show first :: rest = [first] ++ rest from rfl, endsBlank_append empty] at ends
    exact ⟨first, rest, rest, _, rfl, rfl, visible, Respaced.refl rest _ ends⟩

theorem head?_eq (alike : Alike border text other) : other.head? = text.head? := by
  rcases alike with ⟨first, rest, more, after, rfl, rfl, _⟩
  rfl

/-- Alike texts are respaced together with the blanks in front of them. -/
theorem respaced (alike : Alike border text other) {gap blanks : List Char}
    (replaces : ∀ next, text.head? = some next → Replaces border before next gap blanks) :
    Respaced border before (gap ++ text) (blanks ++ other) text.getLast? := by
  rcases alike with ⟨first, rest, more, after, rfl, rfl, visible, respaced⟩
  have whole := Respaced.cons visible (replaces first rfl) respaced
  have after_eq := whole.after_eq
  rw [getLast?_append _ (by simp), List.getLast?_cons, Option.some_or, ← List.getLast?_cons]
    at after_eq
  rwa [after_eq] at whole

theorem respaced_none (alike : Alike border text other) :
    Respaced border none text other text.getLast? :=
  alike.respaced fun _ _ => ⟨Blank.nil, Blank.nil, by simp, by simp⟩

theorem tight (alike : Alike border text other) : Tight other := by
  rcases alike with ⟨first, rest, more, after, rfl, rfl, visible, respaced⟩
  refine ⟨by simp, by simp [startsBlank, visible], ?_⟩
  by_cases empty : more = []
  · simp [endsBlank, empty, visible]
  · rw [show first :: more = [first] ++ more from rfl, endsBlank_append empty]
    exact respaced.endsBlank_eq

/-- Respaced texts that show something at once are alike. -/
theorem of_respaced {after : Option Char} (tight : Tight text)
    (respaced : Respaced border none text other after) (starts : startsBlank other = false) :
    Alike border text other := by
  cases respaced with
  | nil => exact absurd rfl tight.nonempty
  | @cons _ _ next gap blanks rest more visible replaces respaced =>
    have glued : gap = [] := replaces.blank.eq_nil_of_starts tight.starts
    have closed : blanks = [] := replaces.blank_other.eq_nil_of_starts starts
    exact ⟨next, rest, more, after, by simp [glued], by simp [closed], visible, respaced⟩

theorem mono {wider : Border} (weaker : ∀ last next, border last next → wider last next)
    (alike : Alike border text other) : Alike wider text other := by
  rcases alike with ⟨first, rest, more, after, text_eq, other_eq, visible, respaced⟩
  exact ⟨first, rest, more, after, text_eq, other_eq, visible, respaced.mono weaker⟩

end Alike

/-- The tile with other blanks before it, and if it is plain, with other blanks inside. -/
structure Tile.Respaced (border : Border) (tile other : Tile) : Prop where
  kind : other.kind = tile.kind
  destination : other.isDestination = tile.isDestination
  blank : Blank other.gap
  spaced : tile.isSpaced → other.gap ≠ []
  text : Alike border tile.text other.text
  verbatim : tile.isPlain = false → other.text = tile.text

namespace Tile.Respaced

variable {border : Border} {tile other : Tile}

theorem eq_of_plain (respaced : tile.Respaced border other) :
    other = ⟨other.gap, tile.kind, other.text, tile.isDestination⟩ := by
  rw [← respaced.kind, ← respaced.destination]

theorem eq_of_not_plain (respaced : tile.Respaced border other) (verbatim : tile.isPlain = false) :
    other = ⟨other.gap, tile.kind, tile.text, tile.isDestination⟩ := by
  rw [← respaced.kind, ← respaced.destination, ← respaced.verbatim verbatim]

end Tile.Respaced

/-- Tiles that are respaced one by one make up respaced texts. -/
theorem respaced_weave {inner outer : Border} {before : Option Char} {tiles others : List Tile}
    (wider : ∀ last next, inner last next → outer last next)
    (sound : ∀ tile ∈ tiles, tile.Sound) (joined : Joined outer before tiles)
    (respaced : List.Forall₂ (Tile.Respaced inner) tiles others) :
    Respaced outer before (weave tiles) (weave others) (endOf before tiles) := by
  induction respaced generalizing before with
  | nil => exact .nil before
  | @cons tile other tiles others first _ ih =>
    rcases joined with ⟨seam, joined⟩
    have later := ih (fun another mem => sound another (List.mem_cons_of_mem tile mem)) joined
    rw [weave_cons, weave_cons, ← List.append_assoc, ← List.append_assoc]
    apply Refill.Respaced.append _ later
    apply (first.text.mono wider).respaced
    intro next head_eq
    refine ⟨(sound tile (by simp)).gap, first.blank, ?_, ?_⟩
    · intro nonempty inline reference
      apply first.spaced
      have other : tile.isDestination = false := by
        by_contra isDestination
        rcases seam.opened (by simpa using isDestination) with ⟨opening, close, rfl, close_eq, _⟩
        rcases Link.destinationClose_eq close_eq with ⟨rfl, _⟩ | ⟨rfl, _⟩
        · exact inline rfl
        · exact reference rfl
      simp [isSpaced, other, nonempty]
    · intro glued _ last before_eq
      exact seam.apart glued last next before_eq head_eq

/-! ## Stable grammars -/

/-- The construct, with other blanks in what remains to be cut and before a destination. -/
inductive Construct.Respaced (border : Border) : Construct → Construct → Prop
  | codeSpan (text : List Char) : Respaced border (codeSpan text) (codeSpan text)
  | link {opener other gap blanks : List Char} (destination : List Char)
      (alike : Alike border opener other) (blank : Blank blanks) :
      Respaced border (link opener gap destination) (link other blanks destination)
  | breakTag (text : List Char) : Respaced border (breakTag text) (breakTag text)

/-- Constructs stand, and none begins elsewhere, in respaced texts as well: the seams between
constructs may part as the outer border says, and the text inside them as the inner one does. -/
structure Grammar.Stable (grammar : Grammar) (inner outer : Border) : Prop
    extends grammar.Seamless outer where
  wider : ∀ last next, inner last next → outer last next
  blank_append_iff : ∀ {blanks text later}, Blank blanks →
    (grammar.Idle (blanks ++ text) later ↔ grammar.Idle text later)
  append_blank_iff : ∀ {text blanks later}, Blank blanks →
    (grammar.Idle (text ++ blanks) later ↔ grammar.Idle text (blanks ++ later))
  idle : ∀ {before middle after text other later further},
    Respaced outer before text other middle → Respaced outer middle later further after →
      grammar.Idle text later → grammar.Idle other further
  stands : ∀ {construct copy later further after}, construct.Respaced inner copy →
    Respaced outer none later further after →
      grammar.Stands construct later → grammar.Stands copy further

theorem exists_append {α β : Type} {R : α → β → Prop} {front back : List α} {others : List β}
    (related : List.Forall₂ R (front ++ back) others) :
    ∃ left right, others = left ++ right ∧ List.Forall₂ R front left ∧ List.Forall₂ R back right := by
  induction front generalizing others with
  | nil => exact ⟨[], others, rfl, .nil, related⟩
  | cons item front ih =>
    cases related with
    | cons first rest =>
      rcases ih rest with ⟨left, right, rfl, leftRelated, rightRelated⟩
      exact ⟨_ :: left, right, rfl, .cons first leftRelated, rightRelated⟩

theorem Construct.exists_respaced {border : Border} {construct : Construct} {gap : List Char}
    {others : List Tile}
    (respaced : List.Forall₂ (Tile.Respaced border) (construct.tiles gap) others) :
    ∃ copy blanks, others = copy.tiles blanks ∧ construct.Respaced border copy ∧ Blank blanks := by
  cases construct with
  | codeSpan text =>
    rcases List.forall₂_cons_left_iff.mp respaced with ⟨other, rest, first, none, rfl⟩
    rw [List.forall₂_nil_left_iff.mp none]
    refine ⟨codeSpan text, other.gap, ?_, .codeSpan text, first.blank⟩
    exact congrArg (fun tile => [tile]) (first.eq_of_not_plain rfl)
  | link opener gap destination =>
    rcases List.forall₂_cons_left_iff.mp respaced with ⟨other, rest, first, more, rfl⟩
    rcases List.forall₂_cons_left_iff.mp more with ⟨another, rest, second, none, rfl⟩
    rw [List.forall₂_nil_left_iff.mp none]
    refine ⟨link other.text another.gap destination, other.gap, ?_,
      .link destination first.text second.blank, first.blank⟩
    exact congrArg₂ (fun tile more => [tile, more]) first.eq_of_plain (second.eq_of_not_plain rfl)
  | breakTag text =>
    rcases List.forall₂_cons_left_iff.mp respaced with ⟨other, rest, first, none, rfl⟩
    rw [List.forall₂_nil_left_iff.mp none]
    refine ⟨breakTag text, other.gap, ?_, .breakTag text, first.blank⟩
    exact congrArg (fun tile => [tile]) (first.eq_of_not_plain rfl)

namespace Cut

variable {grammar : Grammar} {inner outer : Border}

theorem source_of_tail (cut : Cut) (empty : cut.tail = []) : weave cut.tiles = cut.source := by
  rw [← cut.weave_tiles, empty, List.append_nil]

/-- Respaced tiles of the text between constructs are those of another text, in which no construct
begins either. -/
theorem exists_idle (stable : grammar.Stable inner outer) {before after : Option Char}
    {text later further blanks : List Char} {others : List Tile} (idle : grammar.Idle text later)
    (blank : Blank blanks) (respaced : List.Forall₂ (Tile.Respaced inner) (plainTile text) others)
    (rest : Refill.Respaced outer (endOf before (plainTile text)) (blankTail text ++ later)
      (blanks ++ further) after) :
    ∃ copy, grammar.Idle copy further ∧ plainTile copy = others ∧ blankTail copy = blanks := by
  rcases blank_or_tight text with inside | ⟨left, middle, right, rfl, leftBlank, tight, rightBlank⟩
  · rw [plainTile_blank inside] at respaced
    rw [List.forall₂_nil_left_iff.mp respaced]
    refine ⟨blanks, ?_, plainTile_blank blank, blankTail_of_blank blank⟩
    have idle := (stable.blank_append_iff blank).mpr (grammar.idle_nil further)
    rwa [List.append_nil] at idle
  · rw [plainTile_append tight leftBlank rightBlank] at respaced rest
    rw [tight.blankTail_append rightBlank] at rest
    rcases List.forall₂_cons_left_iff.mp respaced with ⟨other, _, first, none, rfl⟩
    rw [List.forall₂_nil_left_iff.mp none]
    have otherTight := first.text.tight
    refine ⟨other.gap ++ other.text ++ blanks, ?_, ?_, otherTight.blankTail_append blank⟩
    · rw [stable.append_blank_iff rightBlank, stable.blank_append_iff leftBlank] at idle
      rw [stable.append_blank_iff blank, stable.blank_append_iff first.blank]
      exact stable.idle (first.text.mono stable.wider).respaced_none rest idle
    · rw [plainTile_append otherTight first.blank blank]
      exact congrArg (fun tile => [tile]) first.eq_of_plain.symm

/-- Respaced tiles of a cut are the tiles of another one, in which the same constructs stand. -/
theorem exists_respaced (stable : grammar.Stable inner outer) {cut : Cut} {before : Option Char}
    {others : List Tile} (fits : cut.Fits grammar) (empty : cut.tail = [])
    (joined : Joined outer before cut.tiles)
    (respaced : List.Forall₂ (Tile.Respaced inner) cut.tiles others) :
    ∃ copy : Cut, copy.Fits grammar ∧ copy.tiles = others ∧ copy.tail = [] := by
  induction cut generalizing before others with
  | last text =>
    have rest : Refill.Respaced outer (endOf before (plainTile text)) (blankTail text ++ [])
        ([] ++ []) (endOf before (plainTile text)) := by
      rw [show blankTail text = [] from empty]
      exact .nil _
    rcases exists_idle stable fits Blank.nil respaced rest with ⟨copy, idle, tiles_eq, tail_eq⟩
    exact ⟨last copy, idle, tiles_eq, tail_eq⟩
  | before text construct later ih =>
    rcases fits with ⟨idle, stands, laterFits⟩
    have sound := sound_tiles stable.tileable laterFits
    have constructSound : ∀ {gap}, Blank gap → ∀ tile ∈ construct.tiles gap, tile.Sound :=
      stable.tileable stands
    rw [tiles, List.append_assoc] at respaced joined
    rcases exists_append respaced with ⟨plain, rest, rfl, plainRespaced, restRespaced⟩
    rcases exists_append restRespaced with ⟨front, back, rfl, constructRespaced, laterRespaced⟩
    rcases joined_append.mp joined with ⟨plainJoined, restJoined⟩
    rcases joined_append.mp restJoined with ⟨constructJoined, laterJoined⟩
    rw [Construct.endOf_tiles (constructSound (blank_blankTail text))] at laterJoined
    rcases ih laterFits empty laterJoined laterRespaced with
      ⟨copyLater, copyFits, copy_tiles, copy_tail⟩
    rcases Construct.exists_respaced constructRespaced with ⟨copy, blanks, rfl, alike, blank⟩
    have laterEmpty : later.tail = [] := empty
    have laterText := respaced_weave stable.wider sound
      (laterJoined.at_front fun tile => inner_of_head) laterRespaced
    rw [later.source_of_tail laterEmpty, ← copy_tiles, copyLater.source_of_tail copy_tail]
      at laterText
    -- The text between constructs is idle before what follows it, and that is respaced along with
    -- the blanks before the construct.
    have restText := respaced_weave stable.wider (List.forall_mem_append.mpr
      ⟨constructSound (blank_blankTail text), sound⟩) restJoined restRespaced
    simp only [weave_append, Construct.weave_tiles, later.source_of_tail laterEmpty,
      ← copy_tiles, copyLater.source_of_tail copy_tail, List.append_assoc] at restText
    rcases exists_idle stable idle blank plainRespaced restText with
      ⟨copyText, copyIdle, tiles_eq, tail_eq⟩
    refine ⟨.before copyText copy copyLater,
      ⟨copyIdle, stable.stands alike laterText stands, copyFits⟩, ?_, copy_tail⟩
    rw [tiles, tiles_eq, tail_eq, copy_tiles, List.append_assoc]

end Cut

/-- A scanner that reads a stable grammar finds respaced tiles again. -/
theorem Scanner.Reads.tiles_respaced {scanner : Scanner} {grammar : Grammar}
    {Sound : ∀ text, scanner.Memo text → Prop} (reads : scanner.Reads grammar Sound)
    {inner outer : Border} (stable : grammar.Stable inner outer) {text : List Char}
    (tight : Tight text) {others : List Tile}
    (respaced : List.Forall₂ (Tile.Respaced inner) (scanner.cut text).tiles others) :
    (scanner.cut (weave others)).tiles = others := by
  have fits := reads.fits_cut text
  have empty : (scanner.cut text).tail = [] := by
    apply Cut.tail_eq_nil
    rwa [reads.source_cut]
  have joined : Joined outer none (scanner.cut text).tiles :=
    Cut.joined_tiles stable.toSeamless fits (by simp)
  rcases Cut.exists_respaced stable fits empty joined respaced with
    ⟨copy, copyFits, rfl, copy_tail⟩
  rw [copy.source_of_tail copy_tail, reads.cut_source copyFits]

end Refill
