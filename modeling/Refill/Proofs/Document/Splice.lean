import Refill.Document
import Refill.Proofs.Document.Slice
import Refill.Proofs.Packing.Layout

/-!
# A refilled document is a splice

A document is copied up to each paragraph that is refilled, and what remains behind the last one:
`copy?` slices it so, for any reader that tells of its paragraphs, with offsets in bytes. If the
paragraphs come in order (`Orderly`), no slice fails, and only the paragraphs that are `Refillable`
change (`copy_splices`).
-/

namespace Refill

open Text

namespace Markdown

def Span.move (change : Nat → Nat) (span : Span) : Span where
  start := change span.start
  stop := change span.stop

namespace Mark

def move (change : Nat → Nat) : Mark → Mark
  | paragraph span => paragraph (span.move change)
  | heading => heading
  | thematicBreak => thematicBreak
  | code => code
  | html => html
  | list => list
  | table span => table (span.move change)
  | quote span => quote (span.move change)
  | item span => item (span.move change)
  | footnote span => footnote (span.move change)
  | hardBreak offset => hardBreak (change offset)

end Mark

/-- The marks of a document, with offsets in bytes. -/
def byteMarks (text : List Char) : List Mark :=
  (marks text).map (Mark.move (byteOffset text))

end Markdown

namespace Document

open Markdown

/-! ## Copying by slices -/

/-- Whether the reader finds one paragraph in the text and no other block. -/
def isSole (read : List Char → List Mark) (text : List Char) : Bool :=
  ((read text).filterMap paragraphSpan?).length == 1 && !(read text).any isOtherBlock

/-- The document from an offset on, up to which it has been copied. What stands before a paragraph is
copied when the paragraph is refilled. -/
def copyFrom? (read : List Char → List Mark) (width : Nat) (source : List Char) :
    (copied : Nat) → List Span → Option (List Char)
  | copied, [] => slice? copied (byteLength source) source
  | copied, span :: spans =>
      if isEligible ((read source).filterMap containerSpan?)
          ((read source).filterMap breakOffset?) span then
        (slice? span.start span.stop source).bind fun text =>
          let filled := Paragraph.fill width (trimEnd text)
          if isSole read filled then
            (slice? copied span.start source).bind fun between =>
              (copyFrom? read width source span.stop spans).map fun later =>
                between ++ filled ++ blankTail text ++ later
          else copyFrom? read width source copied spans
      else copyFrom? read width source copied spans

/-- The document with its paragraphs refilled; none if a slice fails. -/
def copy? (read : List Char → List Mark) (width : Nat) (source : List Char) : Option (List Char) :=
  copyFrom? read width source 0 ((read source).filterMap paragraphSpan?)

/-! ## Pieces -/

/-- The stretches come one behind the other, and characters begin and end at their offsets. -/
structure Orderly (text : List Char) (spans : List Span) : Prop where
  apart : spans.Pairwise fun earlier later => earlier.stop ≤ later.start
  inside : ∀ span ∈ spans,
    span.start ≤ span.stop ∧ isBoundary text span.start ∧ isBoundary text span.stop

/-- A paragraph before and after the document is refilled, with what stands between it and the
paragraph before. -/
structure Piece where
  gap : List Char
  span : Span
  before : List Char
  after : List Char

/-- The pieces stand in a document where their stretches say; the first one begins at the offset. -/
def Placed : (offset : Nat) → List Piece → Prop
  | _, [] => True
  | offset, piece :: pieces =>
      offset + byteLength piece.gap = piece.span.start ∧
        piece.span.start + byteLength piece.before = piece.span.stop ∧
          Placed piece.span.stop pieces

def decidePlaced : (offset : Nat) → (pieces : List Piece) → Decidable (Placed offset pieces)
  | _, [] => isTrue trivial
  | offset, piece :: pieces =>
      have := decidePlaced piece.span.stop pieces
      inferInstanceAs (Decidable (offset + byteLength piece.gap = piece.span.start ∧
        piece.span.start + byteLength piece.before = piece.span.stop ∧
          Placed piece.span.stop pieces))

instance (offset : Nat) (pieces : List Piece) : Decidable (Placed offset pieces) :=
  decidePlaced offset pieces

/-- A paragraph is refilled if it lies in no container, holds no break, and stays a paragraph. -/
structure Refillable (read : List Char → List Mark) (width : Nat) (source : List Char)
    (piece : Piece) : Prop where
  free : ∀ mark ∈ read source, ∀ outer, containerSpan? mark = some outer →
    outer.encloses piece.span = false
  unbroken : ∀ offset, .hardBreak offset ∈ read source → piece.span.holds offset = false
  sole : isSole read (Paragraph.fill width (trimEnd piece.before))

/-- The output is the source with the refillable paragraphs refilled, each with the blanks that end it,
and with all else as it was. -/
structure Spliced (read : List Char → List Mark) (width : Nat) (source output : List Char)
    (pieces : List Piece) (rest : List Char) : Prop where
  spans : pieces.map Piece.span = (read source).filterMap paragraphSpan?
  placed : Placed 0 pieces
  source_eq : source = pieces.flatMap (fun piece => piece.gap ++ piece.before) ++ rest
  output_eq : output = pieces.flatMap (fun piece => piece.gap ++ piece.after) ++ rest
  refilled : ∀ piece ∈ pieces, Refillable read width source piece →
    ∃ filled, Paragraph.refill (trimEnd piece.before) width = .ok filled ∧
      piece.after = filled ++ blankTail piece.before
  kept : ∀ piece ∈ pieces, ¬Refillable read width source piece → piece.after = piece.before

section Pieces

variable {read : List Char → List Mark} {width : Nat} {source : List Char}

theorem isEligible_iff {marks : List Mark} {span : Span} :
    isEligible (marks.filterMap containerSpan?) (marks.filterMap breakOffset?) span ↔
      (∀ mark ∈ marks, ∀ outer, containerSpan? mark = some outer → outer.encloses span = false) ∧
        ∀ offset, .hardBreak offset ∈ marks → span.holds offset = false := by
  have breaks : ∀ offset, offset ∈ marks.filterMap breakOffset? ↔ .hardBreak offset ∈ marks := by
    intro offset
    rw [List.mem_filterMap]
    constructor
    · rintro ⟨mark, mem, offset_eq⟩
      cases mark <;> simp_all [breakOffset?]
    · intro mem
      exact ⟨_, mem, rfl⟩
  simp only [isEligible, Bool.and_eq_true, Bool.not_eq_true', List.any_eq_false,
    Bool.not_eq_true, List.mem_filterMap, breaks]
  grind

theorem refillable_iff {piece : Piece} :
    Refillable read width source piece ↔
      isEligible ((read source).filterMap containerSpan?) ((read source).filterMap breakOffset?)
          piece.span ∧
        isSole read (Paragraph.fill width (trimEnd piece.before)) := by
  rw [isEligible_iff]
  constructor
  · rintro ⟨free, unbroken, sole⟩
    exact ⟨⟨free, unbroken⟩, sole⟩
  · rintro ⟨⟨free, unbroken⟩, sole⟩
    exact ⟨free, unbroken, sole⟩

/-- A document is cut at stretches that come in order, whatever becomes of them. -/
theorem exists_pieces (edit : Span → List Char → List Char) (front : List Char)
    {left : List Char} {spans : List Span} (orderly : Orderly (front ++ left) spans)
    (behind : ∀ span ∈ spans, byteLength front ≤ span.start) :
    ∃ pieces rest, pieces.map Piece.span = spans ∧ Placed (byteLength front) pieces ∧
      left = pieces.flatMap (fun piece => piece.gap ++ piece.before) ++ rest ∧
        ∀ piece ∈ pieces, piece.after = edit piece.span piece.before := by
  induction spans generalizing front left with
  | nil => exact ⟨[], left, rfl, trivial, rfl, by simp⟩
  | cons span spans ih =>
    rcases orderly.inside span (by simp) with ⟨le, starts, stops⟩
    rcases exists_between starts (behind span (by simp)) with ⟨gap, later, rfl, start_eq⟩
    rw [← List.append_assoc] at stops
    rcases exists_between stops (by simpa [start_eq] using le) with ⟨text, rest, rfl, stop_eq⟩
    have start_eq' : byteLength (front ++ gap) = span.start := by simp [start_eq]
    rw [start_eq'] at stop_eq
    have stop_eq' : byteLength (front ++ gap ++ text) = span.stop := by
      rw [byteLength_append, start_eq', stop_eq]
    rcases List.pairwise_cons.mp orderly.apart with ⟨first, others⟩
    have tail : Orderly ((front ++ gap ++ text) ++ rest) spans :=
      ⟨others, fun other mem => by
        simpa using orderly.inside other (List.mem_cons_of_mem span mem)⟩
    have tailBehind : ∀ other ∈ spans, byteLength (front ++ gap ++ text) ≤ other.start := by
      intro other mem
      rw [stop_eq']
      exact first other mem
    rcases ih (front ++ gap ++ text) tail tailBehind with
      ⟨pieces, last, spans_eq, placed, rest_eq, edited⟩
    refine ⟨⟨gap, span, text, edit span text⟩ :: pieces, last, ?_, ?_, ?_, ?_⟩
    · simp [spans_eq]
    · rw [stop_eq'] at placed
      exact ⟨start_eq, stop_eq, placed⟩
    · simp [rest_eq]
    · intro piece mem
      rcases List.mem_cons.mp mem with rfl | mem
      · rfl
      · exact edited piece mem

def editWith (read : List Char → List Mark) (width : Nat) (source : List Char) (span : Span)
    (text : List Char) : List Char :=
  if isEligible ((read source).filterMap containerSpan?) ((read source).filterMap breakOffset?)
        span &&
      isSole read (Paragraph.fill width (trimEnd text)) then
    Paragraph.fill width (trimEnd text) ++ blankTail text
  else text

theorem editWith_of_refillable {piece : Piece} (refillable : Refillable read width source piece) :
    editWith read width source piece.span piece.before =
      Paragraph.fill width (trimEnd piece.before) ++ blankTail piece.before := by
  rcases refillable_iff.mp refillable with ⟨eligible, sole⟩
  simp [editWith, eligible, sole]

theorem editWith_of_not_refillable {piece : Piece}
    (kept : ¬Refillable read width source piece) :
    editWith read width source piece.span piece.before = piece.before := by
  rw [refillable_iff] at kept
  simp [editWith, kept]

theorem copyFrom_of_refillable {piece : Piece} {copied : Nat} {spans : List Span}
    (refillable : Refillable read width source piece)
    (text_eq : slice? piece.span.start piece.span.stop source = some piece.before) :
    copyFrom? read width source copied (piece.span :: spans) =
      (slice? copied piece.span.start source).bind fun between =>
        (copyFrom? read width source piece.span.stop spans).map fun later =>
          between ++ editWith read width source piece.span piece.before ++ later := by
  rcases refillable_iff.mp refillable with ⟨eligible, sole⟩
  rw [editWith_of_refillable refillable]
  simp [copyFrom?, eligible, text_eq, sole]

theorem copyFrom_of_not_refillable {piece : Piece} {copied : Nat} {spans : List Span}
    (kept : ¬Refillable read width source piece)
    (text_eq : slice? piece.span.start piece.span.stop source = some piece.before) :
    copyFrom? read width source copied (piece.span :: spans) =
      copyFrom? read width source copied spans := by
  rw [refillable_iff, not_and] at kept
  rw [copyFrom?]
  split
  · next eligible => simp [text_eq, kept eligible]
  · rfl

theorem copyFrom_pieces {pieces : List Piece} (front pending : List Char) {rest : List Char}
    (source_eq : source =
      front ++ pending ++ (pieces.flatMap (fun piece => piece.gap ++ piece.before) ++ rest))
    (placed : Placed (byteLength (front ++ pending)) pieces)
    (edited : ∀ piece ∈ pieces, piece.after = editWith read width source piece.span piece.before) :
    copyFrom? read width source (byteLength front) (pieces.map Piece.span) =
      some (pending ++ (pieces.flatMap (fun piece => piece.gap ++ piece.after) ++ rest)) := by
  -- what has been passed since the latest refilled paragraph is pending: a paragraph that stays
  -- as it is adds to that, and the next one that is refilled takes it along
  induction pieces generalizing front pending with
  | nil =>
    have source_eq' : source = front ++ (pending ++ rest) ++ [] := by simpa using source_eq
    simp only [List.map_nil, copyFrom?, List.flatMap_nil, List.nil_append]
    rw [source_eq']
    exact slice_append front (pending ++ rest) [] rfl (by simp)
  | cons piece pieces ih =>
    rcases placed with ⟨start_eq, stop_eq, placed⟩
    rcases List.forall_mem_cons.mp edited with ⟨after_eq, later⟩
    have start_eq' : byteLength (front ++ (pending ++ piece.gap)) = piece.span.start := by
      rw [← start_eq]
      simp [Nat.add_assoc]
    have stop_eq' :
        byteLength (front ++ (pending ++ piece.gap) ++ piece.before) = piece.span.stop := by
      rw [byteLength_append, start_eq', stop_eq]
    have text_eq : slice? piece.span.start piece.span.stop source = some piece.before := by
      rw [source_eq]
      simpa using slice_append (front ++ (pending ++ piece.gap)) piece.before
        (pieces.flatMap (fun piece => piece.gap ++ piece.before) ++ rest) start_eq' stop_eq
    rw [List.map_cons]
    by_cases refillable : Refillable read width source piece
    · have between_eq : slice? (byteLength front) piece.span.start source =
          some (pending ++ piece.gap) := by
        rw [source_eq]
        simpa using slice_append front (pending ++ piece.gap)
          (piece.before ++
            (pieces.flatMap (fun piece => piece.gap ++ piece.before) ++ rest)) rfl
          (by rw [← byteLength_append, start_eq'])
      have moved := ih (front ++ (pending ++ piece.gap) ++ piece.before) []
        (by simpa using source_eq) (by simpa only [List.append_nil, stop_eq'] using placed) later
      rw [copyFrom_of_refillable refillable text_eq, between_eq, Option.bind_some, ← stop_eq',
        moved]
      simp [after_eq]
    · have moved := ih front (pending ++ piece.gap ++ piece.before)
        (by simpa using source_eq) (by simpa [← stop_eq', Nat.add_assoc] using placed) later
      rw [copyFrom_of_not_refillable refillable text_eq, moved]
      simp [after_eq, editWith_of_not_refillable refillable]

end Pieces

/-! ## What is visible -/

theorem filter_editWith (read : List Char → List Mark) (width : Nat) (source : List Char)
    (span : Span) (text : List Char) :
    (editWith read width source span text).filter isVisible = text.filter isVisible := by
  unfold editWith
  split
  · rw [List.filter_append, Paragraph.filter_fill, ← List.filter_append, trimEnd_append_blankTail]
  · rfl

theorem filter_pieces (pieces : List Piece)
    (same : ∀ piece ∈ pieces, piece.after.filter isVisible = piece.before.filter isVisible) :
    (pieces.flatMap fun piece => piece.gap ++ piece.after).filter isVisible =
      (pieces.flatMap fun piece => piece.gap ++ piece.before).filter isVisible := by
  induction pieces with
  | nil => rfl
  | cons piece pieces ih =>
    have rest := ih fun other mem => same other (List.mem_cons_of_mem piece mem)
    simp [same piece (by simp), rest]

/-! ## Offsets in characters and in bytes -/

section Move

variable {change : Nat → Nat}

theorem filterMap_move {β : Type} {f : Mark → Option β} {g : β → β} (change : Nat → Nat)
    (marks : List Mark)
    (moves : ∀ mark, f (mark.move change) = (f mark).map g) :
    (marks.map (Mark.move change)).filterMap f = (marks.filterMap f).map g := by
  rw [List.filterMap_map, List.map_filterMap]
  exact List.filterMap_congr fun mark _ => moves mark

theorem filterMap_paragraphSpan_move (marks : List Mark) :
    (marks.map (Mark.move change)).filterMap paragraphSpan? =
      (marks.filterMap paragraphSpan?).map (Span.move change) :=
  filterMap_move change marks fun mark => by cases mark <;> rfl

/-- A change of offsets that keeps their order keeps what may be refilled. -/
theorem isEligible_move (strict : StrictMono change) (marks : List Mark) (span : Span) :
    isEligible ((marks.map (Mark.move change)).filterMap containerSpan?)
        ((marks.map (Mark.move change)).filterMap breakOffset?) (span.move change) =
      isEligible (marks.filterMap containerSpan?) (marks.filterMap breakOffset?) span := by
  have containers := filterMap_move (f := containerSpan?) (g := Span.move change) change marks
    fun mark => by cases mark <;> rfl
  have breaks := filterMap_move (f := breakOffset?) (g := change) change marks
    fun mark => by cases mark <;> rfl
  rw [containers, breaks, isEligible, isEligible, List.any_map, List.any_map]
  congr 3
  · funext outer
    simp [Span.encloses, Span.move, strict.le_iff_le]
  · funext offset
    simp [Span.holds, Span.move, strict.le_iff_le, strict.lt_iff_lt]

theorem isSole_byteMarks (text : List Char) : isSole byteMarks text = isSoleParagraph text := by
  have others : isOtherBlock ∘ Mark.move (byteOffset text) = isOtherBlock := by
    funext mark
    cases mark <;> rfl
  rw [isSole, isSoleParagraph, byteMarks, filterMap_paragraphSpan_move, List.length_map,
    List.any_map, others]

end Move

/-- Pieces that stand at the stretches in bytes are what is cut at the stretches in characters. -/
theorem splice_pieces (edit : Span → List Char → List Char) {source : List Char}
    (front : List Char) {rest : List Char} {spans : List Span} {pieces : List Piece}
    (source_eq : source =
      front ++ (pieces.flatMap (fun piece => piece.gap ++ piece.before) ++ rest))
    (spans_eq : pieces.map Piece.span = spans.map (Span.move (byteOffset source)))
    (placed : Placed (byteLength front) pieces)
    (edited : ∀ piece ∈ pieces, ∀ span ∈ spans, piece.span = span.move (byteOffset source) →
      piece.after = edit span piece.before) :
    splice edit front.length spans
        (pieces.flatMap (fun piece => piece.gap ++ piece.before) ++ rest) =
      pieces.flatMap (fun piece => piece.gap ++ piece.after) ++ rest := by
  induction pieces generalizing front spans with
  | nil =>
    have empty : spans = [] := by simpa using spans_eq.symm
    simp [empty, splice]
  | cons piece pieces ih =>
    cases spans with
    | nil => simp at spans_eq
    | cons span spans =>
      simp only [List.map_cons, List.cons.injEq] at spans_eq
      rcases spans_eq with ⟨span_eq, spans_eq⟩
      rcases placed with ⟨start_eq, stop_eq, placed⟩
      have start_chars : (front ++ piece.gap).length = span.start := by
        apply length_eq_of_byteOffset (piece.before ++
          (pieces.flatMap (fun piece => piece.gap ++ piece.before) ++ rest))
        · simpa using source_eq
        · rw [byteLength_append, start_eq, span_eq, Span.move]
      have stop_bytes :
          byteLength (front ++ piece.gap ++ piece.before) = piece.span.stop := by
        rw [byteLength_append, byteLength_append, start_eq, stop_eq]
      have stop_chars : (front ++ piece.gap ++ piece.before).length = span.stop := by
        apply length_eq_of_byteOffset
          (pieces.flatMap (fun piece => piece.gap ++ piece.before) ++ rest)
        · simpa using source_eq
        · rw [stop_bytes, span_eq, Span.move]
      have later := ih (front ++ piece.gap ++ piece.before) (by simpa using source_eq)
        spans_eq (by rwa [stop_bytes]) fun other mem image imageMem =>
          edited other (List.mem_cons_of_mem piece mem) image (List.mem_cons_of_mem span imageMem)
      rw [stop_chars] at later
      have gap_length : span.start - front.length = piece.gap.length := by
        simp at start_chars
        omega
      have text_length : span.stop - span.start = piece.before.length := by
        simp at start_chars stop_chars
        omega
      simp only [List.flatMap_cons, List.append_assoc]
      rw [splice, gap_length, text_length, List.take_left, List.drop_left, List.take_left,
        List.drop_left, later, ← edited piece (by simp) span (by simp) span_eq]
      simp

theorem refillMarked_pieces {read : List Char → List Mark} {width : Nat} {marks : List Mark}
    {source rest : List Char} {pieces : List Piece}
    (marks_eq : read source = marks.map (Mark.move (byteOffset source)))
    (sole : isSole read = isSoleParagraph)
    (source_eq : source = pieces.flatMap (fun piece => piece.gap ++ piece.before) ++ rest)
    (spans_eq : pieces.map Piece.span = (read source).filterMap paragraphSpan?)
    (placed : Placed 0 pieces)
    (edited : ∀ piece ∈ pieces,
      piece.after = editWith read width source piece.span piece.before) :
    refillMarked width marks source =
      pieces.flatMap (fun piece => piece.gap ++ piece.after) ++ rest := by
  rw [marks_eq, filterMap_paragraphSpan_move] at spans_eq
  have spliced := splice_pieces
    (fun span text =>
      if isEligible (marks.filterMap containerSpan?) (marks.filterMap breakOffset?) span then
        refillParagraph width text
      else text)
    []
    source_eq spans_eq placed fun piece mem span _ span_eq => by
      rw [edited piece mem, editWith, span_eq, sole, marks_eq,
        isEligible_move (byteOffset_strictMono source), refillParagraph]
      split <;> simp_all
  rw [refillMarked]
  rwa [← source_eq] at spliced

/-- Pieces that are edited make a splice. -/
theorem spliced_of_edited {read : List Char → List Mark} {width : Nat} {source rest : List Char}
    {pieces : List Piece} (positive : 1 ≤ width)
    (spans_eq : pieces.map Piece.span = (read source).filterMap paragraphSpan?)
    (placed : Placed 0 pieces)
    (source_eq : source = pieces.flatMap (fun piece => piece.gap ++ piece.before) ++ rest)
    (edited : ∀ piece ∈ pieces,
      piece.after = editWith read width source piece.span piece.before) :
    Spliced read width source
      (pieces.flatMap (fun piece => piece.gap ++ piece.after) ++ rest) pieces rest where
  spans := spans_eq
  placed := placed
  source_eq := source_eq
  output_eq := rfl
  refilled := by
    intro piece mem refillable
    refine ⟨_, Paragraph.refill_eq _ positive, ?_⟩
    rw [edited piece mem, editWith_of_refillable refillable]
  kept := by
    intro piece mem kept
    rw [edited piece mem, editWith_of_not_refillable kept]

/-- Where the paragraphs come in order, a document is spliced from its pieces. -/
theorem exists_spliced {read : List Char → List Mark} {width : Nat} {source : List Char}
    (positive : 1 ≤ width) (orderly : Orderly source ((read source).filterMap paragraphSpan?)) :
    ∃ output pieces rest, Spliced read width source output pieces rest ∧
      ∀ piece ∈ pieces, piece.after = editWith read width source piece.span piece.before := by
  rcases exists_pieces (editWith read width source) [] orderly (by simp) with
    ⟨pieces, rest, spans_eq, placed, source_eq, edited⟩
  exact ⟨_, pieces, rest, spliced_of_edited positive spans_eq placed source_eq edited, edited⟩

theorem Spliced.edited {read : List Char → List Mark} {width : Nat} {source output rest : List Char}
    {pieces : List Piece} (positive : 1 ≤ width)
    (spliced : Spliced read width source output pieces rest) :
    ∀ piece ∈ pieces, piece.after = editWith read width source piece.span piece.before := by
  intro piece mem
  by_cases refillable : Refillable read width source piece
  · rcases spliced.refilled piece mem refillable with ⟨filled, filled_eq, after_eq⟩
    rw [Paragraph.refill_eq _ positive, Except.ok.injEq] at filled_eq
    rw [after_eq, editWith_of_refillable refillable, filled_eq]
  · rw [spliced.kept piece mem refillable, editWith_of_not_refillable refillable]

/-- Copying by slices gives what a document is spliced into. -/
theorem Spliced.copy_eq {read : List Char → List Mark} {width : Nat} {source output rest : List Char}
    {pieces : List Piece} (positive : 1 ≤ width)
    (spliced : Spliced read width source output pieces rest) :
    copy? read width source = some output := by
  have copied := copyFrom_pieces [] [] spliced.source_eq spliced.placed (spliced.edited positive)
  rw [spliced.spans] at copied
  rw [spliced.output_eq]
  exact copied

/-- If the paragraphs that a reader tells of come in order, no slice fails, and the document is spliced
together from what it was and from refilled paragraphs. So nothing visible changes. Refilling by the
same marks in characters gives the same. -/
theorem copy_splices {read : List Char → List Mark} {width : Nat} {source : List Char}
    (positive : 1 ≤ width) (orderly : Orderly source ((read source).filterMap paragraphSpan?)) :
    ∃ output, copy? read width source = some output ∧
      (∃ pieces rest, Spliced read width source output pieces rest) ∧
      output.filter isVisible = source.filter isVisible ∧
      ∀ marks, read source = marks.map (Mark.move (byteOffset source)) →
        isSole read = isSoleParagraph → refillMarked width marks source = output := by
  rcases exists_spliced positive orderly with ⟨output, pieces, rest, spliced, edited⟩
  refine ⟨output, spliced.copy_eq positive, ⟨pieces, rest, spliced⟩, ?_, fun marks marks_eq sole => ?_⟩
  · have same := filter_pieces pieces fun piece mem => by
      rw [edited piece mem, filter_editWith]
    rw [spliced.output_eq, List.filter_append, same, ← List.filter_append, ← spliced.source_eq]
  · rw [spliced.output_eq]
    exact refillMarked_pieces marks_eq sole spliced.source_eq spliced.spans spliced.placed edited

/-- A document whose first and last paragraphs are refilled, and three between them are not: one in a
quote, one that would become a list, and one with a broken line. -/
theorem copy_splices_motley :
    ∃ source,
      source = "é bb\ncc \n\n> qq\n> rr\n\naaaaaa - b\n\nee  \nff\n\ngg\nhh".toList ∧ 1 ≤ 7 ∧
      Orderly source ((byteMarks source).filterMap paragraphSpan?) ∧
      ∃ output, copy? byteMarks 7 source = some output ∧
        (∃ pieces rest, Spliced byteMarks 7 source output pieces rest) ∧
        output.filter isVisible = source.filter isVisible ∧
        ∀ marks, byteMarks source = marks.map (Mark.move (byteOffset source)) →
          isSole byteMarks = isSoleParagraph → refillMarked 7 marks source = output := by
  refine ⟨_, rfl, by decide, ?_, copy_splices (by decide) ?_⟩
  · constructor <;> decide +kernel
  · constructor <;> decide +kernel

end Document
end Refill
