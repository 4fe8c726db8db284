import Refill.Proofs.Tiling.Cut

/-!
# Blanks around a paragraph

Blanks at the ends of a text make no difference to where its code spans are, so a text
has the same tiles as what trimming leaves of it, but for the first gap
(`CodeSpan.withGap_tiles_trim`).
-/

namespace Refill

open Text Tile

namespace Cut

def append (after : List Char) : Cut → Cut
  | last text => last (text ++ after)
  | before text construct later => before text construct (later.append after)

variable {before after : List Char}

theorem source_append (cut : Cut) : (cut.append after).source = cut.source ++ after := by
  induction cut with
  | last text => rfl
  | before text construct later ih => simp [append, source, ih]

theorem source_prepend (cut : Cut) : (cut.prepend before).source = before ++ cut.source := by
  cases cut <;> simp [prepend, source]

theorem tiles_append (blank : Blank after) (cut : Cut) : (cut.append after).tiles = cut.tiles := by
  induction cut with
  | last text =>
    rcases blank_or_tight text with inner | ⟨left, inner, right, rfl, leftBlank, tight, rightBlank⟩
    · simp [append, tiles, plainTile_blank inner, plainTile_blank (inner.append blank)]
    · rw [append, tiles, tiles, List.append_assoc,
        plainTile_append tight leftBlank (rightBlank.append blank),
        plainTile_append tight leftBlank rightBlank]
  | before text construct later ih => simp only [append, tiles, ih]

theorem withGap_tiles_prepend (blank : Blank before) (gap : List Char) (cut : Cut) :
    withGap gap (cut.prepend before).tiles = withGap gap cut.tiles := by
  have plain : ∀ text, (Blank text ∧ Blank (before ++ text)) ∨
      (plainTile text ≠ [] ∧ blankTail (before ++ text) = blankTail text ∧
        withGap gap (plainTile (before ++ text)) = withGap gap (plainTile text)) := by
    intro text
    rcases blank_or_tight text with inner | ⟨left, inner, right, rfl, leftBlank, tight, rightBlank⟩
    · exact Or.inl ⟨inner, blank.append inner⟩
    · right
      rw [← List.append_assoc, ← List.append_assoc, tight.blankTail_append rightBlank,
        tight.blankTail_append rightBlank, plainTile_append tight leftBlank rightBlank,
        plainTile_append tight (blank.append leftBlank) rightBlank]
      exact ⟨by simp, rfl, rfl⟩
  cases cut with
  | last text =>
    rw [prepend, tiles, tiles]
    rcases plain text with ⟨inner, outer⟩ | ⟨_, _, same⟩
    · rw [plainTile_blank inner, plainTile_blank outer]
    · exact same
  | before text construct later =>
    rw [prepend, tiles, tiles]
    rcases plain text with ⟨inner, outer⟩ | ⟨nonempty, tail_eq, same⟩
    · rw [plainTile_blank inner, plainTile_blank outer]
      cases construct <;> rfl
    · rw [tail_eq]
      cases text_eq : plainTile text with
      | nil => exact absurd text_eq nonempty
      | cons first others =>
        cases more_eq : plainTile (before ++ text) with
        | nil => simp [text_eq, more_eq, withGap] at same
        | cons other more =>
          simp only [text_eq, more_eq, withGap_cons, List.cons.injEq] at same
          simp [same]

end Cut

namespace CodeSpan

variable {text later blanks : List Char}

theorem notMem_of_blank (blank : Blank blanks) : '`' ∉ blanks :=
  blank.notMem (by decide)

theorem startsPlain_of_blank (blank : Blank blanks) : StartsPlain blanks := by
  rw [startsPlain_iff]
  intro head_eq
  exact notMem_of_blank blank (List.mem_of_mem_head? head_eq)

theorem runs_append_blank (blank : Blank blanks) (text : List Char) :
    runs (text ++ blanks) = runs text := by
  rw [runs_append (not_meet_of_startsPlain (startsPlain_of_blank blank)),
    runs_of_notMem (notMem_of_blank blank), List.append_nil]

theorem runs_blank_append (blank : Blank blanks) (text : List Char) :
    runs (blanks ++ text) = runs text :=
  runs_append_of_notMem (notMem_of_blank blank) text

/-- Blanks at the end of what comes behind an idle text make no difference. -/
theorem Unmatched.append_later (idle : Unmatched text later) (blank : Blank blanks) :
    Unmatched text (later ++ blanks) where
  apart := by
    rintro ⟨ends, starts⟩
    cases later with
    | nil => exact startsPlain_iff.mp (startsPlain_of_blank blank) starts
    | cons c rest => exact idle.apart ⟨ends, starts⟩
  nodup := idle.nodup
  disjoint := by
    rw [runs_append_blank blank]
    exact idle.disjoint

/-- Blanks in front of an idle text make no difference. -/
theorem Unmatched.blank_append_iff (blank : Blank blanks) :
    Unmatched (blanks ++ text) later ↔ Unmatched text later := by
  have meet_iff : Meet (blanks ++ text) later ↔ Meet text later := by
    by_cases empty : text = []
    · have ends : blanks.getLast? ≠ some '`' := fun last_eq =>
        notMem_of_blank blank (List.mem_of_getLast? last_eq)
      simp [Meet, empty, ends]
    · rw [Meet, Meet, getLast?_append _ empty]
  constructor
  · rintro ⟨apart, nodup, disjoint⟩
    rw [runs_blank_append blank] at nodup disjoint
    exact ⟨meet_iff.not.mp apart, nodup, disjoint⟩
  · rintro ⟨apart, nodup, disjoint⟩
    refine ⟨meet_iff.not.mpr apart, ?_, ?_⟩ <;> rwa [runs_blank_append blank]

/-- Blanks behind an idle text belong to it as well as to what comes behind it. -/
theorem Unmatched.append_blank_iff (blank : Blank blanks) :
    Unmatched (text ++ blanks) later ↔ Unmatched text (blanks ++ later) := by
  by_cases empty : blanks = []
  · rw [empty, List.append_nil, List.nil_append]
  · have left : ¬Meet (text ++ blanks) later := by
      rintro ⟨ends, _⟩
      rw [getLast?_append _ empty] at ends
      exact notMem_of_blank blank (List.mem_of_getLast? ends)
    have right : ¬Meet text (blanks ++ later) := by
      rintro ⟨_, starts⟩
      rw [List.head?_append_of_ne_nil _ empty] at starts
      exact notMem_of_blank blank (List.mem_of_mem_head? starts)
    constructor
    · rintro ⟨_, nodup, disjoint⟩
      rw [runs_append_blank blank] at nodup disjoint
      refine ⟨right, nodup, ?_⟩
      rwa [runs_blank_append blank]
    · rintro ⟨_, nodup, disjoint⟩
      rw [runs_blank_append blank] at disjoint
      refine ⟨left, ?_, ?_⟩ <;> rwa [runs_append_blank blank]

theorem stopsAt_isTrailing_of_blank (blank : Blank blanks) : StopsAt isTrailing blanks := by
  intro c head_eq
  simp [isTrailing, blank c (List.mem_of_mem_head? head_eq)]

theorem IsSpan.append_later {span : List Char} (isSpan : IsSpan span later)
    (blank : Blank blanks) : IsSpan span (later ++ blanks) := by
  rcases isSpan with ⟨fence, body, punctuation, isBody, rfl, trailing, stops, plain⟩
  refine ⟨fence, body, punctuation, isBody, rfl, trailing, ?_, ?_⟩
  · cases later with
    | nil => exact stopsAt_isTrailing_of_blank blank
    | cons c rest => exact stops.append (by simp) blanks
  · rw [← List.append_assoc]
    by_cases empty : punctuation ++ later = []
    · rw [empty]
      exact startsPlain_of_blank blank
    · exact plain.append empty blanks

theorem fits_append {cut : Cut} (blank : Blank blanks) (fits : cut.Fits grammar) :
    (cut.append blanks).Fits grammar := by
  induction cut with
  | last text =>
    have idle : Unmatched text [] := fits
    apply (Unmatched.append_blank_iff blank).mpr
    simpa using idle.append_later blank
  | before text construct later ih =>
    rcases fits with ⟨idle, ⟨span, rfl, isSpan⟩, fits⟩
    simp only [Cut.append, Cut.Fits, Cut.source_append]
    refine ⟨?_, ⟨span, rfl, isSpan.append_later blank⟩, ih fits⟩
    rw [← List.append_assoc]
    exact Unmatched.append_later idle blank

theorem fits_prepend {cut : Cut} (blank : Blank blanks) (fits : cut.Fits grammar) :
    (cut.prepend blanks).Fits grammar := by
  cases cut with
  | last text => exact (Unmatched.blank_append_iff blank).mpr fits
  | before text construct later => exact ⟨(Unmatched.blank_append_iff blank).mpr fits.1, fits.2⟩

/-- Trimming changes nothing about the tiles but the first gap. -/
theorem withGap_tiles_trim (gap text : List Char) :
    withGap gap (scanner.cut text).tiles = withGap gap (scanner.cut (trim text)).tiles := by
  have source_eq : (((scanner.cut (trim text)).append (trailing text)).prepend
      (leading text)).source = text := by
    rw [Cut.source_prepend, Cut.source_append, reads_scanner.source_cut, ← List.append_assoc,
      leading_append]
  have fits := fits_prepend (blank_leading text)
    (fits_append (blank_trailing text) (reads_scanner.fits_cut (trim text)))
  have cut_eq := reads_scanner.cut_source fits
  rw [source_eq] at cut_eq
  rw [cut_eq, Cut.withGap_tiles_prepend (blank_leading text), Cut.tiles_append (blank_trailing text)]

end CodeSpan

end Refill
