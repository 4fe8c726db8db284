import Refill.Proofs.Respacing.Merge
import Refill.Proofs.Tiling.Paragraph

/-!
# Rereading words and tags

Of words and break tags with other gaps between them, the tags are found again, and besides
them only those that the words make: `reread` says what becomes of the tiles (`wordsOf_cut`).
-/

namespace Refill

open Text Tile

namespace BreakTag

variable {text front back later name : List Char}

theorem isVisible_of_toLower {c : Char} (lower : c.toLower = 'b' ∨ c.toLower = 'r') :
    isVisible c ∧ c ≠ '<' := by
  have letter : ∀ d : Char, c.toNat = d.toNat → c = d :=
    fun d same => Char.ext (UInt32.toNat_inj.mp same)
  rcases lower with lower | lower
  · rcases eq_or_upper_of_toLower lower with rfl | ⟨_, sum⟩
    · decide
    · rw [letter 'B' (by simp at sum ⊢; omega)]
      decide
  · rcases eq_or_upper_of_toLower lower with rfl | ⟨_, sum⟩
    · decide
    · rw [letter 'R' (by simp at sum ⊢; omega)]
      decide

/-- A tag that begins in a text without blanks and goes on behind it either has its name there
and a blank behind, or goes on with a character that is neither a blank nor a bracket. -/
theorem IsTag.split (isTag : IsTag (front ++ back)) (left : front ≠ []) (right : back ≠ [])
    (visible : ∀ c ∈ front, isVisible c) :
    (IsName front ∧ back = [' ', '/', '>']) ∨
      ∃ c rest, back = c :: rest ∧ isVisible c ∧ c ≠ '<' := by
  rcases isTag with ⟨name, slash, isName, mem, same⟩
  rcases isName.exists_chars with ⟨second, third, rfl, second_eq, third_eq⟩
  simp only [slashes, List.mem_cons, List.not_mem_nil, or_false] at mem
  rcases front with _ | ⟨a, front⟩
  · exact absurd rfl left
  rcases front with _ | ⟨b, front⟩
  · simp only [List.cons_append, List.nil_append, List.cons.injEq] at same
    exact Or.inr ⟨second, _, same.2, isVisible_of_toLower (Or.inl second_eq)⟩
  rcases front with _ | ⟨c, front⟩
  · simp only [List.cons_append, List.nil_append, List.cons.injEq] at same
    exact Or.inr ⟨third, _, same.2.2, isVisible_of_toLower (Or.inr third_eq)⟩
  simp only [List.cons_append, List.nil_append, List.cons.injEq] at same
  rcases same with ⟨rfl, rfl, rfl, same⟩
  rcases front with _ | ⟨d, front⟩
  · rw [List.nil_append] at same
    rcases mem with rfl | rfl | rfl
    · exact Or.inr ⟨'>', [], same, by decide, by decide⟩
    · exact Or.inr ⟨'/', ['>'], same, by decide, by decide⟩
    · exact Or.inl ⟨isName, same⟩
  · rcases mem with rfl | rfl | rfl
    · simp only [List.cons_append, List.nil_append, List.cons.injEq, List.append_eq_nil_iff] at same
      exact absurd same.2.2 right
    · simp only [List.cons_append, List.nil_append, List.cons.injEq] at same
      rcases List.append_eq_singleton_iff.mp same.2 with ⟨_, back_eq⟩ | ⟨_, back_eq⟩
      · exact Or.inr ⟨'>', [], back_eq, by decide, by decide⟩
      · exact absurd back_eq right
    · simp only [List.cons_append, List.nil_append, List.cons.injEq] at same
      have inside := visible d (by simp)
      rw [same.1] at inside
      cases inside

theorem Begins.append (begins : Begins text) (more : List Char) : Begins (text ++ more) := by
  rcases begins with ⟨tag, rest, isTag, rfl⟩
  exact ⟨tag, rest ++ more, isTag, by simp⟩

theorem nowhere_shorten {more : List Char} (nowhere : Nowhere Begins text (later ++ more)) :
    Nowhere Begins text later := by
  induction text with
  | nil => trivial
  | cons c rest ih =>
    refine ⟨fun begins => nowhere.1 ?_, ih nowhere.2⟩
    simpa using begins.append more

theorem startsBlank_of_begins (begins : Begins text) : startsBlank text = false := by
  rcases begins with ⟨tag, later, isTag, rfl⟩
  exact isTag.tight.startsBlank_append_right later

/-- If no tag begins in the front of a word, none begins there whatever comes behind the word,
unless that is a bracket or it completes a name. -/
theorem nowhere_word (visible : ∀ c ∈ front ++ back, isVisible c)
    (inside : Nowhere Begins front back)
    (bracket : ∀ c, later.head? = some c → isVisible c → c = '<')
    (noName : ∀ before suffix, front = before ++ suffix → suffix ≠ [] → IsName (suffix ++ back) →
      ¬[' ', '/', '>'] <+: later) : Nowhere Begins front (back ++ later) := by
  induction front with
  | nil => trivial
  | cons c rest ih =>
    refine ⟨?_, ih (fun d mem => visible d (by simp_all)) inside.2 ?_⟩
    · rintro ⟨tag, more, isTag, same⟩
      have whole : (c :: rest ++ back) ++ later = tag ++ more := by simpa using same
      -- The tag ends behind the word, or else the word alone holds it.
      rcases List.append_eq_append_iff.mp whole with ⟨between, tag_eq, later_eq⟩ | ⟨between, text_eq, _⟩
      · by_cases empty : between = []
        · rw [empty, List.append_nil] at tag_eq
          exact inside.1 ⟨tag, [], isTag, by simpa using tag_eq.symm⟩
        · rw [tag_eq] at isTag
          rcases isTag.split (by simp) empty visible with ⟨isName, rfl⟩ | ⟨d, tail, rfl, seen, other⟩
          · exact noName [] (c :: rest) rfl (by simp) isName ⟨more, later_eq.symm⟩
          · exact other (bracket d (by rw [later_eq]; rfl) seen)
      · exact inside.1 ⟨tag, between, isTag, by simpa using text_eq⟩
    · intro before suffix rest_eq
      exact noName (c :: before) suffix (by rw [rest_eq, List.cons_append])

theorem nowhere_stem (visible : ∀ c ∈ text, isVisible c) (nowhere : Nowhere Begins text [])
    (isName : IsName (nameOf text)) (later : List Char) :
    Nowhere Begins (stemOf text) (nameOf text ++ ' ' :: later) := by
  have text_eq := stemOf_append_nameOf text
  apply nowhere_word
  · rwa [text_eq]
  · rw [← text_eq] at nowhere
    simpa using (nowhere_append.mp nowhere).1
  · intro c head_eq seen
    cases head_eq
    cases seen
  · intro before suffix _ nonempty isLonger
    have length_eq := isLonger.length_eq
    have positive := List.length_pos_iff.mpr nonempty
    rw [List.length_append, isName.length_eq] at length_eq
    omega

end BreakTag

open BreakTag

/-! ## Tiles that are words and tags -/

namespace Tile

structure IsTagTile (tile : Tile) : Prop where
  gap : Blank tile.gap
  kind : tile.kind = .lineBreak
  text : IsTag tile.text
  inner : tile.isDestination = false

/-- The tile is a word in which no tag begins. -/
structure IsPlainWord (tile : Tile) : Prop extends tile.IsWordTile where
  nowhere : Nowhere Begins tile.text []

end Tile

/-- The tiles are tags and words, and there are blanks between two words. -/
def Spelled (afterWord : Prop) : List Tile → Prop
  | [] => True
  | tile :: rest =>
      tile.IsTagTile ∧ Spelled False rest ∨
        tile.IsPlainWord ∧ (afterWord → tile.gap ≠ []) ∧ Spelled True rest

/-- The tiles of a cut whose plain ones are cut into words. -/
def wordsOf (cut : Cut) : List Tile :=
  cut.tiles.flatMap (cutWith wordTiles)

section Words

variable {text gap word : List Char}

theorem gap_ne_nil_of_mem {tile : Tile} (parted : StopsAt isVisible text)
    (mem : tile ∈ wordTiles text) : tile.gap ≠ [] := by
  induction text using word_induction with
  | blank text blank => simp [wordTiles_blank blank] at mem
  | word gap word rest blank isWord stops ih =>
    rw [wordTiles_cons blank isWord stops, List.mem_cons] at mem
    rcases mem with rfl | mem
    · exact gap_ne_nil isWord parted
    · exact ih stops mem

theorem areWords_wordTiles (text : List Char) : AreWords (wordTiles text) := by
  refine ⟨fun tile => isWordTile_of_mem, ?_⟩
  intro tile mem
  induction text using word_induction with
  | blank text blank => simp [wordTiles_blank blank] at mem
  | word gap word rest blank isWord stops ih =>
    rw [wordTiles_cons blank isWord stops, List.tail_cons] at mem
    exact gap_ne_nil_of_mem stops mem

theorem flatMap_plainTile (text : List Char) :
    (Cut.plainTile text).flatMap (cutWith wordTiles) = wordTiles text := by
  rcases Cut.blank_or_tight text with blank | ⟨left, inner, right, rfl, leftBlank, tight, rightBlank⟩
  · rw [Cut.plainTile_blank blank, wordTiles_blank blank]
    rfl
  · have tiling := tiles_wordTiles tight
    have areWords := areWords_wordTiles inner
    rcases tiling.exists_cons tight.nonempty with ⟨first, others, tiles_eq, gap_eq, _⟩
    rw [tiles_eq] at areWords
    have gapped : AreWords (withGap left (wordTiles inner)) := by
      rw [tiles_eq, withGap_cons]
      refine ⟨?_, areWords.2⟩
      intro tile mem
      rcases List.mem_cons.mp mem with rfl | mem
      · have isWordTile := areWords.1 first (by simp)
        exact ⟨leftBlank, isWordTile.kind, isWordTile.text, isWordTile.inner⟩
      · exact areWords.1 tile (List.mem_cons_of_mem first mem)
    have same := wordTiles_weave gapped rightBlank
    rw [tiling.weave_withGap tight.nonempty] at same
    rw [Cut.plainTile_append tight leftBlank rightBlank, same]
    simp [cutWith, isPlain]

theorem wordsOf_last (text : List Char) : wordsOf (.last text) = wordTiles text :=
  flatMap_plainTile text

theorem wordsOf_before (text tag : List Char) (later : Cut) :
    wordsOf (.before text (.breakTag tag) later) =
      wordTiles text ++ ⟨blankTail text, .lineBreak, tag, false⟩ :: wordsOf later := by
  simp [wordsOf, Cut.tiles, flatMap_plainTile, Construct.tiles, cutWith, isPlain]

theorem blankTail_append {front : List Char} (ends : endsBlank front = false) (text : List Char) :
    blankTail (front ++ text) = blankTail text := by
  rcases Cut.blank_or_tight text with blank | ⟨left, inner, right, rfl, leftBlank, tight, rightBlank⟩
  · rw [blankTail_of_blank blank, blankTail, List.reverse_append,
      takeWhile_append_of_blank blank.reverse, takeWhile_eq_nil (by rwa [startsBlank_reverse]),
      List.append_nil, List.reverse_reverse]
  · have whole : front ++ (left ++ inner ++ right) = front ++ left ++ inner ++ right := by simp
    rw [whole, tight.blankTail_append rightBlank, tight.blankTail_append rightBlank]

theorem wordsOf_prepend {cut : Cut} (blank : Blank gap) (isWord : IsWord word)
    (stops : StopsAt isVisible cut.head) :
    wordsOf (cut.prepend (gap ++ word)) = ⟨gap, .word, word, false⟩ :: wordsOf cut := by
  cases cut with
  | last text =>
    rw [Cut.prepend, wordsOf_last, wordsOf_last, List.append_assoc]
    exact wordTiles_cons blank isWord stops
  | before text construct later =>
    have words_eq : wordTiles (gap ++ word ++ text) = ⟨gap, .word, word, false⟩ :: wordTiles text := by
      rw [List.append_assoc]
      exact wordTiles_cons blank isWord stops
    have ends : endsBlank (gap ++ word) = false := isWord.tight.endsBlank_append_left gap
    simp only [Cut.prepend, wordsOf, Cut.tiles, List.flatMap_append, flatMap_plainTile, words_eq,
      blankTail_append ends, List.cons_append]

theorem weave_wordsOf {cut : Cut} {grammar : Grammar} (tileable : grammar.Tileable)
    (fits : cut.Fits grammar) : weave (wordsOf cut) ++ cut.tail = cut.source := by
  rw [wordsOf, weave_flatMap_cutWith (fun _ => tiles_wordTiles) (Cut.sound_tiles tileable fits),
    cut.weave_tiles]

end Words

/-! ## Reading words and tags -/

section Reading

variable {cut : Cut} {tile : Tile} {tiles rest : List Tile} {afterWord : Prop}

theorem reads_cut (text : List Char) :
    (BreakTag.scanner.cut text).Fits BreakTag.grammar ∧ (BreakTag.scanner.cut text).source = text :=
  ⟨BreakTag.reads_scanner.fits_cut text, BreakTag.reads_scanner.source_cut text⟩

/-- What comes before the first bracket comes before the first tag. -/
theorem exists_head {front later : List Char} (fits : cut.Fits BreakTag.grammar)
    (source_eq : cut.source = front ++ later) (noBracket : '<' ∉ front) :
    ∃ back, cut.head = front ++ back := by
  rw [cut.source_eq] at source_eq
  rcases List.append_eq_append_iff.mp source_eq with ⟨between, rfl, behind_eq⟩ |
    ⟨between, head_eq, _⟩
  · by_cases empty : between = []
    · exact ⟨[], by simp [empty]⟩
    · rcases List.exists_cons_of_ne_nil empty with ⟨c, more, rfl⟩
      cases cut with
      | last text => cases behind_eq
      | before text construct later =>
        rcases fits.2.1 with ⟨tag, rfl, name, slash, isName, _, rfl⟩
        rcases isName.exists_chars with ⟨second, third, rfl, _⟩
        simp only [Cut.behind, Construct.source, List.cons_append, List.cons.injEq] at behind_eq
        exact absurd (by simp [← behind_eq.1]) noBracket
  · exact ⟨between, head_eq⟩

theorem cut_tag (isTagTile : tile.IsTagTile) :
    BreakTag.scanner.cut (weave (tile :: rest)) =
      .before tile.gap (.breakTag tile.text) (BreakTag.scanner.cut (weave rest)) := by
  rcases reads_cut (weave rest) with ⟨fits, source_eq⟩
  have whole : (Cut.before tile.gap (.breakTag tile.text) (BreakTag.scanner.cut (weave rest))).Fits
      BreakTag.grammar :=
    ⟨nowhere_of_blank startsBlank_of_begins isTagTile.gap, ⟨tile.text, rfl, isTagTile.text⟩, fits⟩
  rw [← BreakTag.reads_scanner.cut_source whole]
  simp [Cut.source, source_eq, Construct.source]

/-- Behind a word comes a blank or a tag, if anything. -/
theorem bracket_of_visible {c : Char} (spelled : Spelled True tiles)
    (head_eq : (weave tiles).head? = some c) (visible : isVisible c) : c = '<' := by
  cases tiles with
  | nil => cases head_eq
  | cons tile rest =>
    have glued : Blank tile.gap → tile.gap = [] := by
      intro blank
      by_contra nonempty
      rw [weave_cons, List.head?_append_of_ne_nil _ nonempty] at head_eq
      rw [← isBlank_eq_false_iff, blank c (List.mem_of_mem_head? head_eq)] at visible
      cases visible
    rcases spelled with ⟨isTagTile, _⟩ | ⟨isPlainWord, parted, _⟩
    · rcases isTagTile.text with ⟨name, slash, isName, _, text_eq⟩
      rcases isName.exists_chars with ⟨second, third, rfl, _⟩
      simp only [weave_cons, glued isTagTile.gap, text_eq, List.nil_append, List.cons_append,
        List.head?_cons, Option.some.injEq] at head_eq
      exact head_eq.symm
    · exact absurd (glued isPlainWord.gap) (parted trivial)

theorem stops_head (spelled : Spelled True tiles) :
    StopsAt isVisible (BreakTag.scanner.cut (weave tiles)).head := by
  rw [stopsAt_isVisible_iff]
  by_cases empty : (BreakTag.scanner.cut (weave tiles)).head = []
  · exact Or.inl empty
  · right
    cases tiles with
    | nil => exact absurd (by rw [weave_nil, Scanner.cut_nil]; rfl) empty
    | cons tile rest =>
      rcases spelled with ⟨isTagTile, _⟩ | ⟨isPlainWord, parted, _⟩
      · rw [cut_tag isTagTile, Cut.head] at empty ⊢
        exact isTagTile.gap.startsBlank_iff.mpr empty
      · have nonempty := parted trivial
        have starts := isPlainWord.gap.startsBlank_iff.mpr nonempty
        rw [← startsBlank_append nonempty (tile.text ++ weave rest), ← weave_cons,
          ← (reads_cut (weave (tile :: rest))).2, Cut.source_eq, startsBlank_append empty] at starts
        exact starts

/-- A word that does not make a tag with what comes behind it is found again. -/
theorem cut_word (isPlainWord : tile.IsPlainWord) (spelled : Spelled True rest)
    (noTag : IsName (nameOf tile.text) → ¬[' ', '/', '>'] <+: weave rest) :
    wordsOf (BreakTag.scanner.cut (weave (tile :: rest))) =
      tile :: wordsOf (BreakTag.scanner.cut (weave rest)) := by
  have stops := stops_head spelled
  rcases reads_cut (weave rest) with ⟨fits, source_eq⟩
  generalize BreakTag.scanner.cut (weave rest) = cut at stops fits source_eq ⊢
  have nowhere : Nowhere Begins (tile.gap ++ tile.text) (cut.head ++ cut.behind) := by
    rw [← cut.source_eq, source_eq]
    refine nowhere_append.mpr ⟨nowhere_of_blank startsBlank_of_begins isPlainWord.gap, ?_⟩
    rw [← List.nil_append (weave rest)]
    apply nowhere_word
    · simpa using isPlainWord.text.visible
    · exact isPlainWord.nowhere
    · intro c head_eq visible
      exact bracket_of_visible spelled head_eq visible
    · intro before suffix text_eq _ isName
      rw [List.append_nil] at isName
      apply noTag
      rwa [text_eq, nameOf_append isName]
  have whole : (cut.prepend (tile.gap ++ tile.text)).Fits BreakTag.grammar := by
    cases cut with
    | last text => exact nowhere_append.mpr ⟨by simpa [Cut.head, Cut.behind] using nowhere, fits⟩
    | before text construct later => exact ⟨nowhere_append.mpr ⟨nowhere, fits.1⟩, fits.2⟩
  have same := BreakTag.reads_scanner.cut_source whole
  rw [Cut.source_prepend, source_eq] at same
  rw [weave_cons, ← List.append_assoc, same, wordsOf_prepend isPlainWord.gap isPlainWord.text stops,
    ← isPlainWord.kind, ← isPlainWord.inner]

/-- Characters glued to a cut are a word of their own or begin its first one. -/
theorem wordsOf_glue {shorter : Cut} (fits : shorter.Fits BreakTag.grammar) {gap front : List Char}
    (blank : Blank gap) (isWord : IsWord front) :
    ∃ glued others,
      wordsOf (shorter.prepend (gap ++ front)) = ⟨gap, .word, front ++ glued, false⟩ :: others ∧
      wordsOf shorter = (if glued = [] then [] else [⟨[], .word, glued, false⟩]) ++ others := by
  have visible : ∀ c ∈ shorter.head.takeWhile isVisible, isVisible c :=
    fun c => holds_of_mem_takeWhile
  have stops := stopsAt_dropWhile isVisible shorter.head
  have head_eq := (List.takeWhile_append_dropWhile (p := isVisible) (l := shorter.head)).symm
  generalize shorter.head.takeWhile isVisible = glued at visible head_eq
  generalize shorter.head.dropWhile isVisible = behind at stops head_eq
  have idle : Nowhere Begins behind shorter.behind := by
    have idle := fits.idle_head
    rw [head_eq] at idle
    exact (nowhere_append.mp idle).2
  rcases fits.exists_prepend head_eq idle with ⟨rest, rfl, restFits, source_eq⟩
  have head_rest : rest.head = behind := by
    cases rest <;> simpa [Cut.prepend, Cut.head] using head_eq
  rw [← head_rest] at stops
  refine ⟨glued, wordsOf rest, ?_, ?_⟩
  · rw [Cut.prepend_prepend, List.append_assoc]
    refine wordsOf_prepend blank ⟨by simp [isWord.nonempty], ?_⟩ stops
    exact List.forall_mem_append.mpr ⟨isWord.visible, visible⟩
  · by_cases empty : glued = []
    · simp [empty]
    · rw [if_neg empty]
      simpa using wordsOf_prepend Blank.nil ⟨empty, visible⟩ stops

theorem wordsOf_stem {gap stem tag : List Char} (blank : Blank gap)
    (visible : ∀ c ∈ stem, isVisible c) (later : Cut) :
    wordsOf (.before (gap ++ stem) (.breakTag tag) later) =
      (if stem = [] then [] else [⟨gap, .word, stem, false⟩]) ++
        ⟨if stem = [] then gap else [], .lineBreak, tag, false⟩ :: wordsOf later := by
  rw [wordsOf_before]
  by_cases empty : stem = []
  · simp [empty, wordTiles_blank blank, blankTail_of_blank blank]
  · have isWord : IsWord stem := ⟨empty, visible⟩
    have alone := wordTiles_cons blank isWord stopsAt_nil
    rw [List.append_nil, wordTiles_blank Blank.nil] at alone
    have tail_eq : blankTail (gap ++ stem ++ []) = [] := isWord.tight.blankTail_append Blank.nil
    rw [List.append_nil] at tail_eq
    rw [alone, tail_eq, if_neg empty, if_neg empty]

/-- The cut behind the tag that a word makes with what comes behind it. -/
theorem fits_merged {shorter : Cut} (isPlainWord : tile.IsPlainWord)
    (isName : IsName (nameOf tile.text)) (fits : shorter.Fits BreakTag.grammar) :
    (Cut.before (tile.gap ++ stemOf tile.text)
      (.breakTag (nameOf tile.text ++ [' ', '/', '>'])) shorter).Fits BreakTag.grammar := by
  have isTag : IsTag (nameOf tile.text ++ [' ', '/', '>']) :=
    ⟨nameOf tile.text, [' ', '/'], isName, by simp [slashes], by simp⟩
  refine ⟨nowhere_append.mpr ⟨nowhere_of_blank startsBlank_of_begins isPlainWord.gap, ?_⟩,
    ⟨_, rfl, isTag⟩, fits⟩
  simpa [Construct.source] using
    nowhere_stem isPlainWord.text.visible isPlainWord.nowhere isName (['/', '>'] ++ shorter.source)

theorem attach_wordsOf {shorter : Cut} (isPlainWord : tile.IsPlainWord)
    (isName : IsName (nameOf tile.text)) (fits : shorter.Fits BreakTag.grammar) :
    attach tile (wordsOf (shorter.prepend [' ', '/', '>'])) =
      wordsOf (.before (tile.gap ++ stemOf tile.text)
        (.breakTag (nameOf tile.text ++ [' ', '/', '>'])) shorter) := by
  have space : Blank [' '] := by simp [Blank, isBlank]
  have closing : IsWord ['/', '>'] := ⟨by simp, by simp [isVisible, isBlank]⟩
  rcases wordsOf_glue fits space closing with ⟨glued, others, words_eq, shorter_words⟩
  have visible : ∀ c ∈ stemOf tile.text, isVisible c :=
    fun c mem => isPlainWord.text.visible c (List.mem_of_mem_take mem)
  have merges : tile.Merges ⟨[' '], .word, ['/', '>'] ++ glued, false⟩ :=
    ⟨isPlainWord.kind, rfl, rfl, isName, List.prefix_append _ _⟩
  have attach_eq : attach tile (wordsOf (shorter.prepend [' ', '/', '>'])) =
      tile.merge ⟨[' '], .word, ['/', '>'] ++ glued, false⟩ ++ others := by
    rw [show [' ', '/', '>'] = [' '] ++ ['/', '>'] from rfl, words_eq, attach, if_pos merges]
  rw [attach_eq, wordsOf_stem isPlainWord.gap visible, shorter_words, merge, ← isPlainWord.kind,
    ← isPlainWord.inner]
  simp

/-- A word that makes a tag with what comes behind it makes just that. -/
theorem cut_merged (isPlainWord : tile.IsPlainWord) (isName : IsName (nameOf tile.text))
    (starts : [' ', '/', '>'] <+: weave rest) :
    wordsOf (BreakTag.scanner.cut (weave (tile :: rest))) =
      attach tile (wordsOf (BreakTag.scanner.cut (weave rest))) := by
  rcases starts with ⟨more, starts⟩
  rcases reads_cut (weave rest) with ⟨fits, source_eq⟩
  generalize BreakTag.scanner.cut (weave rest) = cut at fits source_eq ⊢
  rw [← starts] at source_eq
  rcases exists_head fits source_eq (by decide) with ⟨back, head_eq⟩
  have idle : Nowhere Begins back cut.behind := by
    have idle := fits.idle_head
    rw [head_eq] at idle
    exact (nowhere_append.mp idle).2
  -- Behind the end of the tag, the text is cut as it was.
  rcases fits.exists_prepend head_eq idle with ⟨shorter, rfl, shorterFits, _⟩
  rw [Cut.source_prepend] at source_eq
  have shorter_eq : shorter.source = more := List.append_cancel_left source_eq
  have weave_eq : weave (tile :: rest) = (Cut.before (tile.gap ++ stemOf tile.text)
      (.breakTag (nameOf tile.text ++ [' ', '/', '>'])) shorter).source := by
    rw [weave_cons, ← starts, shorter_eq.symm, Cut.source]
    conv_lhs => rw [← stemOf_append_nameOf tile.text]
    simp [Construct.source]
  rw [weave_eq, BreakTag.reads_scanner.cut_source (fits_merged isPlainWord isName shorterFits),
    attach_wordsOf isPlainWord isName shorterFits]

/-- Tags and words are found again, with the tags that words make. -/
theorem wordsOf_cut (spelled : Spelled afterWord tiles) :
    wordsOf (BreakTag.scanner.cut (weave tiles)) = reread tiles := by
  induction tiles generalizing afterWord with
  | nil => rw [weave_nil, Scanner.cut_nil, wordsOf_last, wordTiles_blank Blank.nil]; rfl
  | cons tile rest ih =>
    rw [reread, List.foldr, ← reread]
    rcases spelled with ⟨isTagTile, later⟩ | ⟨isPlainWord, _, later⟩
    · have apart : ∀ next, (reread rest).head? = some next → ¬tile.Merges next := by
        intro next _ merges
        have kind_eq := isTagTile.kind
        rw [merges.kind] at kind_eq
        cases kind_eq
      rw [cut_tag isTagTile, wordsOf_before, wordTiles_blank isTagTile.gap,
        blankTail_of_blank isTagTile.gap, ih later, attach_eq_cons apart, ← isTagTile.kind,
        ← isTagTile.inner, List.nil_append]
    · by_cases makes : IsName (nameOf tile.text) ∧ [' ', '/', '>'] <+: weave rest
      · rw [cut_merged isPlainWord makes.1 makes.2, ih later]
      · have apart : ∀ next, (reread rest).head? = some next → ¬tile.Merges next := by
          intro next head_eq merges
          apply makes
          refine ⟨merges.tag.1, ?_⟩
          rcases List.head?_eq_some_iff.mp head_eq with ⟨others, reread_eq⟩
          rcases merges.tag.2 with ⟨more, text_eq⟩
          have source_eq := weave_wordsOf tileable_grammar (reads_cut (weave rest)).1
          rw [(reads_cut (weave rest)).2, ih later, reread_eq, weave_cons, merges.gap, ← text_eq]
            at source_eq
          rw [← source_eq]
          simp
        rw [cut_word isPlainWord later fun isName starts => makes ⟨isName, starts⟩, ih later,
          attach_eq_cons apart]

end Reading

end Refill
