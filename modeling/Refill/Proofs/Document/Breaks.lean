import Refill.Proofs.Document.Kept

/-!
# Broken lines of a refilled document

Where the paragraphs that change are set off, refilling a document keeps all of its breaks, and new ones
are only those in what a paragraph has become (`refill_breaks`). A line that ends in a backslash breaks
there, so refilling must end none behind one. In a document of which no line ends in a backslash or a
blank, no line breaks at all; refilling keeps it so just if no line that it ends in a paragraph shows a
backslash at its end.
-/

namespace Refill

open Text Markdown

/-! ## Texts side by side -/

section Unbroken

variable {front back : List Char}

theorem Markdown.Unbroken.append (left : Unbroken front) (right : Unbroken back)
    (inLine : ∀ c, back.head? = some c → isLineEnd c = false) : Unbroken (front ++ back) := by
  refine List.isChain_append.mpr ⟨left, right, fun c _ e head_eq ends => ?_⟩
  rw [inLine e head_eq] at ends
  cases ends

theorem Markdown.Unbroken.append_starts (left : Unbroken front) (right : Unbroken back)
    (starts : startsBlank back = false) : Unbroken (front ++ back) := by
  refine left.append right fun c head_eq => ?_
  by_contra ends
  have blank := isBlank_of_isLineEnd (by simpa using ends)
  simp [startsBlank, head_eq, blank] at starts

/-- A part that begins with a visible character may take the place of another one with the same end. -/
theorem Markdown.Unbroken.replace {old new : List Char}
    (whole : Unbroken (front ++ (old ++ back))) (unbroken : Unbroken new)
    (starts : startsBlank new = false) (nonempty : new ≠ [])
    (last : new.getLast? = old.getLast?) : Unbroken (front ++ (new ++ back)) := by
  have left : Unbroken front := whole.of_infix (List.prefix_append _ _).isInfix
  have right : Unbroken (old ++ back) := whole.of_infix (List.suffix_append _ _).isInfix
  rcases List.isChain_append.mp right with ⟨_, later, seam⟩
  refine left.append_starts (List.isChain_append.mpr ⟨unbroken, later, ?_⟩) ?_
  · rw [last]
    exact seam
  · rwa [startsBlank_append nonempty]

/-- Where a trimmed text goes on in another line, its own last line breaks behind a backslash only. -/
theorem Text.Tight.unbroken_append_iff (tight : Tight front) (later : startsBlank back = false) :
    Unbroken (front ++ '\n' :: back) ↔
      Unbroken front ∧ Unbroken back ∧ front.getLast? ≠ some '\\' := by
  have behind : Unbroken ('\n' :: back) ↔ Unbroken back := by
    constructor
    · intro unbroken
      exact unbroken.of_infix (List.suffix_cons '\n' back).isInfix
    · intro unbroken
      have newline : Unbroken ['\n'] := List.isChain_singleton '\n'
      exact newline.append_starts unbroken later
  have seam : (∀ c ∈ front.getLast?, ∀ e ∈ ('\n' :: back).head?, Holds c e) ↔
      front.getLast? ≠ some '\\' := by
    rcases List.eq_nil_or_concat' front with rfl | ⟨start, last, rfl⟩
    · exact absurd rfl tight.nonempty
    have visible : isGap last = false := by
      by_contra gap
      have blank := isBlank_of_isGap (by simpa using gap)
      simpa [endsBlank, blank] using tight.ends
    simp [Holds, isLineEnd, visible]
  rw [← behind, ← seam]
  exact List.isChain_append

/-- Lines that are trimmed break behind a backslash only. -/
theorem unbroken_intercalate_iff {lines : List (List Char)} (tight : ∀ line ∈ lines, Tight line)
    (unbroken : ∀ line ∈ lines, Unbroken line) :
    Unbroken (['\n'].intercalate lines) ↔
      ∀ line ∈ lines.dropLast, line.getLast? ≠ some '\\' := by
  induction lines with
  | nil => simp [Unbroken, List.intercalate]
  | cons line lines ih =>
    cases lines with
    | nil => simpa [List.intercalate] using unbroken
    | cons next lines =>
      have joined : ['\n'].intercalate (line :: next :: lines) =
          line ++ '\n' :: ['\n'].intercalate (next :: lines) := by
        simp [List.intercalate]
      rw [List.forall_mem_cons] at tight unbroken
      have later := tight_intercalate (by simp) tight.2
      rw [joined, tight.1.unbroken_append_iff later.starts, ih tight.2 unbroken.2,
        List.dropLast_cons_cons, List.forall_mem_cons]
      simp only [unbroken.1, true_and]
      exact and_comm

/-- Tokens go on a line that is unbroken, with spaces or without. -/
theorem unbroken_append_tokens {line : List Token} (left : Unbroken front)
    (inside : ∀ token ∈ line, startsBlank token.text = false ∧ Unbroken token.text) :
    Unbroken (front ++ line.flatMap Token.spacedText) := by
  induction line generalizing front with
  | nil => simpa using left
  | cons token line ih =>
    rw [List.forall_mem_cons] at inside
    rcases inside with ⟨⟨starts, unbroken⟩, later⟩
    rw [List.flatMap_cons, ← List.append_assoc]
    refine ih ?_ later
    unfold Token.spacedText
    split
    · have space : Unbroken [' '] := List.isChain_singleton ' '
      rw [← List.singleton_append, ← List.append_assoc]
      exact (left.append space (by simp [isLineEnd])).append_starts unbroken starts
    · exact left.append_starts unbroken starts

end Unbroken

namespace Paragraph

variable {text : List Char} {width : Nat}

theorem unbroken_tokens (unbroken : Unbroken text) : ∀ token ∈ tokens text, Unbroken token.text := by
  intro token mem
  rw [← map_token_tiles] at mem
  rcases List.mem_map.mp mem with ⟨tile, tileMem, rfl⟩
  exact unbroken.of_infix (text_infix_of_mem_tiles tileMem)

theorem unbroken_of_mem_pack (unbroken : ∀ token ∈ tokens text, Unbroken token.text)
    {packed : List Token} (mem : packed ∈ pack width (tokens text)) : Unbroken (lineText packed) := by
  have visible := visible_tokens text
  have inside : ∀ token ∈ packed, startsBlank token.text = false ∧ Unbroken token.text := by
    intro token tokenMem
    have found : token ∈ tokens text := by
      rw [← flatten_pack width visible]
      exact List.mem_flatten.mpr ⟨packed, mem, tokenMem⟩
    refine ⟨?_, unbroken token found⟩
    rw [← map_token_tiles] at found
    rcases List.mem_map.mp found with ⟨tile, tileMem, rfl⟩
    exact ((tiles_trim text).sound tile tileMem).text.starts
  rw [lineText_eq (visible_of_mem_pack visible packed mem)]
  cases packed with
  | nil => exact List.isChain_nil
  | cons first others =>
    rw [List.forall_mem_cons] at inside
    exact unbroken_append_tokens inside.1.2 inside.2

/-- A paragraph that is refilled breaks where a line of it that is not the last ends in a backslash. -/
theorem unbroken_fill_iff (unbroken : ∀ token ∈ tokens text, Unbroken token.text) :
    Unbroken (fill width text) ↔
      ∀ line ∈ (pack width (tokens text)).dropLast, (lineText line).getLast? ≠ some '\\' := by
  have tight : ∀ line ∈ (pack width (tokens text)).map lineText, Tight line := by
    rw [List.forall_mem_map]
    exact fun packed => tight_of_mem_pack
  have lines : ∀ line ∈ (pack width (tokens text)).map lineText, Unbroken line := by
    rw [List.forall_mem_map]
    exact fun packed => unbroken_of_mem_pack unbroken
  have shown := unbroken_intercalate_iff tight lines
  rw [← List.map_dropLast, List.forall_mem_map] at shown
  exact shown

end Paragraph

namespace Document

/-- If each piece may be changed wherever it stands, all of them may. -/
theorem unbroken_pieces {pieces : List Piece} (front : List Char) {rest : List Char}
    (changes : ∀ piece ∈ pieces, ∀ front back, Unbroken (front ++ (piece.before ++ back)) →
      Unbroken (front ++ (piece.after ++ back)))
    (whole : Unbroken (front ++
      (pieces.flatMap (fun piece => piece.gap ++ piece.before) ++ rest))) :
    Unbroken (front ++ (pieces.flatMap (fun piece => piece.gap ++ piece.after) ++ rest)) := by
  induction pieces generalizing front with
  | nil => exact whole
  | cons piece pieces ih =>
    rw [List.forall_mem_cons] at changes
    have changed := changes.1 (front ++ piece.gap)
      (pieces.flatMap (fun piece => piece.gap ++ piece.before) ++ rest) (by simpa using whole)
    have later := ih (front ++ piece.gap ++ piece.after) changes.2 (by simpa using changed)
    simpa using later

theorem filterMap_breaks_of_unbroken {text : List Char} (unbroken : Unbroken text) :
    (marks text).filterMap breakOffset? = [] := by
  rw [List.filterMap_eq_nil_iff]
  intro mark mem
  cases mark with
  | hardBreak offset => exact absurd mem (hardBreak_notMem unbroken offset)
  | _ => rfl

theorem infix_pieces (text : Piece → List Char) {pieces : List Piece} {piece : Piece}
    (mem : piece ∈ pieces) (rest : List Char) :
    text piece <:+: pieces.flatMap (fun piece => piece.gap ++ text piece) ++ rest := by
  have inside : piece.gap ++ text piece <:+: pieces.flatMap fun piece => piece.gap ++ text piece :=
    List.infix_of_mem_flatten (List.mem_map_of_mem mem)
  exact ((List.suffix_append _ _).isInfix.trans inside).trans (List.prefix_append _ _).isInfix

section Piece

variable {width : Nat} {source : List Char} {piece : Piece}

/-- What a refilled paragraph shows last is what the paragraph shows last. -/
theorem Refillable.getLast?_fill (refillable : Refillable byteMarks width source piece) :
    (Paragraph.fill width (trimEnd piece.before)).getLast? = (trimEnd piece.before).getLast? := by
  rw [← getLast?_filter_visible refillable.tight.ends, Paragraph.filter_fill,
    getLast?_filter_visible (endsBlank_trimEnd piece.before)]

theorem unbroken_edited {front back : List Char}
    (after_eq : piece.after = editWith byteMarks width source piece.span piece.before)
    (filled : Refillable byteMarks width source piece →
      Unbroken (Paragraph.fill width (trimEnd piece.before)))
    (whole : Unbroken (front ++ (piece.before ++ back))) :
    Unbroken (front ++ (piece.after ++ back)) := by
  by_cases refillable : Refillable byteMarks width source piece
  · rw [after_eq, editWith_of_refillable refillable, List.append_assoc]
    rw [← trimEnd_append_blankTail piece.before, List.append_assoc] at whole
    exact whole.replace (filled refillable) refillable.tight.starts refillable.tight.nonempty
      refillable.getLast?_fill
  · rwa [after_eq, editWith_of_not_refillable refillable]

end Piece

/-- If no line of a document ends in a backslash or a blank, refilling keeps it so just if no line that
it ends within a paragraph ends in a backslash. -/
theorem Spliced.unbroken_output_iff {width : Nat} {source output rest : List Char}
    {pieces : List Piece} (positive : 1 ≤ width)
    (spliced : Spliced byteMarks width source output pieces rest) (unbroken : Unbroken source) :
    Unbroken output ↔ ∀ piece ∈ pieces, Refillable byteMarks width source piece →
      ∀ line ∈ (pack width (Paragraph.tokens (trimEnd piece.before))).dropLast,
        (lineText line).getLast? ≠ some '\\' := by
  have edited := spliced.edited positive
  have fill_iff : ∀ piece ∈ pieces, Unbroken (Paragraph.fill width (trimEnd piece.before)) ↔
      ∀ line ∈ (pack width (Paragraph.tokens (trimEnd piece.before))).dropLast,
        (lineText line).getLast? ≠ some '\\' := by
    intro piece mem
    have inside := infix_pieces Piece.before mem rest
    rw [← spliced.source_eq, ← trimEnd_append_blankTail piece.before] at inside
    exact Paragraph.unbroken_fill_iff (Paragraph.unbroken_tokens
      (unbroken.of_infix ((List.prefix_append _ _).isInfix.trans inside)))
  constructor
  · intro kept piece mem refillable
    have inside := infix_pieces Piece.after mem rest
    rw [← spliced.output_eq, edited piece mem, editWith_of_refillable refillable] at inside
    rw [← fill_iff piece mem]
    exact kept.of_infix ((List.prefix_append _ _).isInfix.trans inside)
  · intro held
    rw [spliced.source_eq] at unbroken
    rw [spliced.output_eq]
    refine unbroken_pieces [] (fun piece mem front back whole => ?_) unbroken
    refine unbroken_edited (edited piece mem) (fun refillable => ?_) whole
    exact (fill_iff piece mem).mpr (held piece mem refillable)

/-- A text of which no line ends in a backslash or a blank has no breaks. -/
theorem breaksIn_of_unbroken {text : List Char} (unbroken : Unbroken text)
    (definitions : Definitions) : breaksIn definitions text = [] := by
  rw [List.eq_nil_iff_forall_not_mem]
  intro offset mem
  rcases exists_of_mem_hardBreaks mem with ⟨line, lineMem, breaks⟩
  exact not_unbroken_textBlock (.inl rfl) line lineMem (by simp [breaks]) unbroken

/-- The pieces that change have new breaks only where a line comes to end in a backslash. -/
theorem Spliced.newBreaks_eq_nil {width : Nat} {source output rest : List Char}
    {pieces : List Piece} (positive : 1 ≤ width)
    (spliced : Spliced byteMarks width source output pieces rest) (definitions : Definitions)
    {piece : Piece} (mem : piece ∈ pieces)
    (inside : ∀ token ∈ Paragraph.tokens (trimEnd piece.before), Unbroken token.text)
    (held : ∀ line ∈ (pack width (Paragraph.tokens (trimEnd piece.before))).dropLast,
      (lineText line).getLast? ≠ some '\\') : newBreaks definitions piece = [] := by
  rw [newBreaks]
  split
  · rfl
  · next changed =>
    have refillable := spliced.refillable_of_ne mem changed
    have body_eq : trimEnd piece.after = Paragraph.fill width (trimEnd piece.before) := by
      rw [spliced.edited positive piece mem, editWith_of_refillable refillable]
      exact trimEnd_append_blank refillable.tight.ends (blank_blankTail piece.before)
    rw [body_eq]
    exact breaksIn_of_unbroken ((Paragraph.unbroken_fill_iff inside).mpr held) definitions

/-- Where the paragraphs that change are set off, refilling removes no break, and those it adds are in
what these paragraphs have become. None is where no line that it ends shows a backslash at its end, if
lines in code and links, which stay as they are, show neither backslash nor blank there. If no line of
the document does, none breaks, and the output is so just if no line that refilling ends in a paragraph
ends in a backslash. -/
theorem refill_breaks (source : List Char) (width : Nat) (positive : 1 ≤ width) :
    ∃ output pieces rest, refill source width = .ok output ∧
      Spliced byteMarks width source output pieces rest ∧
      (SetOff [] pieces rest →
        ((marks output).filterMap breakOffset?).length =
          ((marks source).filterMap breakOffset?).length +
            (pieces.flatMap (newBreaks (Document.read source).definitions)).length ∧
        (((marks output).filterMap breakOffset?).length =
            ((marks source).filterMap breakOffset?).length ↔
          ∀ piece ∈ pieces, newBreaks (Document.read source).definitions piece = [])) ∧
      (∀ piece ∈ pieces,
        (∀ token ∈ Paragraph.tokens (trimEnd piece.before), Unbroken token.text) →
        (∀ line ∈ (pack width (Paragraph.tokens (trimEnd piece.before))).dropLast,
          (lineText line).getLast? ≠ some '\\') →
        newBreaks (Document.read source).definitions piece = []) ∧
      (Unbroken source → (marks source).filterMap breakOffset? = [] ∧
        (Unbroken output ↔ ∀ piece ∈ pieces, Refillable byteMarks width source piece →
          ∀ line ∈ (pack width (Paragraph.tokens (trimEnd piece.before))).dropLast,
            (lineText line).getLast? ≠ some '\\') ∧
        (Unbroken output → (marks output).filterMap breakOffset? = [])) := by
  rcases exists_spliced positive (orderly_byteMarks source) with ⟨output, pieces, rest, spliced, _⟩
  refine ⟨output, pieces, rest, spliced.refill_eq positive, spliced, fun setOff => ?_,
    fun piece mem => spliced.newBreaks_eq_nil positive _ mem, fun unbroken => ?_⟩
  · have breaks := (spliced.remade positive setOff).1.breaks
    refine ⟨breaks, ?_⟩
    rw [breaks, Nat.add_eq_left, List.length_eq_zero_iff, List.flatMap_eq_nil_iff]
  · exact ⟨filterMap_breaks_of_unbroken unbroken, spliced.unbroken_output_iff positive unbroken,
      filterMap_breaks_of_unbroken⟩

/-- A paragraph that changes, one that a break keeps as it is, and one in which a line comes to end in a
backslash. -/
theorem refill_breaks_slash :
    1 ≤ 5 ∧ ∃ output pieces rest, refill "a b\nc\n\nd\\\ne\n\naaa\\ bbb\n".toList 5 = .ok output ∧
      Spliced byteMarks 5 "a b\nc\n\nd\\\ne\n\naaa\\ bbb\n".toList output pieces rest ∧
      SetOff [] pieces rest ∧
      ((marks output).filterMap breakOffset?).length =
        ((marks "a b\nc\n\nd\\\ne\n\naaa\\ bbb\n".toList).filterMap breakOffset?).length +
          (pieces.flatMap (newBreaks (Document.read
            "a b\nc\n\nd\\\ne\n\naaa\\ bbb\n".toList).definitions)).length ∧
      pieces.map (fun piece => (newBreaks (Document.read
        "a b\nc\n\nd\\\ne\n\naaa\\ bbb\n".toList).definitions piece).length) = [0, 0, 1] := by
  have positive : 1 ≤ 5 := by decide
  rcases refill_breaks "a b\nc\n\nd\\\ne\n\naaa\\ bbb\n".toList 5 positive with
    ⟨output, pieces, rest, refilled, spliced, found, _⟩
  rcases spliced.pieces_eq positive
    [⟨[], ⟨0, 6⟩, "a b\nc\n".toList, "a b c\n".toList⟩,
      ⟨['\n'], ⟨7, 12⟩, "d\\\ne\n".toList, "d\\\ne\n".toList⟩,
      ⟨['\n'], ⟨13, 22⟩, "aaa\\ bbb\n".toList, "aaa\\\nbbb\n".toList⟩] []
    (by decide +kernel) (by decide +kernel) (by decide +kernel) (by decide +kernel) with
    ⟨pieces_eq, rest_eq⟩
  have setOff : SetOff [] pieces rest := by
    rw [pieces_eq, rest_eq]
    decide +kernel
  refine ⟨positive, output, pieces, rest, refilled, spliced, setOff, (found setOff).1, ?_⟩
  rw [pieces_eq]
  decide +kernel

/-- A paragraph becomes a definition. So a bracket becomes the label of a link, and the break in it is no
longer one. -/
theorem exists_break_removed :
    ∃ source width output, 1 ≤ width ∧ refill source width = .ok output ∧
      ((marks source).filterMap breakOffset?).length = 1 ∧
      ((marks output).filterMap breakOffset?).length = 0 :=
  ⟨"[foo bar]: /url text\n\n[x][foo  \nbar] y\nz\n".toList, 15,
    "[foo bar]: /url\ntext\n\n[x][foo  \nbar] y\nz\n".toList, by decide, by decide +kernel,
    by decide +kernel, by decide +kernel⟩

/-- A paragraph becomes a definition. So a bracket becomes a link, the one around it does not, and what was
the title of that one breaks. -/
theorem exists_break_added :
    ∃ source width output, 1 ≤ width ∧ refill source width = .ok output ∧
      ((marks source).filterMap breakOffset?).length = 1 ∧
      ((marks output).filterMap breakOffset?).length = 2 :=
  ⟨"[foo bar]: /url text\n\n[a [foo bar] b](/u \"t  \nt\") c\\\nd\n".toList, 15,
    "[foo bar]: /url\ntext\n\n[a [foo bar] b](/u \"t  \nt\") c\\\nd\n".toList, by decide,
    by decide +kernel, by decide +kernel, by decide +kernel⟩

/-- There are documents of which refilling changes the number of breaks. In the first a line comes to end
in a backslash. In the others a paragraph becomes a definition. -/
theorem refill_breaks_line :
    (¬∀ source width, 1 ≤ width → ∃ output, refill source width = .ok output ∧
      ((marks output).filterMap breakOffset?).length =
        ((marks source).filterMap breakOffset?).length) ∧
    (∃ source width output, 1 ≤ width ∧ refill source width = .ok output ∧
      ((marks source).filterMap breakOffset?).length = 1 ∧
      ((marks output).filterMap breakOffset?).length = 0) ∧
    ∃ source width output, 1 ≤ width ∧ refill source width = .ok output ∧
      ((marks source).filterMap breakOffset?).length = 1 ∧
      ((marks output).filterMap breakOffset?).length = 2 := by
  refine ⟨?_, exists_break_removed, exists_break_added⟩
  intro same
  have first : refill "aaa\\ bbb\n".toList 5 = .ok "aaa\\\nbbb\n".toList := by decide +kernel
  have before : ((marks "aaa\\ bbb\n".toList).filterMap breakOffset?).length = 0 := by
    decide +kernel
  have after : ((marks "aaa\\\nbbb\n".toList).filterMap breakOffset?).length = 1 := by
    decide +kernel
  rcases same "aaa\\ bbb\n".toList 5 (by decide) with ⟨output, output_eq, length_eq⟩
  rw [first, Except.ok.injEq] at output_eq
  rw [← output_eq, before, after] at length_eq
  exact absurd length_eq (by decide)

end Document

end Refill
