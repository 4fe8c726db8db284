import Refill.Proofs.Packing.Layout

/-!
# No blank lines

A refilled paragraph has newlines of two kinds: those at the ends of its lines, and those that
stand in a code span or a destination and are kept there. Every token begins and ends with a
visible character, and between two tokens a layout puts one blank at most. Blanks in a row stand
all between two tokens, or all inside one (`exists_tile_of_blank`). So two blanks or more in a row
of a refilled paragraph stand in the text it was made of as well, and with them every blank line
and every blank at the end of a line (`refill_lines`).
-/

namespace Refill

open Text Tile

/-- Two newlines stand in the text with nothing but blanks between them. -/
def Text.HasBlankLine (text : List Char) : Prop :=
  ∃ blanks, Blank blanks ∧ '\n' :: (blanks ++ ['\n']) <:+: text

/-! ## Blanks in a row -/

section Row

variable {run front back : List Char} {tiles : List Tile}

/-- Where a visible character stands at a seam, on either side, no row of blanks goes across. -/
theorem blank_infix_append (blank : Blank run)
    (parted : endsBlank front = false ∨ startsBlank back = false) (inside : run <:+: front ++ back) :
    run <:+: front ∨ run <:+: back := by
  rcases inside with ⟨before, behind, text_eq⟩
  rw [List.append_assoc, eq_comm] at text_eq
  rcases side_of_append_eq text_eq with
    ⟨rest, front_eq, _⟩ | ⟨rest, _, back_eq⟩ | ⟨left, right, rfl, leftLeft, rightLeft, rfl, rfl⟩
  · exact Or.inl ⟨before, rest, by rw [front_eq, List.append_assoc]⟩
  · exact Or.inr ⟨rest, behind, by rw [back_eq, List.append_assoc]⟩
  · have leftBlank : Blank left := fun c mem => blank c (List.mem_append_left right mem)
    have rightBlank : Blank right := fun c mem => blank c (List.mem_append_right left mem)
    rcases parted with ends | starts
    · exact absurd (leftBlank.eq_nil_of_ends ends) leftLeft
    · exact absurd (rightBlank.eq_nil_of_starts starts) rightLeft

/-- Blanks in a row stand in the gap of one tile, or in its text. -/
theorem exists_tile_of_blank (sound : ∀ tile ∈ tiles, tile.Sound) (blank : Blank run)
    (nonempty : run ≠ []) (inside : run <:+: weave tiles) :
    ∃ tile ∈ tiles, run <:+: tile.gap ∨ run <:+: tile.text := by
  induction tiles with
  | nil => exact absurd (List.eq_nil_of_infix_nil inside) nonempty
  | cons tile tiles ih =>
    have first := sound tile (by simp)
    have starts := first.text.startsBlank_append_right (weave tiles)
    rw [weave_cons] at inside
    rcases blank_infix_append blank (Or.inr starts) inside with inGap | behind
    · exact ⟨tile, by simp, Or.inl inGap⟩
    rcases blank_infix_append blank (Or.inl first.text.ends) behind with inText | later
    · exact ⟨tile, by simp, Or.inr inText⟩
    · rcases ih (fun other mem => sound other (List.mem_cons_of_mem tile mem)) later with
        ⟨other, mem, stands⟩
      exact ⟨other, List.mem_cons_of_mem tile mem, stands⟩

end Row

/-! ## The lines of a paragraph -/

/-- A line shows a visible character at either end. -/
theorem tight_join {line : List Tile} (nonempty : line ≠ []) (sound : ∀ tile ∈ line, tile.Sound) :
    Tight (Token.join (line.map token)) := by
  cases line with
  | nil => exact absurd rfl nonempty
  | cons tile line =>
    have whole : Tight (tile.text ++ weave (line.map tidy)) :=
      @tight_weave tile.tidy _ (sound_of_regapped sound (forall_tidy (tile :: line)))
    have shown : weave (withGap [] ((tile :: line).map tidy)) =
        [] ++ Token.join ((tile :: line).map token) := weave_withGap_tidy nonempty []
    rw [List.map_cons, withGap_cons, weave_cons, List.nil_append, List.nil_append] at shown
    rwa [← shown]

theorem tight_intercalate {lines : List (List Char)} (nonempty : lines ≠ [])
    (tight : ∀ line ∈ lines, Tight line) : Tight (['\n'].intercalate lines) := by
  induction lines with
  | nil => exact absurd rfl nonempty
  | cons line lines ih =>
    rw [List.forall_mem_cons] at tight
    cases lines with
    | nil => simpa [List.intercalate] using tight.1
    | cons next lines =>
      have later := ih (by simp) tight.2
      have joined : ['\n'].intercalate (line :: next :: lines) =
          line ++ '\n' :: ['\n'].intercalate (next :: lines) := by
        simp [List.intercalate]
      rw [joined]
      refine ⟨by simp, ?_, ?_⟩
      · rw [startsBlank_append tight.1.nonempty, tight.1.starts]
      · rw [endsBlank_append (by simp), ← List.singleton_append, endsBlank_append later.nonempty,
          later.ends]

namespace Paragraph

variable {text : List Char} {width : Nat}

theorem tight_of_mem_pack {packed : List Token} (mem : packed ∈ pack width (tokens text)) :
    Tight (lineText packed) := by
  rw [lineText_eq (visible_of_mem_pack (visible_tokens text) packed mem)]
  rcases layout_tiles text width with ⟨lines, lines_eq, pack_eq, nonempty, _⟩
  rw [pack_eq] at mem
  rcases List.mem_map.mp mem with ⟨line, lineMem, rfl⟩
  apply tight_join (nonempty line lineMem)
  intro tile inside
  apply (tiles_trim text).sound
  rw [← lines_eq]
  exact List.mem_flatten.mpr ⟨line, lineMem, inside⟩

theorem fill_eq_nil_iff : fill width text = [] ↔ Blank text := by
  constructor
  · intro empty
    have visible_eq := filter_fill width text
    rw [empty, List.filter_nil, eq_comm, List.filter_eq_nil_iff] at visible_eq
    intro c mem
    simpa [isVisible] using visible_eq c mem
  · intro blank
    rw [fill, ← map_token_tiles, tiles_blank blank]
    rfl

theorem tight_fill (left : ¬Blank text) : Tight (fill width text) := by
  refine tight_intercalate ?_ ?_
  · intro empty
    have none : fill width text = [] := by
      rw [fill, layout, empty]
      rfl
    exact left (fill_eq_nil_iff.mp none)
  · intro line mem
    rcases List.mem_map.mp mem with ⟨packed, packedMem, rfl⟩
    exact tight_of_mem_pack packedMem

theorem endsBlank_fill (text : List Char) (width : Nat) : endsBlank (fill width text) = false := by
  by_cases blank : Blank text
  · rw [fill_eq_nil_iff.mpr blank]
    rfl
  · exact (tight_fill blank).ends

theorem text_infix_of_mem_tiles {tile : Tile} (mem : tile ∈ tiles text) : tile.text <:+: text := by
  have text_eq := (tiling_tiles text).text_eq
  rcases List.append_of_mem mem with ⟨earlier, later, tiles_eq⟩
  rw [tiles_eq] at text_eq
  refine ⟨leading text ++ (weave earlier ++ tile.gap), weave later ++ trailing text, ?_⟩
  conv_rhs => rw [← text_eq]
  simp

theorem text_infix_of_mem_pack {width : Nat} {line : List Token} {token : Token}
    (mem : line ∈ pack width (tokens text)) (tokenMem : token ∈ line) : token.text <:+: text := by
  have found : token ∈ (pack width (tokens text)).flatten := List.mem_flatten.mpr ⟨line, mem, tokenMem⟩
  rw [flatten_pack width (visible_tokens text), ← map_token_tiles] at found
  rcases List.mem_map.mp found with ⟨tile, tileMem, rfl⟩
  exact text_infix_of_mem_tiles tileMem

/-- A row of blanks in a refilled paragraph stands inside a token, and so in the text. -/
theorem row_infix_of_fill {row : List Char} (blank : Blank row) (two : 2 ≤ row.length)
    (inside : row <:+: fill width text) : row <:+: text := by
  rcases layout_tiles text width with ⟨lines, _, _, _, regapped, fill_eq⟩
  have sound := sound_of_regapped (tiles_trim text).sound regapped
  have nonempty : row ≠ [] := by
    rintro rfl
    simp at two
  rw [fill_eq] at inside
  rcases exists_tile_of_blank sound blank nonempty inside with ⟨tile, mem, inGap | inText⟩
  · have gap_mem := gap_of_mem_relay mem
    have short : tile.gap.length ≤ 1 := by
      simp only [List.mem_cons, List.not_mem_nil, or_false] at gap_mem
      rcases gap_mem with gap_eq | gap_eq | gap_eq <;> simp [gap_eq]
    have length_le := inGap.length_le
    omega
  · have text_mem : tile.text ∈ (tiles text).map Tile.text := by
      rw [← map_text_of_regapped regapped]
      exact List.mem_map_of_mem mem
    rcases List.mem_map.mp text_mem with ⟨original, originalMem, text_eq⟩
    rw [← text_eq] at inText
    exact inText.trans (text_infix_of_mem_tiles originalMem)

theorem hasBlankLine_of_fill (has : HasBlankLine (fill width text)) : HasBlankLine text := by
  rcases has with ⟨blanks, blank, inside⟩
  have newline : Blank ['\n'] := by simp [Blank, isBlank]
  have row : Blank ('\n' :: (blanks ++ ['\n'])) := (newline.append blank).append newline
  exact ⟨blanks, blank, row_infix_of_fill row (by simp) inside⟩

/-- Refilling succeeds. Its lines begin and end with visible characters, it shows nothing just of
blanks, it puts no two blanks side by side, and it makes no blank line. -/
theorem refill_lines (text : List Char) (width : Nat) (positive : 1 ≤ width) :
    ∃ output, refill text width = .ok output ∧
      output = ['\n'].intercalate ((pack width (tokens text)).map lineText) ∧
      (∀ line ∈ pack width (tokens text), Tight (lineText line)) ∧
      (output = [] ↔ Blank text) ∧
      (∀ row, Blank row → 2 ≤ row.length → row <:+: output → row <:+: text) ∧
      (¬HasBlankLine text → ¬HasBlankLine output) := by
  refine ⟨fill width text, refill_eq text positive, rfl, fun line => tight_of_mem_pack,
    fill_eq_nil_iff, fun row => row_infix_of_fill, ?_⟩
  intro none has
  exact none (hasBlankLine_of_fill has)

/-- A code span over two lines, which is wider than a line, and text that begins with blanks. -/
theorem refill_lines_narrow :
    1 ≤ 5 ∧ ∃ output, refill "  `a\n b` cd  e\n".toList 5 = .ok output ∧
      output = ['\n'].intercalate ((pack 5 (tokens "  `a\n b` cd  e\n".toList)).map lineText) ∧
      (∀ line ∈ pack 5 (tokens "  `a\n b` cd  e\n".toList), Tight (lineText line)) ∧
      (output = [] ↔ Blank "  `a\n b` cd  e\n".toList) ∧
      (∀ row, Blank row → 2 ≤ row.length → row <:+: output →
        row <:+: "  `a\n b` cd  e\n".toList) ∧
      (¬HasBlankLine "  `a\n b` cd  e\n".toList → ¬HasBlankLine output) :=
  ⟨by decide, refill_lines "  `a\n b` cd  e\n".toList 5 (by decide)⟩

end Paragraph

end Refill
