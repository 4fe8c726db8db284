import Refill.Proofs.Packing.Greedy
import Refill.Proofs.Packing.Layout

/-!
# Characters that stay together

Two visible characters with no blank between them belong to one token, or to two tokens that
touch (`exists_tile`). A layout keeps the characters of a token together, and it parts tokens
that touch only where a line ends (`exists_laid`). So a paragraph is never parted inside a word,
a code span, a destination or a tag, and between two of these it is parted by a newline only,
which stands there because the first one is a break tag or because the second one does not fit
(`refill_together`).
-/

namespace Refill

open Text Tile

/-! ## Where two characters stand -/

section Places

variable {first second : Char} {front back tail : List Char} {tiles : List Tile}

/-- A visible character that comes after blanks comes behind all of them. -/
theorem exists_behind_blank {blanks rest : List Char} (blank : Blank blanks)
    (visible : isVisible first) (text_eq : blanks ++ rest = front ++ first :: back) :
    ∃ later, front = blanks ++ later ∧ rest = later ++ first :: back := by
  apply blank.exists_behind _ text_eq
  simpa [startsBlank, isVisible] using visible

/-- What two neighbouring characters of a text are part of. -/
inductive Places (first second : Char) (front : List Char) : List Tile → Prop
  /-- They belong to one token. -/
  | inside {earlier later : List Tile} {tile : Tile} {left right : List Char}
      (text_eq : tile.text = left ++ first :: second :: right)
      (front_eq : front = weave earlier ++ (tile.gap ++ left)) :
      Places first second front (earlier ++ tile :: later)
  /-- They belong to two tokens that touch. -/
  | between {earlier later : List Tile} {tile next : Tile} {left right : List Char}
      (text_eq : tile.text = left ++ [first]) (next_eq : next.text = second :: right)
      (gap_eq : next.gap = []) (front_eq : front = weave earlier ++ (tile.gap ++ left)) :
      Places first second front (earlier ++ tile :: next :: later)

theorem Places.cons (tile : Tile) (places : Places first second front tiles) :
    Places first second (tile.gap ++ (tile.text ++ front)) (tile :: tiles) := by
  cases places with
  | @inside earlier later other left right text_eq front_eq =>
    rw [← List.cons_append]
    apply Places.inside text_eq
    simp [front_eq]
  | @between earlier later other next left right text_eq next_eq gap_eq front_eq =>
    rw [← List.cons_append]
    apply Places.between text_eq next_eq gap_eq
    simp [front_eq]

/-- Where a visible character stands at the front of tiles, the first token begins with it. -/
theorem exists_head_of_weave (sound : ∀ tile ∈ tiles, tile.Sound) (blank : Blank tail)
    (visible : isVisible second) (text_eq : weave tiles ++ tail = second :: back) :
    ∃ next later right, tiles = next :: later ∧ next.gap = [] ∧ next.text = second :: right := by
  cases tiles with
  | nil =>
    have isBlank_second := blank second (by simp [show tail = second :: back from text_eq])
    simp [isVisible, isBlank_second] at visible
  | cons next later =>
    have nextSound := sound next (by simp)
    rw [weave_cons, List.append_assoc] at text_eq
    rcases exists_behind_blank nextSound.gap visible (text_eq.trans (List.nil_append _).symm) with
      ⟨rest, nothing, rest_eq⟩
    rcases List.append_eq_nil_iff.mp nothing.symm with ⟨gap_eq, rfl⟩
    rcases List.exists_cons_of_ne_nil nextSound.text.nonempty with ⟨c, right, next_eq⟩
    rw [next_eq, List.append_assoc] at rest_eq
    have same : c = second := (List.cons.inj rest_eq).1
    exact ⟨next, later, right, rfl, gap_eq, by rw [next_eq, same]⟩

/-- Two visible characters side by side belong to one token, or to two tokens that touch. -/
theorem exists_tile (sound : ∀ tile ∈ tiles, tile.Sound) (blank : Blank tail)
    (visible : isVisible first) (nextVisible : isVisible second)
    (text_eq : weave tiles ++ tail = front ++ first :: second :: back) :
    Places first second front tiles := by
  induction tiles generalizing front with
  | nil =>
    have isBlank_first := blank first (by simp [show tail = _ from text_eq])
    simp [isVisible, isBlank_first] at visible
  | cons tile tiles ih =>
    rw [List.forall_mem_cons] at sound
    rw [weave_cons, List.append_assoc, List.append_assoc] at text_eq
    rcases exists_behind_blank sound.1.gap visible text_eq with ⟨left, rfl, rest_eq⟩
    rcases List.append_eq_append_iff.mp rest_eq with
      ⟨behind, rfl, later_eq⟩ | ⟨inner, tile_eq, inner_eq⟩
    · exact (ih sound.2 later_eq).cons tile
    · rcases inner with _ | ⟨c, _ | ⟨d, right⟩⟩
      · rw [List.append_nil] at tile_eq
        have later_eq : weave tiles ++ tail = [] ++ first :: second :: back := inner_eq.symm
        simpa [tile_eq] using (ih sound.2 later_eq).cons tile
      · rw [List.cons_append, List.nil_append, List.cons.injEq] at inner_eq
        rcases exists_head_of_weave sound.2 blank nextVisible inner_eq.2.symm with
          ⟨next, others, right, rfl, gap_eq, next_eq⟩
        have text_eq : tile.text = left ++ [first] := by rw [tile_eq, inner_eq.1]
        rw [← List.nil_append (tile :: next :: others)]
        apply Places.between text_eq next_eq gap_eq
        rfl
      · rw [List.cons_append, List.cons_append, List.cons.injEq, List.cons.injEq] at inner_eq
        have text_eq : tile.text = left ++ first :: second :: right := by
          rw [tile_eq, inner_eq.1, inner_eq.2.1]
        rw [← List.nil_append (tile :: tiles)]
        apply Places.inside text_eq
        rfl

end Places

/-! ## Seams of a layout -/

section Relay

variable {lines others : List (List Tile)} {line rest : List Tile}

theorem map_text_withGap_tidy (gap : List Char) (line : List Tile) :
    (withGap gap (line.map tidy)).map Tile.text = line.map Tile.text := by
  cases line with
  | nil => rfl
  | cons tile line => simp [tidy]

theorem map_text_later (lines : List (List Tile)) :
    (lines.flatMap fun other => withGap ['\n'] (other.map tidy)).map Tile.text =
      lines.flatten.map Tile.text := by
  induction lines with
  | nil => rfl
  | cons line lines ih =>
    rw [List.flatMap_cons, List.map_append, map_text_withGap_tidy, ih, List.flatten_cons,
      List.map_append]

theorem map_text_relay (lines : List (List Tile)) :
    (relay lines).map Tile.text = lines.flatten.map Tile.text := by
  cases lines with
  | nil => rfl
  | cons line lines =>
    rw [relay, List.map_append, map_text_withGap_tidy, map_text_later, List.flatten_cons,
      List.map_append]

theorem relay_append (nonempty : lines ≠ []) (others : List (List Tile)) :
    relay (lines ++ others) =
      relay lines ++ others.flatMap fun other => withGap ['\n'] (other.map tidy) := by
  cases lines with
  | nil => exact absurd rfl nonempty
  | cons line lines => simp [relay]

/-- A line that goes on does so with the tidy gaps of its tiles. -/
theorem relay_cut (nonempty : line ≠ []) (rest : List Tile) :
    relay (lines ++ (line ++ rest) :: others) = relay (lines ++ [line]) ++
      (rest.map tidy ++ others.flatMap fun other => withGap ['\n'] (other.map tidy)) := by
  rcases List.exists_cons_of_ne_nil nonempty with ⟨tile, line, rfl⟩
  cases lines with
  | nil => simp [relay]
  | cons first lines => simp [relay]

theorem exists_last_line {earlier : List Tile} {tile : Tile} (nonempty : ∀ line ∈ lines, line ≠ [])
    (flatten_eq : lines.flatten = earlier ++ [tile]) :
    ∃ front line, lines = front ++ [line ++ [tile]] ∧ front.flatten ++ line = earlier := by
  rcases List.eq_nil_or_concat' lines with rfl | ⟨front, last, rfl⟩
  · simp at flatten_eq
  · rcases List.eq_nil_or_concat' last with rfl | ⟨line, other, rfl⟩
    · exact absurd rfl (nonempty [] (by simp))
    · rw [List.flatten_append, List.flatten_singleton, ← List.append_assoc] at flatten_eq
      rcases List.append_inj' flatten_eq rfl with ⟨earlier_eq, same⟩
      cases same
      exact ⟨front, line, rfl, earlier_eq⟩

/-- What a layout puts before the tile, where the others with the tiles around it are in lines. -/
structure Seam.Laid (lines : List (List Tile)) (earlier : List Tile) (tile next : Tile)
    (later : List Tile) (left : List Tile) (gap : List Char) (right : List Tile) : Prop where
  relay_eq : relay lines = left ++ { next with gap } :: right
  left_texts : left.map Tile.text = (earlier ++ [tile]).map Tile.text
  right_texts : right.map Tile.text = later.map Tile.text

/-- Before a tile that begins a line, a layout has a newline. -/
theorem laid_of_begins {front : List (List Tile)} {earlier : List Tile} {tile : Tile}
    (next : Tile) (rest : List Tile) (back : List (List Tile))
    (front_eq : front.flatten = earlier ++ [tile]) :
    ∃ left right, Seam.Laid (front ++ (next :: rest) :: back) earlier tile next
      (rest ++ back.flatten) left ['\n'] right := by
  have begun : front ≠ [] := by
    rintro rfl
    simp at front_eq
  refine ⟨relay front,
    rest.map tidy ++ back.flatMap fun other => withGap ['\n'] (other.map tidy), ?_, ?_, ?_⟩
  · rw [relay_append begun]
    rfl
  · rw [map_text_relay, front_eq]
  · rw [List.map_append, map_text_later, List.map_append, List.map_map]
    rfl

/-- Before a tile that stands behind others on its line, a layout has the tidy gap. -/
theorem laid_of_behind {front : List (List Tile)} {earlier : List Tile} {tile : Tile}
    (next : Tile) (rest : List Tile) (back : List (List Tile))
    (begun : line ≠ []) (earlier_eq : front.flatten ++ line = earlier ++ [tile]) :
    ∃ left right, Seam.Laid (front ++ (line ++ next :: rest) :: back) earlier tile next
      (rest ++ back.flatten) left next.tidyGap right := by
  refine ⟨relay (front ++ [line]),
    rest.map tidy ++ back.flatMap fun other => withGap ['\n'] (other.map tidy), ?_, ?_, ?_⟩
  · rw [relay_cut begun]
    rfl
  · rw [map_text_relay, ← earlier_eq]
    simp
  · rw [List.map_append, map_text_later, List.map_append, List.map_map]
    rfl

/-- Between two tiles a layout has the tidy gap of the second one, or a line ends there. -/
theorem exists_laid {earlier later : List Tile} {tile next : Tile}
    (nonempty : ∀ line ∈ lines, line ≠ [])
    (flatten_eq : lines.flatten = (earlier ++ [tile]) ++ next :: later) :
    ∃ left gap right, Seam.Laid lines earlier tile next later left gap right ∧
      (gap = next.tidyGap ∨ gap = ['\n'] ∧ ∃ front line rest back,
        lines = front ++ (line ++ [tile]) :: (next :: rest) :: back ∧
          front.flatten ++ line = earlier) := by
  have ends : ∀ {front back : List (List Tile)} {rest : List Tile},
      lines = front ++ (next :: rest) :: back → front.flatten = earlier ++ [tile] →
      later = rest ++ back.flatten → ∃ left gap right,
        Seam.Laid lines earlier tile next later left gap right ∧
          (gap = next.tidyGap ∨ gap = ['\n'] ∧ ∃ front line rest back,
            lines = front ++ (line ++ [tile]) :: (next :: rest) :: back ∧
              front.flatten ++ line = earlier) := by
    rintro front back rest rfl front_eq rfl
    have frontLines : ∀ line ∈ front, line ≠ [] := fun line mem => nonempty line (by simp [mem])
    rcases exists_last_line frontLines front_eq with ⟨lines, line, rfl, earlier_eq⟩
    rcases laid_of_begins next rest back front_eq with
      ⟨left, right, laid⟩
    exact ⟨left, ['\n'], right, laid, Or.inr ⟨rfl, lines, line, rest, back, by simp, earlier_eq⟩⟩
  rcases List.flatten_eq_append_iff.mp flatten_eq with
    ⟨front, back, rfl, front_eq, back_eq⟩ | ⟨front, line, c, rest, back, rfl, earlier_eq, rest_eq⟩
  · rcases back with _ | ⟨following, back⟩
    · cases back_eq
    · rcases List.exists_cons_of_ne_nil (nonempty following (by simp)) with ⟨c, rest, rfl⟩
      rw [List.flatten_cons, List.cons_append, List.cons.injEq] at back_eq
      rcases back_eq with ⟨rfl, later_eq⟩
      exact ends rfl front_eq.symm later_eq
  · rw [List.cons_append, List.cons.injEq] at rest_eq
    rcases rest_eq with ⟨rfl, later_eq⟩
    by_cases begun : line = []
    · subst begun
      rw [List.append_nil] at earlier_eq
      exact ends rfl earlier_eq.symm later_eq
    · subst later_eq
      rcases laid_of_behind next rest back begun earlier_eq.symm with
        ⟨left, right, laid⟩
      exact ⟨left, next.tidyGap, right, laid, Or.inl rfl⟩

end Relay

/-! ## What a refilled paragraph keeps together -/

namespace Paragraph

variable {text front back : List Char} {first second : Char} {width : Nat}

/-- The two characters stand in the text with the gap between them and these visible characters
around them. -/
def Stands (text before : List Char) (first : Char) (gap : List Char) (second : Char)
    (behind : List Char) : Prop :=
  ∃ front back, text = front ++ first :: (gap ++ second :: back) ∧
    front.filter isVisible = before.filter isVisible ∧
    back.filter isVisible = behind.filter isVisible

/-- Behind these characters of the text a line ends, between two tokens that touch: the first one
is a break tag, or the second one does not fit the line. -/
inductive PartsBehind (width : Nat) (text before : List Char) : Prop
  | intro {front back : List (List Tile)} {line rest : List Tile} {tile next : Tile}
      (pack_eq : pack width (tokens text) =
        (front ++ (line ++ [tile]) :: (next :: rest) :: back).map (List.map token))
      (tiles_eq : tiles text = (front.flatten ++ line) ++ tile :: next :: (rest ++ back.flatten))
      (before_eq : before = leading text ++ weave (front.flatten ++ line ++ [tile]))
      (touches : next.gap = [])
      (closes : tile.kind = .lineBreak ∨
        width < (Token.join ((line ++ [tile, next]).map token)).length)

/-- Behind these characters of the text stands the destination of a link, or they end with a break
tag, or one comes next. -/
def MeetsLinkOrTag (text before : List Char) : Prop :=
  ∃ front tile next back, tiles text = front ++ tile :: next :: back ∧
    before = leading text ++ weave (front ++ [tile]) ∧
    (next.isDestination ∨ tile.kind = .lineBreak ∨ next.kind = .lineBreak)

/-- What stands in a text after its leading blanks, up to the characters and behind them. -/
theorem exists_places (text_eq : text = front ++ first :: second :: back)
    (visible : isVisible first) (nextVisible : isVisible second) :
    ∃ later, front = leading text ++ later ∧
      weave (tiles text) ++ trailing text = later ++ first :: second :: back ∧
      Places first second later (tiles text) := by
  have tiling := tiling_tiles text
  have whole := tiling.text_eq.trans text_eq
  rw [List.append_assoc] at whole
  rcases exists_behind_blank tiling.blank.1 visible whole with ⟨later, front_eq, later_eq⟩
  exact ⟨later, front_eq, later_eq,
    exists_tile (tiles_trim text).sound tiling.blank.2.1 visible nextVisible later_eq⟩

/-- A layout shows the characters of a token as they are. -/
theorem stands_inside {lines : List (List Tile)} {earlier later : List Tile} {tile : Tile}
    {left right : List Char} (lines_eq : lines.flatten = earlier ++ tile :: later)
    (tile_eq : tile.text = left ++ first :: second :: right) :
    ∃ before behind, weave (relay lines) = before ++ first :: second :: behind ∧
      before.filter isVisible = (earlier.map Tile.text).flatten.filter isVisible ++
        left.filter isVisible ∧
      behind.filter isVisible = right.filter isVisible ++
        (later.map Tile.text).flatten.filter isVisible := by
  have texts := map_text_relay lines
  have blank : ∀ other ∈ relay lines, Blank other.gap := fun _ mem => blank_of_mem_relay mem
  rw [lines_eq, List.map_append, List.map_cons] at texts
  rcases List.map_eq_append_iff.mp texts with ⟨front, rest, relay_eq, front_texts, rest_texts⟩
  rcases List.map_eq_cons_iff.mp rest_texts with ⟨other, back, rfl, other_eq, back_texts⟩
  rw [relay_eq] at blank ⊢
  refine ⟨weave front ++ (other.gap ++ left), right ++ weave back, ?_, ?_, ?_⟩
  · simp [other_eq, tile_eq]
  · have frontBlank : ∀ tile ∈ front, Blank tile.gap := fun tile mem => blank tile (by simp [mem])
    rw [List.filter_append, List.filter_append, filter_weave frontBlank, front_texts,
      filter_of_blank (blank other (by simp)), List.nil_append]
  · have backBlank : ∀ tile ∈ back, Blank tile.gap := fun tile mem => blank tile (by simp [mem])
    rw [List.filter_append, filter_weave backBlank, back_texts]

/-- A layout shows the last character of a token and the first one of the next with a gap between
them, which is that of the layout. -/
theorem stands_between {lines : List (List Tile)} {earlier later left right : List Tile}
    {tile next : Tile} {gap front back : List Char}
    (laid : Seam.Laid lines earlier tile next later left gap right)
    (tile_eq : tile.text = front ++ [first]) (next_eq : next.text = second :: back) :
    ∃ before behind, weave (relay lines) = before ++ first :: (gap ++ second :: behind) ∧
      before.filter isVisible = (earlier.map Tile.text).flatten.filter isVisible ++
        front.filter isVisible ∧
      behind.filter isVisible = back.filter isVisible ++
        (later.map Tile.text).flatten.filter isVisible := by
  have blank : ∀ other ∈ relay lines, Blank other.gap := fun _ mem => blank_of_mem_relay mem
  have left_texts := laid.left_texts
  rw [List.map_append, List.map_singleton] at left_texts
  rcases List.map_eq_append_iff.mp left_texts with ⟨begin, rest, left_eq, begin_texts, rest_texts⟩
  rcases List.map_eq_singleton_iff.mp rest_texts with ⟨other, rfl, other_eq⟩
  rw [laid.relay_eq, left_eq] at blank ⊢
  refine ⟨weave begin ++ (other.gap ++ front), back ++ weave right, ?_, ?_, ?_⟩
  · simp [other_eq, tile_eq, next_eq]
  · have beginBlank : ∀ tile ∈ begin, Blank tile.gap := fun tile mem => blank tile (by simp [mem])
    rw [List.filter_append, List.filter_append, filter_weave beginBlank, begin_texts,
      filter_of_blank (blank other (by simp)), List.nil_append]
  · have backBlank : ∀ tile ∈ right, Blank tile.gap := fun tile mem => blank tile (by simp [mem])
    rw [List.filter_append, filter_weave backBlank, laid.right_texts]

theorem filter_before {earlier : List Tile} {gap left : List Char} (blank : Blank gap)
    (gaps : ∀ tile ∈ earlier, Blank tile.gap) :
    (leading text ++ (weave earlier ++ (gap ++ left))).filter isVisible =
      (earlier.map Tile.text).flatten.filter isVisible ++ left.filter isVisible := by
  simp only [List.filter_append, filter_weave gaps, filter_of_blank blank,
    filter_of_blank (blank_leading text), List.nil_append]

theorem filter_behind {later : List Tile} {right : List Char}
    (gaps : ∀ tile ∈ later, Blank tile.gap) :
    (right ++ (weave later ++ trailing text)).filter isVisible =
      right.filter isVisible ++ (later.map Tile.text).flatten.filter isVisible := by
  simp only [List.filter_append, filter_weave gaps, filter_of_blank (blank_trailing text),
    List.append_nil]

/-- A line ends with a break tag, or the first token of the next line does not fit it. -/
theorem closes_of_pack {lines others : List (List Tile)} {line rest : List Tile} {tile next : Tile}
    (pack_eq : pack width (tokens text) =
      (lines ++ (line ++ [tile]) :: (next :: rest) :: others).map (List.map token)) :
    tile.kind = .lineBreak ∨ width < (Token.join ((line ++ [tile, next]).map token)).length := by
  have closes := (greedy_pack width (visible_tokens text)).closes
  rw [pack_eq, List.map_append, List.map_cons, List.map_cons] at closes
  rcases (List.isChain_append_cons_cons.mp closes).2.1 with ⟨last, last_eq, isBreak⟩ | wide
  · left
    rw [List.map_append, List.map_singleton, List.getLast?_concat, Option.some.injEq] at last_eq
    subst last_eq
    simpa [Token.isLineBreak, token] using isBreak
  · right
    simpa using wide next.token rfl

/-- Two neighbouring visible characters of a paragraph stay together, or a line ends between two
tokens that touch. -/
theorem refill_together (positive : 1 ≤ width) (text_eq : text = front ++ first :: second :: back)
    (visible : isVisible first) (nextVisible : isVisible second) :
    ∃ output, refill text width = .ok output ∧
      (Stands output front first [] second back ∨
        Stands output front first ['\n'] second back ∧
          PartsBehind width text (front ++ [first])) := by
  rcases layout_tiles text width with ⟨lines, lines_eq, pack_eq, nonempty, _, fill_eq⟩
  refine ⟨fill width text, refill_eq text positive, ?_⟩
  rcases exists_places text_eq visible nextVisible with ⟨later, front_eq, rest_eq, places⟩
  have gaps := (tiling_tiles text).blank.2.2
  rw [fill_eq]
  generalize all_eq : tiles text = all at places
  rw [all_eq] at gaps rest_eq lines_eq
  cases places with
  | @inside earlier behind tile left right tile_eq later_eq =>
    rw [List.forall_mem_append, List.forall_mem_cons] at gaps
    have back_eq : back = right ++ (weave behind ++ trailing text) := by
      simpa [tile_eq, later_eq] using rest_eq.symm
    rcases stands_inside lines_eq tile_eq with ⟨before, rest, shown_eq, before_eq, behind_eq⟩
    refine Or.inl ⟨before, rest, shown_eq, ?_, ?_⟩
    · rw [front_eq, later_eq, filter_before gaps.2.1 gaps.1, before_eq]
    · rw [back_eq, filter_behind gaps.2.2, behind_eq]
  | @between earlier behind tile next left right tile_eq next_eq gap_eq later_eq =>
    rw [List.forall_mem_append, List.forall_mem_cons, List.forall_mem_cons] at gaps
    have back_eq : back = right ++ (weave behind ++ trailing text) := by
      simpa [tile_eq, next_eq, gap_eq, later_eq] using rest_eq.symm
    have flatten_eq : lines.flatten = (earlier ++ [tile]) ++ next :: behind := by
      rw [lines_eq, List.append_assoc, List.singleton_append]
    rcases exists_laid nonempty flatten_eq with ⟨onLeft, gap, onRight, laid, ends⟩
    rcases stands_between laid tile_eq next_eq with ⟨before, rest, shown_eq, before_eq, behind_eq⟩
    have stands : Stands (weave (relay lines)) front first gap second back := by
      refine ⟨before, rest, shown_eq, ?_, ?_⟩
      · rw [front_eq, later_eq, filter_before gaps.2.1 gaps.1, before_eq]
      · rw [back_eq, filter_behind gaps.2.2.2, behind_eq]
    rcases ends with rfl | ⟨rfl, lines_front, line, more, others, rfl, earlier_eq⟩
    · left
      simpa [tidyGap, isSpaced, gap_eq] using stands
    · refine Or.inr ⟨stands, .intro pack_eq ?_ ?_ gap_eq (closes_of_pack pack_eq)⟩
      · rw [all_eq, ← lines_eq]
        simp
      · rw [front_eq, later_eq, earlier_eq]
        simp [tile_eq]

/-- A word and a code span that it touches, on lines that are too narrow for both. -/
theorem refill_together_narrow :
    1 ≤ 4 ∧ "foo`code`".toList = "fo".toList ++ 'o' :: '`' :: "code`".toList ∧ isVisible 'o' ∧
      isVisible '`' ∧ ∃ output, refill "foo`code`".toList 4 = .ok output ∧
        (Stands output "fo".toList 'o' [] '`' "code`".toList ∨
          Stands output "fo".toList 'o' ['\n'] '`' "code`".toList ∧
            PartsBehind 4 "foo`code`".toList ("fo".toList ++ ['o'])) := by
  have text_eq : "foo`code`".toList = "fo".toList ++ 'o' :: '`' :: "code`".toList := by
    decide
  have visible : isVisible 'o' := by decide
  have nextVisible : isVisible '`' := by decide
  exact ⟨by decide, text_eq, visible, nextVisible,
    refill_together (by decide) text_eq visible nextVisible⟩

/-- There is a word that is parted from a code span it touches. -/
theorem refill_parts_word :
    ¬∀ (text front back : List Char) (first second : Char) (width : Nat), 1 ≤ width →
      text = front ++ first :: second :: back → isVisible first → isVisible second →
        ¬MeetsLinkOrTag text (front ++ [first]) →
          ∃ output, refill text width = .ok output ∧ Stands output front first [] second back := by
  intro together
  have tiles_eq : tiles "foo`code`".toList =
      [⟨[], .word, "foo".toList, false⟩, ⟨[], .atomic, "`code`".toList, false⟩] := by
    decide +kernel
  have plain : ¬MeetsLinkOrTag "foo`code`".toList ("fo".toList ++ ['o']) := by
    rintro ⟨front, tile, next, back, all_eq, _, meets⟩
    have inner : ∀ other ∈ tiles "foo`code`".toList,
        other.isDestination = false ∧ other.kind ≠ .lineBreak := by
      rw [tiles_eq]
      decide
    rw [all_eq] at inner
    rcases meets with meets | meets | meets
    · simp [(inner next (by simp)).1] at meets
    · exact (inner tile (by simp)).2 meets
    · exact (inner next (by simp)).2 meets
  have filled : fill 4 "foo`code`".toList = "foo\n`code`".toList := by decide +kernel
  have text_eq : "foo`code`".toList = "fo".toList ++ 'o' :: '`' :: "code`".toList := by decide
  have parted : ¬['o', '`'] <:+: "foo\n`code`".toList := by decide +kernel
  rcases together _ _ _ 'o' '`' 4 (by decide) text_eq (by decide) (by decide) plain with
    ⟨output, output_eq, before, behind, shown_eq, _, _⟩
  rw [refill_eq _ (by decide), filled, Except.ok.injEq] at output_eq
  apply parted
  rw [output_eq, shown_eq]
  exact ⟨before, behind, by simp⟩

end Paragraph

end Refill
