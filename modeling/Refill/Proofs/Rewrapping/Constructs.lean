import Refill.Proofs.Respacing.Stages

/-!
# Constructs of a refilled paragraph

Refilling a paragraph changes its gaps only, so its tiles are found again in what comes out,
but for the break tags that its words make there (`tiles_fill`). Code spans and destinations
of links are the same then, and no break tag is lost; this goes on however often and at
whatever widths the paragraph is refilled (`refill_constructs`).
-/

namespace Refill

open Text Tile

def Token.textsOf (kind : Token.Kind) (tokens : List Token) : List (List Char) :=
  (tokens.filter fun token => token.kind = kind).map Token.text

/-- The first text has the same code spans and destinations as the other, and all its break
tags. -/
structure Paragraph.Preserved (text other : List Char) : Prop where
  atomic : Token.textsOf .atomic (tokens other) = Token.textsOf .atomic (tokens text)
  lineBreak : (Token.textsOf .lineBreak (tokens text)).Sublist
    (Token.textsOf .lineBreak (tokens other))

namespace Paragraph.Preserved

variable {text other third : List Char}

theorem refl (text : List Char) : Preserved text text :=
  ⟨rfl, .refl _⟩

theorem trans (first : Preserved text other) (second : Preserved other third) :
    Preserved text third where
  atomic := second.atomic.trans first.atomic
  lineBreak := first.lineBreak.trans second.lineBreak

end Paragraph.Preserved

/-! ## Rereading tiles -/

section Reread

variable {kind : Token.Kind} {tiles others : List Tile}

theorem Token.textsOf_cons (kind : Token.Kind) (token : Token) (tokens : List Token) :
    textsOf kind (token :: tokens) =
      (if token.kind = kind then [token.text] else []) ++ textsOf kind tokens := by
  by_cases same : token.kind = kind
  · simp [textsOf, same]
  · simp [textsOf, same]

theorem textsOf_of_regapped (regapped : List.Forall₂ Regapped tiles others) :
    Token.textsOf kind (others.map token) = Token.textsOf kind (tiles.map token) := by
  induction regapped with
  | nil => rfl
  | @cons tile other _ _ first _ ih =>
    rw [List.map_cons, List.map_cons, Token.textsOf_cons, Token.textsOf_cons, ih]
    by_cases same : tile.kind = kind
    · simp [token, first.kind, first.text, same]
    · simp [token, first.kind, same]

/-- Two words that make a tag leave nothing else but words. -/
theorem textsOf_attach (tile : Tile) (tiles : List Tile) :
    Token.textsOf .atomic ((tile.attach tiles).map token) =
        Token.textsOf .atomic ((tile :: tiles).map token) ∧
      (Token.textsOf .lineBreak ((tile :: tiles).map token)).Sublist
        (Token.textsOf .lineBreak ((tile.attach tiles).map token)) := by
  cases tiles with
  | nil => exact ⟨rfl, .refl _⟩
  | cons next rest =>
    by_cases merges : tile.Merges next
    · rw [attach, if_pos merges, merge]
      constructor
      · split <;> split <;> simp [Token.textsOf, token, merges.kind, merges.next_kind]
      · split <;> split <;> simp [Token.textsOf, token, merges.kind, merges.next_kind]
    · rw [attach, if_neg merges]
      exact ⟨rfl, .refl _⟩

theorem textsOf_reread (tiles : List Tile) :
    Token.textsOf .atomic ((reread tiles).map token) = Token.textsOf .atomic (tiles.map token) ∧
      (Token.textsOf .lineBreak (tiles.map token)).Sublist
        (Token.textsOf .lineBreak ((reread tiles).map token)) := by
  induction tiles with
  | nil => exact ⟨rfl, .refl _⟩
  | cons tile tiles ih =>
    rcases textsOf_attach tile (reread tiles) with ⟨atomic, lineBreak⟩
    rw [reread_cons]
    rw [List.map_cons, Token.textsOf_cons] at atomic lineBreak
    rw [List.map_cons, Token.textsOf_cons, Token.textsOf_cons]
    exact ⟨atomic.trans (congrArg _ ih.1), (ih.2.append_left _).trans lineBreak⟩

end Reread

/-! ## Refilling -/

namespace Paragraph

variable {text : List Char}

/-- The lines of a paragraph, and the tiles of what they show. -/
theorem tiles_fill (text : List Char) (width : Nat) :
    ∃ lines : List (List Tile), lines.flatten = tiles text ∧
      pack width (tokens text) = lines.map (List.map token) ∧
      (∀ line ∈ lines, line ≠ []) ∧ List.Forall₂ Regapped (tiles text) (relay lines) ∧
      fill width text = weave (relay lines) ∧ tiles (fill width text) = reread (relay lines) := by
  rcases layout_tiles text width with ⟨lines, lines_eq, pack_eq, nonempty, regapped, fill_eq⟩
  refine ⟨lines, lines_eq, pack_eq, nonempty, regapped, fill_eq, ?_⟩
  rw [fill_eq]
  apply tiles_weave regapped
  intro tile head_eq
  apply head_gap_relay nonempty
  rw [List.head?_map, head_eq]
  rfl

/-- One width preserves the constructs. -/
theorem preserved_fill (text : List Char) (width : Nat) : Preserved text (fill width text) := by
  rcases tiles_fill text width with ⟨lines, _, _, _, regapped, _, tiles_eq⟩
  rcases textsOf_reread (relay lines) with ⟨atomic, lineBreak⟩
  rw [← tiles_eq, map_token_tiles, textsOf_of_regapped regapped, map_token_tiles]
    at atomic lineBreak
  exact ⟨atomic, lineBreak⟩

/-- Refilling a paragraph at one width after the other succeeds. It preserves the texts of its code
spans and of the destinations of its links, and it loses no break tag. -/
theorem refill_constructs (text : List Char) (widths : List Nat)
    (positive : ∀ width ∈ widths, 1 ≤ width) :
    ∃ output, widths.foldlM refill text = .ok output ∧
      Token.textsOf .atomic (tokens output) = Token.textsOf .atomic (tokens text) ∧
      (Token.textsOf .lineBreak (tokens text)).Sublist
        (Token.textsOf .lineBreak (tokens output)) := by
  suffices ∃ output, widths.foldlM refill text = .ok output ∧ Preserved text output by
    rcases this with ⟨output, output_eq, preserved⟩
    exact ⟨output, output_eq, preserved.atomic, preserved.lineBreak⟩
  induction widths generalizing text with
  | nil => exact ⟨text, rfl, .refl text⟩
  | cons width widths ih =>
    rw [List.forall_mem_cons] at positive
    rcases ih (fill width text) positive.2 with ⟨output, output_eq, preserved⟩
    refine ⟨output, ?_, (preserved_fill text width).trans preserved⟩
    rw [List.foldlM_cons, refill_eq text positive.1]
    exact output_eq

/-- A paragraph with a link, a code span and a tag that its words make. -/
theorem refill_constructs_twice :
    (∀ width ∈ [80, 3], 1 ≤ width) ∧
      ∃ output, [80, 3].foldlM refill "[a b](  c) `d  e`, <br>f <br\n/>".toList = .ok output ∧
        Token.textsOf .atomic (tokens output) =
          Token.textsOf .atomic (tokens "[a b](  c) `d  e`, <br>f <br\n/>".toList) ∧
        (Token.textsOf .lineBreak (tokens "[a b](  c) `d  e`, <br>f <br\n/>".toList)).Sublist
          (Token.textsOf .lineBreak (tokens output)) :=
  ⟨by decide, refill_constructs "[a b](  c) `d  e`, <br>f <br\n/>".toList [80, 3] (by decide)⟩

end Paragraph

end Refill
