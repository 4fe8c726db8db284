import Refill.Paragraph
import Refill.Proofs.Packing.Greedy

/-!
# Packing and the spaces that line ends stand for

A token that begins a line shows no space, whether it is spaced or not. When the text of the
lines is read again, the line end before such a token makes it spaced. This does not move it: a
spaced token needs no less room behind the line before, so what did not fit there still does not
(`Closes.space_next`), and the lines are packed again as they are (`wrapTokens_spaceStarts`).
-/

namespace Refill

open Paragraph

variable {width : Nat} {line next : List Token} {lines : List (List Token)}

/-- The lines, with the token that begins a line spaced on all of them but the first. -/
def spaceStarts : List (List Token) → List (List Token)
  | [] => []
  | first :: others => first :: others.map (withSpacing true)

/-! ## The token that begins a line -/

theorem join_withSpacing (spaced : Bool) (line : List Token) :
    Token.join (withSpacing spaced line) = Token.join line := by
  cases line <;> rfl

theorem map_text_withSpacing (spaced : Bool) (line : List Token) :
    (withSpacing spaced line).map Token.text = line.map Token.text := by
  cases line <;> rfl

theorem Packed.space (packed : Packed width line) (spaced : Bool) :
    Packed width (withSpacing spaced line) := by
  rcases List.exists_cons_of_ne_nil packed.nonempty with ⟨first, others, rfl⟩
  refine ⟨by simp [withSpacing], ?_, ?_⟩
  · intro two
    rw [join_withSpacing]
    exact packed.fits two
  · have unbroken := packed.unbroken
    cases others with
    | nil => simp [withSpacing]
    | cons second others =>
      rw [List.dropLast_cons_of_ne_nil (by simp), List.forall_mem_cons] at unbroken
      rw [withSpacing, List.dropLast_cons_of_ne_nil (by simp), List.forall_mem_cons]
      exact unbroken

/-- Whether a line closes does not depend on how its first token is spaced. -/
theorem Closes.space_line (closes : Closes width line next) (spaced : Bool) :
    Closes width (withSpacing spaced line) next := by
  cases line with
  | nil => exact closes
  | cons first others =>
    rcases closes with ⟨last, last_eq, isBreak⟩ | wide
    · left
      cases others with
      | nil =>
        cases last_eq
        exact ⟨{ first with spaced }, rfl, isBreak⟩
      | cons second others => exact ⟨last, last_eq, isBreak⟩
    · exact Or.inr wide

/-- A line that closes before a token closes before it when that is spaced, too. -/
theorem Closes.space_next (closes : Closes width line next) :
    Closes width line (withSpacing true next) := by
  rcases closes with isBreak | wide
  · exact Or.inl isBreak
  · right
    intro spacedFirst spacedFirst_eq
    cases next with
    | nil => cases spacedFirst_eq
    | cons first others =>
      cases spacedFirst_eq
      have wideFirst := wide first rfl
      cases line with
      | nil => exact wideFirst
      | cons token line =>
        rw [Token.join_concat (by simp), List.length_append] at wideFirst ⊢
        have room : first.spacedText.length ≤
            ({ first with spaced := true } : Token).spacedText.length := by
          unfold Token.spacedText
          split <;> simp
        omega

/-! ## Lines with spaced starts -/

theorem map_join_spaceStarts (lines : List (List Token)) :
    (spaceStarts lines).map Token.join = lines.map Token.join := by
  cases lines with
  | nil => rfl
  | cons first others => simp [spaceStarts, join_withSpacing, Function.comp_def]

theorem map_text_spaceStarts (lines : List (List Token)) :
    (spaceStarts lines).flatten.map Token.text = lines.flatten.map Token.text := by
  cases lines with
  | nil => rfl
  | cons first others =>
    simp [spaceStarts, List.map_flatten, map_text_withSpacing, Function.comp_def]

theorem visible_spaceStarts (visible : Visible lines.flatten) :
    Visible (spaceStarts lines).flatten := by
  intro token mem empty
  have shown : [] ∈ lines.flatten.map Token.text := by
    rw [← map_text_spaceStarts, ← empty]
    exact List.mem_map_of_mem mem
  rcases List.mem_map.mp shown with ⟨other, otherMem, other_eq⟩
  exact visible other otherMem other_eq

theorem greedy_spaceStarts (greedy : Greedy width lines) : Greedy width (spaceStarts lines) := by
  cases lines with
  | nil => exact greedy
  | cons first others =>
    rw [spaceStarts]
    constructor
    · intro spacedLine mem
      rcases List.mem_cons.mp mem with rfl | mem
      · exact greedy.head
      · rcases List.mem_map.mp mem with ⟨line, lineMem, rfl⟩
        exact (greedy.tail.packed line lineMem).space true
    · rw [List.isChain_cons, List.isChain_map]
      constructor
      · intro spacedNext mem
        rw [List.head?_map] at mem
        rcases Option.map_eq_some_iff.mp mem with ⟨next, next_eq, rfl⟩
        exact ((List.isChain_cons.mp greedy.closes).1 next next_eq).space_next
      · exact greedy.tail.closes.imp fun _ _ closes => (closes.space_line true).space_next

/-- Packing succeeds, and it shows the same again if the tokens that begin its lines are spaced,
with the same tokens on each line. -/
theorem wrapTokens_spaceStarts {tokens : List Token} (visible : Visible tokens)
    (positive : 1 ≤ width) :
    ∃ output, wrapTokens tokens width = .ok output ∧
      wrapTokens (spaceStarts (pack width tokens)).flatten width = .ok output ∧
      pack width (spaceStarts (pack width tokens)).flatten = spaceStarts (pack width tokens) := by
  have flatten_eq := flatten_pack width visible
  have shown : Visible (spaceStarts (pack width tokens)).flatten := by
    apply visible_spaceStarts
    rwa [flatten_eq]
  have again := pack_flatten shown (greedy_spaceStarts (greedy_pack width visible))
  refine ⟨layout width tokens, wrapTokens_of_pos tokens positive, ?_, again⟩
  rw [wrapTokens_of_pos _ positive, layout_eq shown, again, map_join_spaceStarts, layout_eq visible]

/-- A code span that touches a word and is wider than a line, and a break behind it. -/
theorem wrapTokens_spaceStarts_narrow :
    let tokens : List Token := [⟨.word, "ab".toList, false⟩, ⟨.atomic, "`c d`".toList, false⟩,
      ⟨.lineBreak, "<br>".toList, true⟩, ⟨.word, "e".toList, false⟩, ⟨.word, "f".toList, true⟩]
    Visible tokens ∧ 1 ≤ 4 ∧
      ∃ output, wrapTokens tokens 4 = .ok output ∧
        wrapTokens (spaceStarts (pack 4 tokens)).flatten 4 = .ok output ∧
        pack 4 (spaceStarts (pack 4 tokens)).flatten = spaceStarts (pack 4 tokens) := by
  intro tokens
  have visible : Visible tokens := by simp [Visible, tokens]
  exact ⟨visible, by decide, wrapTokens_spaceStarts visible (by decide)⟩

end Refill
