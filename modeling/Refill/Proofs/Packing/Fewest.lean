import Refill.Proofs.Packing.Greedy

/-!
# The fewest lines

Packing needs no more lines than any other way to put the tokens on lines that fit
(`pack_fewest`). The argument is that greedy lines stay ahead: what a rival's line holds
behind the tokens that are already on greedy lines fits a line by itself, so the next greedy
line holds it too (`exists_append_of_ahead`). Hence each greedy line ends no earlier than the
rival's line with the same number.
-/

namespace Refill

variable {width : Nat} {tokens line more : List Token}

/-- The lines hold the tokens in order, and each is packed. A break at the very end of the tokens
ends its line in any case. -/
structure Admissible (width : Nat) (tokens : List Token) (lines : List (List Token)) : Prop where
  flatten_eq : lines.flatten = tokens
  packed : ∀ line ∈ lines, Packed width line

/-! ## Parts of a packed line -/

/-- What stands at the end of a line takes no more room when it begins a line. -/
theorem Token.length_join_append_right (front : List Token) :
    (join line).length ≤ (join (front ++ line)).length := by
  cases front with
  | nil => exact Nat.le_refl _
  | cons first others =>
    cases line with
    | nil => simp [join]
    | cons token line =>
      have text_le : token.text.length ≤ token.spacedText.length := by
        unfold spacedText
        split <;> simp
      simp only [join, List.cons_append, List.flatMap_append, List.flatMap_cons, List.length_append]
      omega

theorem Packed.mono {wider : Nat} (packed : Packed width line) (le : width ≤ wider) :
    Packed wider line where
  nonempty := packed.nonempty
  fits two := Nat.le_trans (packed.fits two) le
  unbroken := packed.unbroken

/-- A line that closes before a token has no such token behind it in a packed line. -/
theorem Packed.not_closes {front : List Token} {token : Token}
    (packed : Packed width (front ++ line ++ token :: more)) (nonempty : line ≠ []) :
    ¬Closes width line (token :: more) := by
  rintro (⟨last, last_eq, isBreak⟩ | wide)
  · have last_mem : last ∈ (front ++ line ++ token :: more).dropLast := by
      rw [List.dropLast_append_of_ne_nil (List.cons_ne_nil token more)]
      apply List.mem_append_left
      apply List.mem_append_right
      exact List.mem_of_getLast? last_eq
    have goesOn := packed.unbroken last last_mem
    rw [isBreak] at goesOn
    cases goesOn
  · have positive := List.length_pos_iff.mpr nonempty
    have fits := packed.fits (by simp only [List.length_append, List.length_cons]; omega)
    have too_wide := wide token rfl
    have shorter : (Token.join (line ++ [token])).length ≤
        (Token.join (line ++ [token] ++ more)).length := Token.length_join_append _ _
    have inside : (Token.join (line ++ [token] ++ more)).length ≤
        (Token.join (front ++ (line ++ [token] ++ more))).length :=
      Token.length_join_append_right front
    have whole_eq : front ++ (line ++ [token] ++ more) = front ++ line ++ token :: more := by simp
    rw [whole_eq] at inside
    omega

/-! ## Staying ahead -/

/-- A line that closes before the rest holds all that a rival's line has behind the tokens before
it. -/
theorem exists_append_of_ahead {ahead rest behind : List Token} (nonempty : line ≠ [])
    (closes : Closes width line rest) (packed : Packed width (ahead ++ more))
    (same : line ++ rest = more ++ behind) :
    ∃ extra, line = more ++ extra ∧ behind = extra ++ rest := by
  rcases List.append_eq_append_iff.mp same with ⟨left, more_eq, rest_eq⟩ | reaches
  · cases left with
    | nil => exact ⟨[], by simpa using more_eq.symm, by simpa using rest_eq.symm⟩
    | cons token left =>
      -- The rival's line goes on behind the end of the other line.
      exfalso
      rw [more_eq, ← List.append_assoc] at packed
      apply packed.not_closes nonempty
      rw [rest_eq] at closes
      exact closes
  · exact reaches

/-- Lines that begin behind those of a rival, and hold as much as they can, are no more than the
rival's. -/
theorem length_le_of_ahead {lines others : List (List Token)} {ahead : List Token}
    (greedy : Greedy width lines) (packed : ∀ other ∈ others, Packed width other)
    (flatten_eq : others.flatten = ahead ++ lines.flatten) : lines.length ≤ others.length := by
  -- The tokens ahead are those on greedy lines that the rival has not reached yet.
  induction others generalizing lines ahead with
  | nil =>
    cases lines with
    | nil => exact Nat.le_refl _
    | cons line lines =>
      have empty := (List.append_eq_nil_iff.mp flatten_eq.symm).2
      rw [List.flatten_cons] at empty
      exact absurd (List.append_eq_nil_iff.mp empty).1 greedy.head.nonempty
  | cons other others ih =>
    rw [List.forall_mem_cons] at packed
    rw [List.flatten_cons] at flatten_eq
    rcases List.append_eq_append_iff.mp flatten_eq with
      ⟨left, _, others_eq⟩ | ⟨more, rfl, lines_eq⟩
    · have fewer := ih greedy packed.2 others_eq
      exact Nat.le_succ_of_le fewer
    · cases lines with
      | nil => exact Nat.zero_le _
      | cons line lines =>
        rw [List.flatten_cons] at lines_eq
        rcases exists_append_of_ahead greedy.head.nonempty greedy.closes_flatten packed.1
          lines_eq with ⟨extra, _, others_eq⟩
        have fewer := ih greedy.tail packed.2 others_eq
        exact Nat.succ_le_succ fewer

theorem admissible_pack (visible : Visible tokens) :
    Admissible width tokens (pack width tokens) where
  flatten_eq := flatten_pack width visible
  packed := (greedy_pack width visible).packed

theorem Admissible.mono {wider : Nat} {lines : List (List Token)}
    (admissible : Admissible width tokens lines) (le : width ≤ wider) :
    Admissible wider tokens lines where
  flatten_eq := admissible.flatten_eq
  packed line mem := (admissible.packed line mem).mono le

theorem Admissible.length_pack_le {lines : List (List Token)} (visible : Visible tokens)
    (admissible : Admissible width tokens lines) :
    (pack width tokens).length ≤ lines.length := by
  have flatten_eq : lines.flatten = [] ++ (pack width tokens).flatten := by
    rw [admissible.flatten_eq, flatten_pack width visible, List.nil_append]
  exact length_le_of_ahead (greedy_pack width visible) admissible.packed flatten_eq

/-- Packing succeeds with as few lines as there can be, so wider lines are no more. -/
theorem pack_fewest (visible : Visible tokens) (positive : 1 ≤ width) :
    wrapTokens tokens width =
        .ok (['\n'].intercalate ((pack width tokens).map lineText)) ∧
      Admissible width tokens (pack width tokens) ∧
      (∀ lines, Admissible width tokens lines → (pack width tokens).length ≤ lines.length) ∧
      ∀ wider, width ≤ wider → (pack wider tokens).length ≤ (pack width tokens).length := by
  refine ⟨wrapTokens_of_pos tokens positive, admissible_pack visible, ?_, ?_⟩
  · intro lines admissible
    exact admissible.length_pack_le visible
  · intro wider le
    exact ((admissible_pack visible).mono le).length_pack_le visible

/-- Two words with a break between them and a code span that is wider than a line. -/
theorem pack_fewest_narrow :
    let tokens : List Token := [⟨.word, "ab".toList, false⟩, ⟨.lineBreak, "<br>".toList, false⟩,
      ⟨.word, "cd".toList, true⟩, ⟨.atomic, "`e f g h`".toList, true⟩]
    Visible tokens ∧ 1 ≤ 6 ∧
      wrapTokens tokens 6 = .ok (['\n'].intercalate ((pack 6 tokens).map lineText)) ∧
      Admissible 6 tokens (pack 6 tokens) ∧
      (∀ lines, Admissible 6 tokens lines → (pack 6 tokens).length ≤ lines.length) ∧
      ∀ wider, 6 ≤ wider → (pack wider tokens).length ≤ (pack 6 tokens).length := by
  intro tokens
  have visible : Visible tokens := by simp [Visible, tokens]
  exact ⟨visible, by decide, pack_fewest visible (by decide)⟩

end Refill
