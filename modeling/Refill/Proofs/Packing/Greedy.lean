import Mathlib.Data.List.Chain
import Refill.Proofs.Packing.Lines

/-!
# Greedy lines

Lines are greedy if each holds what fits and ends no later than behind a break, and the next
one begins with a token that had to go there. Packing yields greedy lines, and it yields
greedy lines again when their tokens are packed once more (`pack_flatten_iff`).
-/

namespace Refill

/-- More than one token fits the width, and nothing comes behind a break. -/
structure Packed (width : Nat) (line : List Token) : Prop where
  nonempty : line ≠ []
  fits : 2 ≤ line.length → (Token.join line).length ≤ width
  unbroken : ∀ token ∈ line.dropLast, token.isLineBreak = false

/-- The line ends with a break, or the next token does not fit it. -/
def Closes (width : Nat) (line next : List Token) : Prop :=
  (∃ last, line.getLast? = some last ∧ last.isLineBreak) ∨
    ∀ first, next.head? = some first → width < (Token.join (line ++ [first])).length

/-- Whether a line closes depends only on the token that comes next. -/
theorem Closes.append {width : Nat} {line rest : List Token} (closes : Closes width line rest)
    (nonempty : rest ≠ []) (more : List Token) : Closes width line (rest ++ more) := by
  rw [Closes, List.head?_append_of_ne_nil _ nonempty]
  exact closes

/-- Every line holds as much as it can. -/
structure Greedy (width : Nat) (lines : List (List Token)) : Prop where
  packed : ∀ line ∈ lines, Packed width line
  closes : lines.IsChain (Closes width)

variable {width : Nat}

namespace Greedy

variable {line : List Token} {lines : List (List Token)}

theorem head (greedy : Greedy width (line :: lines)) : Packed width line :=
  greedy.packed line List.mem_cons_self

theorem tail (greedy : Greedy width (line :: lines)) : Greedy width lines where
  packed other mem := greedy.packed other (List.mem_cons_of_mem line mem)
  closes := greedy.closes.tail

/-- The first line closes before the tokens of the others. -/
theorem closes_flatten (greedy : Greedy width (line :: lines)) :
    Closes width line lines.flatten := by
  cases lines with
  | nil => exact Or.inr (by simp)
  | cons next lines =>
    have nonempty := greedy.tail.head.nonempty
    have closes := (List.isChain_cons_cons.mp greedy.closes).1
    rwa [Closes, List.flatten_cons, List.head?_append_of_ne_nil _ nonempty]

end Greedy

/-! ## Packing greedy lines -/

theorem Line.Sound.fits_of_packed {line : Line} {token : Token} {more : List Token}
    (sound : line.Sound) (packed : Packed width (line.tokens.reverse ++ token :: more)) :
    line.overflows width token = false := by
  rw [Bool.eq_false_iff]
  intro full
  rcases sound.overflows_iff.mp full with ⟨begun, wide⟩
  have whole := packed.fits (by
    have positive := List.length_pos_iff.mpr begun
    simp only [List.length_append, List.length_reverse, List.length_cons]
    omega)
  have front := Token.length_join_append (line.tokens.reverse ++ [token]) more
  rw [List.append_assoc, List.singleton_append] at front
  omega

/-- The token behind which a line closes is the last one on it. -/
theorem packFrom_last {line : Line} {token : Token} {rest : List Token}
    (pushed : (line.push token).Sound) (fits : line.overflows width token = false)
    (closes : Closes width (line.tokens.reverse ++ [token]) rest) :
    packFrom width line (token :: rest) =
      (line.tokens.reverse ++ [token]) :: packFrom width .empty rest := by
  cases rest with
  | nil =>
    rw [packFrom_push fits (Or.inr rfl), packFrom_nil pushed, line.reverse_push]
    rfl
  | cons first rest =>
    by_cases isBreak : token.isLineBreak
    · rw [packFrom_break fits isBreak (by simp), line.reverse_push]
    · have full : (line.push token).overflows width first := by
        rw [pushed.overflows_iff, line.reverse_push]
        refine ⟨by simp [Line.push], ?_⟩
        rcases closes with ⟨last, last_eq, lastBreak⟩ | wide
        · rw [List.getLast?_concat] at last_eq
          cases last_eq
          exact absurd lastBreak isBreak
        · exact wide first rfl
      rw [packFrom_push fits (Or.inl (by simpa using isBreak)), packFrom_full full,
        line.reverse_push]

/-- A line that has been begun goes on as far as it is packed, and closes before the rest. -/
theorem packFrom_line {line : Line} {more rest : List Token} (sound : line.Sound)
    (visible : Visible more) (nonempty : more ≠ [])
    (packed : Packed width (line.tokens.reverse ++ more))
    (closes : Closes width (line.tokens.reverse ++ more) rest) :
    packFrom width line (more ++ rest) =
      (line.tokens.reverse ++ more) :: packFrom width .empty rest := by
  induction more generalizing line with
  | nil => exact absurd rfl nonempty
  | cons token more ih =>
    have fits := sound.fits_of_packed packed
    have pushed := sound.push visible.head
    cases more with
    | nil => exact packFrom_last pushed fits closes
    | cons second more =>
      have goesOn : token.isLineBreak = false := by
        apply packed.unbroken
        rw [List.dropLast_append_of_ne_nil (by simp), List.dropLast_cons_of_ne_nil (by simp)]
        simp
      have pushed_eq : (line.push token).tokens.reverse ++ second :: more =
          line.tokens.reverse ++ token :: second :: more := by simp
      rw [← pushed_eq] at packed closes ⊢
      rw [List.cons_append, packFrom_push fits (Or.inl goesOn)]
      exact ih pushed visible.tail (by simp) packed closes

/-- Greedy lines that close before the rest are packed apart from it. -/
theorem pack_flatten_append {lines : List (List Token)} {rest : List Token}
    (visible : Visible lines.flatten) (greedy : Greedy width lines)
    (closes : ∀ last, lines.getLast? = some last → Closes width last rest) :
    pack width (lines.flatten ++ rest) = lines ++ pack width rest := by
  induction lines with
  | nil => rfl
  | cons line lines ih =>
    rw [List.flatten_cons] at visible
    have later : pack width (lines.flatten ++ rest) = lines ++ pack width rest := by
      apply ih visible.of_append_right greedy.tail
      intro last last_eq
      apply closes last
      rw [List.getLast?_cons, last_eq, Option.getD_some]
    have closesLine : Closes width line (lines.flatten ++ rest) := by
      cases lines with
      | nil => exact closes line rfl
      | cons next lines =>
        apply greedy.closes_flatten.append
        simp [greedy.tail.head.nonempty]
    have whole := packFrom_line Line.sound_empty visible.of_append_left greedy.head.nonempty
      greedy.head closesLine
    rw [List.flatten_cons, List.append_assoc, pack, whole, ← pack, later]
    rfl

/-- Greedy lines are packed as they are. -/
theorem pack_flatten {lines : List (List Token)} (visible : Visible lines.flatten)
    (greedy : Greedy width lines) : pack width lines.flatten = lines := by
  have nothing : pack width [] = [] := rfl
  have alone : pack width (lines.flatten ++ []) = lines ++ pack width [] := by
    apply pack_flatten_append visible greedy
    intro last _
    exact Or.inr (by simp)
  rwa [List.append_nil, nothing, List.append_nil] at alone

/-! ## Packing yields greedy lines -/

theorem Line.Sound.packed_push {line : Line} {token : Token} (sound : line.Sound)
    (fits : line.overflows width token = false)
    (unbroken : ∀ other ∈ line.tokens, other.isLineBreak = false) :
    Packed width (line.push token).tokens.reverse := by
  rw [line.reverse_push]
  refine ⟨by simp, ?_, ?_⟩
  · intro two
    have begun : line.tokens ≠ [] := by
      rintro empty
      simp [empty] at two
    by_contra wide
    have full := sound.overflows_iff.mpr ⟨begun, Nat.lt_of_not_le wide⟩
    rw [fits] at full
    cases full
  · rw [List.dropLast_concat]
    exact fun other mem => unbroken other (List.mem_reverse.mp mem)

theorem head?_packFrom {tokens : List Token} (visible : Visible tokens) {next : List Token}
    (head_eq : (packFrom width .empty tokens).head? = some next) : next.head? = tokens.head? := by
  rcases List.head?_eq_some_iff.mp head_eq with ⟨others, pack_eq⟩
  have nonempty : next ≠ [] :=
    ne_nil_of_mem_packFrom Line.sound_empty visible next (List.mem_of_mem_head? head_eq)
  have flatten_eq : (packFrom width .empty tokens).flatten = tokens :=
    flatten_packFrom Line.sound_empty visible
  rw [pack_eq, List.flatten_cons] at flatten_eq
  rw [← List.head?_append_of_ne_nil _ nonempty, flatten_eq]

theorem greedy_packFrom {line : Line} {tokens : List Token} (sound : line.Sound)
    (visible : Visible tokens) (packed : line.tokens ≠ [] → Packed width line.tokens.reverse)
    (unbroken : (∀ token ∈ line.tokens, token.isLineBreak = false) ∨ tokens = []) :
    Greedy width (packFrom width line tokens) := by
  -- Each step keeps the begun line packed, and keeps breaks off it while there are tokens left.
  have shown := visible
  revert shown packed unbroken
  refine packFrom_induction width ?_ ?_ ?_ ?_ sound visible
  · intro line sound packed _ _
    rw [packFrom_nil sound]
    by_cases empty : line.tokens = []
    · rw [if_pos empty]
      exact ⟨by simp, .nil⟩
    · rw [if_neg empty]
      exact ⟨List.forall_mem_singleton.mpr (packed empty), .singleton _⟩
  · intro line token rest sound full ih packed _ shown
    rcases sound.overflows_iff.mp full with ⟨begun, wide⟩
    have later := ih (fun begun => absurd rfl begun) (Or.inl (by simp [Line.empty])) shown
    rw [packFrom_full full]
    refine ⟨List.forall_mem_cons.mpr ⟨packed begun, later.packed⟩,
      List.isChain_cons.mpr ⟨?_, later.closes⟩⟩
    intro next mem
    right
    intro first head_eq
    rw [head?_packFrom shown mem] at head_eq
    cases head_eq
    exact wide
  · intro line token rest sound fits isBreak nonempty _ ih _ unbroken shown
    have later := ih (fun begun => absurd rfl begun) (Or.inl (by simp [Line.empty])) shown.tail
    rw [packFrom_break fits isBreak nonempty]
    refine ⟨List.forall_mem_cons.mpr ⟨sound.packed_push fits ?_, later.packed⟩,
      List.isChain_cons.mpr ⟨?_, later.closes⟩⟩
    · exact unbroken.resolve_right (by simp)
    · intro next _
      exact Or.inl ⟨token, by simp [Line.push], isBreak⟩
  · intro line token rest sound fits goesOn _ ih _ unbroken shown
    have others := unbroken.resolve_right (by simp)
    rw [packFrom_push fits goesOn]
    apply ih
    · intro _
      exact sound.packed_push fits others
    · rcases goesOn with noBreak | empty
      · exact Or.inl (List.forall_mem_cons.mpr ⟨noBreak, others⟩)
      · exact Or.inr empty
    · exact shown.tail

/-- Packing yields greedy lines. -/
theorem greedy_pack (width : Nat) {tokens : List Token} (visible : Visible tokens) :
    Greedy width (pack width tokens) :=
  greedy_packFrom Line.sound_empty visible (fun begun => absurd rfl begun)
    (Or.inl (by simp [Line.empty]))

/-- Lines are packed as they are just if they are greedy. -/
theorem pack_flatten_iff {lines : List (List Token)} (visible : Visible lines.flatten) :
    pack width lines.flatten = lines ↔ Greedy width lines := by
  constructor
  · intro same
    rw [← same]
    exact greedy_pack width visible
  · exact pack_flatten visible

/-- Packing succeeds and shows the only greedy lines that hold the tokens; no tokens show
nothing. -/
theorem wrapTokens_greedy {tokens : List Token} (visible : Visible tokens)
    (positive : 1 ≤ width) :
    (∃ lines : List (List Token), lines.flatten = tokens ∧ Greedy width lines ∧
      wrapTokens tokens width = .ok (['\n'].intercalate (lines.map Token.join)) ∧
      ∀ others : List (List Token), others.flatten = tokens → Greedy width others →
        others = lines) ∧
      wrapTokens [] width = .ok [] := by
  constructor
  · refine ⟨pack width tokens, flatten_pack width visible, greedy_pack width visible, ?_, ?_⟩
    · rw [wrapTokens_of_pos tokens positive, layout_eq visible]
    · intro others flatten_eq greedy
      subst flatten_eq
      exact (pack_flatten visible greedy).symm
  · exact wrapTokens_of_pos [] positive

/-- A word with a wide code span stuck to it and a break behind it, in lines of four characters. -/
theorem wrapTokens_greedy_narrow :
    let tokens : List Token := [⟨.word, "ab".toList, false⟩, ⟨.atomic, "`c d e`".toList, false⟩,
      ⟨.lineBreak, "<br>".toList, true⟩, ⟨.word, "f".toList, true⟩, ⟨.word, "gh".toList, true⟩]
    Visible tokens ∧ 1 ≤ 4 ∧
      (∃ lines : List (List Token), lines.flatten = tokens ∧ Greedy 4 lines ∧
        wrapTokens tokens 4 = .ok (['\n'].intercalate (lines.map Token.join)) ∧
        ∀ others : List (List Token), others.flatten = tokens → Greedy 4 others →
          others = lines) ∧
        wrapTokens [] 4 = .ok [] := by
  intro tokens
  have visible : Visible tokens := by simp [Visible, tokens]
  exact ⟨visible, by decide, wrapTokens_greedy visible (by decide)⟩

end Refill
