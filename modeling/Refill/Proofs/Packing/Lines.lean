import Mathlib.Data.List.Basic
import Refill.Packing

/-!
# Packed lines

The lines hold the tokens in order, none of them is empty, and none has a break inside
(`flatten_pack`, `ne_nil_of_mem_pack`). What a line shows is the join of its tokens.
`packFrom` takes one of three steps for a token: it closes a line that would overflow, it
closes the line behind a break, or it goes on with the line; each has its equation here, and
the inductions of this module go by them.

Throughout, the tokens have texts that are not empty.
-/

namespace Refill

/-- No token has an empty text. -/
def Visible (tokens : List Token) : Prop :=
  ∀ token ∈ tokens, token.text ≠ []

namespace Visible

variable {front back tokens : List Token} {token : Token}

theorem head (visible : Visible (token :: tokens)) : token.text ≠ [] :=
  visible token List.mem_cons_self

theorem tail (visible : Visible (token :: tokens)) : Visible tokens :=
  fun other mem => visible other (List.mem_cons_of_mem token mem)

theorem of_append_left (both : Visible (front ++ back)) : Visible front :=
  fun token mem => both token (List.mem_append_left back mem)

theorem of_append_right (both : Visible (front ++ back)) : Visible back :=
  fun token mem => both token (List.mem_append_right front mem)

theorem reverse (visible : Visible tokens) : Visible tokens.reverse :=
  fun token mem => visible token (List.mem_reverse.mp mem)

end Visible

/-! ## The text of a line -/

namespace Token

theorem join_concat {line : List Token} (nonempty : line ≠ []) (token : Token) :
    join (line ++ [token]) = join line ++ token.spacedText := by
  cases line with
  | nil => exact absurd rfl nonempty
  | cons first others => simp [join]

theorem join_ne_nil {line : List Token} (visible : Visible line) (nonempty : line ≠ []) :
    join line ≠ [] := by
  cases line with
  | nil => exact absurd rfl nonempty
  | cons first others => simp [join, visible.head]

theorem prefix_join_append (line more : List Token) : join line <+: join (line ++ more) := by
  cases line with
  | nil => exact List.nil_prefix
  | cons first others => simp [join]

theorem length_join_append (line more : List Token) :
    (join line).length ≤ (join (line ++ more)).length :=
  (prefix_join_append line more).length_le

end Token

theorem lineText_go {tokens : List Token} (visible : Visible tokens) :
    lineText.go false tokens = tokens.flatMap Token.spacedText := by
  induction tokens with
  | nil => rfl
  | cons token tokens ih => simp [lineText.go, ih visible.tail]

/-- A line shows the join of its tokens. -/
theorem lineText_eq {line : List Token} (visible : Visible line) :
    lineText line = Token.join line := by
  cases line with
  | nil => rfl
  | cons first others =>
    have shown : first.text.isEmpty = false := by simpa using visible.head
    simp only [lineText, lineText.go, if_true, shown, lineText_go visible.tail, Token.join]

/-! ## A line that has been begun -/

namespace Line

/-- The width of the line is that of its text. -/
structure Sound (line : Line) : Prop where
  visible : Visible line.tokens
  width_eq : line.width = (Token.join line.tokens.reverse).length

variable {line : Line} {token : Token}

@[simp]
theorem reverse_push (line : Line) (token : Token) :
    (line.push token).tokens.reverse = line.tokens.reverse ++ [token] :=
  List.reverse_cons

theorem sound_empty : empty.Sound := ⟨by simp [Visible, empty], rfl⟩

theorem Sound.width_eq_zero_iff (sound : line.Sound) : line.width = 0 ↔ line.tokens = [] := by
  rw [sound.width_eq, List.length_eq_zero_iff]
  constructor
  · intro empty
    by_contra nonempty
    exact Token.join_ne_nil sound.visible.reverse (by simpa using nonempty) empty
  · intro empty
    rw [empty]
    rfl

theorem Sound.add_cost (sound : line.Sound) (token : Token) :
    line.width + line.cost token = (Token.join (line.tokens.reverse ++ [token])).length := by
  by_cases empty : line.tokens = []
  · have zero := sound.width_eq_zero_iff.mpr empty
    simp [cost, zero, empty, Token.join]
  · have positive : line.width ≠ 0 := fun zero => empty (sound.width_eq_zero_iff.mp zero)
    rw [Token.join_concat (by simpa using empty), List.length_append, ← sound.width_eq, cost]
    cases spaced : token.spaced <;> simp [Token.spacedText, spaced, positive]

theorem Sound.push (sound : line.Sound) (visible : token.text ≠ []) : (line.push token).Sound where
  visible := by
    intro other mem
    rcases List.mem_cons.mp mem with rfl | mem
    · exact visible
    · exact sound.visible other mem
  width_eq := by
    rw [Line.push, List.reverse_cons]
    exact sound.add_cost token

/-- A token is too much for a line that shows something and would be wider than a line with it. -/
theorem Sound.overflows_iff (sound : line.Sound) {width : Nat} :
    overflows width line token ↔ line.tokens ≠ [] ∧
      width < (Token.join (line.tokens.reverse ++ [token])).length := by
  rw [← sound.add_cost, overflows, Bool.and_eq_true, decide_eq_true_iff, ne_eq, decide_eq_true_iff,
    sound.width_eq_zero_iff]

end Line

/-! ## The steps of packing -/

section Steps

variable {width : Nat} {line : Line} {token : Token} {rest : List Token}

theorem packFrom_nil (sound : line.Sound) :
    packFrom width line [] = if line.tokens = [] then [] else [line.tokens.reverse] := by
  simp only [packFrom, sound.width_eq_zero_iff]

theorem packFrom_full (full : line.overflows width token) :
    packFrom width line (token :: rest) =
      line.tokens.reverse :: packFrom width .empty (token :: rest) := by
  have fits : Line.empty.overflows width token = false := rfl
  simp [packFrom, full, fits]

theorem packFrom_break (fits : line.overflows width token = false) (isBreak : token.isLineBreak)
    (nonempty : rest ≠ []) :
    packFrom width line (token :: rest) =
      (line.push token).tokens.reverse :: packFrom width .empty rest := by
  simp [packFrom, fits, isBreak, nonempty]

theorem packFrom_push (fits : line.overflows width token = false)
    (goesOn : token.isLineBreak = false ∨ rest = []) :
    packFrom width line (token :: rest) = packFrom width (line.push token) rest := by
  rcases goesOn with other | empty
  · simp [packFrom, fits, other]
  · simp [packFrom, fits, empty]

/-- The tokens are packed in steps: one closes a full line, one closes a line behind a break, and
one goes on with the line. -/
@[elab_as_elim]
theorem packFrom_induction (width : Nat) {motive : Line → List Token → Prop}
    (nil : ∀ line, line.Sound → motive line [])
    (full : ∀ line token rest, line.Sound → line.overflows width token →
      motive .empty (token :: rest) → motive line (token :: rest))
    (isBreak : ∀ line token rest, line.Sound → line.overflows width token = false →
      token.isLineBreak → rest ≠ [] → (line.push token).Sound → motive .empty rest →
        motive line (token :: rest))
    (push : ∀ line token rest, line.Sound → line.overflows width token = false →
      token.isLineBreak = false ∨ rest = [] → (line.push token).Sound →
        motive (line.push token) rest → motive line (token :: rest))
    {line : Line} {tokens : List Token} (sound : line.Sound) (visible : Visible tokens) :
    motive line tokens := by
  induction tokens generalizing line with
  | nil => exact nil line sound
  | cons token rest ih =>
    -- A token that is too much for a line goes to an empty one, which has room for every token.
    have fitting : ∀ line : Line, line.Sound → line.overflows width token = false →
        motive line (token :: rest) := by
      intro line sound fits
      have pushed := sound.push visible.head
      by_cases closes : token.isLineBreak ∧ rest ≠ []
      · exact isBreak line token rest sound fits closes.1 closes.2 pushed
          (ih Line.sound_empty visible.tail)
      · refine push line token rest sound fits ?_ pushed (ih pushed visible.tail)
        by_cases empty : rest = []
        · exact Or.inr empty
        · exact Or.inl (by simpa [empty] using closes)
    cases overflow : line.overflows width token with
    | false => exact fitting line sound overflow
    | true => exact full line token rest sound overflow (fitting .empty Line.sound_empty rfl)

theorem flatten_packFrom {tokens : List Token} (sound : line.Sound) (visible : Visible tokens) :
    (packFrom width line tokens).flatten = line.tokens.reverse ++ tokens := by
  refine packFrom_induction width ?_ ?_ ?_ ?_ sound visible
  · intro line sound
    rw [packFrom_nil sound]
    by_cases empty : line.tokens = []
    · simp [empty]
    · simp [empty]
  · intro line token rest _ full ih
    rw [packFrom_full full, List.flatten_cons, ih]
    rfl
  · intro line token rest _ fits isBreak nonempty _ ih
    rw [packFrom_break fits isBreak nonempty, List.flatten_cons, ih]
    simp [Line.empty]
  · intro line token rest _ fits goesOn _ ih
    rw [packFrom_push fits goesOn, ih]
    simp

theorem ne_nil_of_mem_packFrom {tokens : List Token} (sound : line.Sound)
    (visible : Visible tokens) : ∀ packed ∈ packFrom width line tokens, packed ≠ [] := by
  refine packFrom_induction width ?_ ?_ ?_ ?_ sound visible
  · intro line sound
    rw [packFrom_nil sound]
    by_cases empty : line.tokens = []
    · simp [empty]
    · simp [empty]
  · intro line token rest sound full ih
    rw [packFrom_full full, List.forall_mem_cons]
    exact ⟨by simpa using (sound.overflows_iff.mp full).1, ih⟩
  · intro line token rest _ fits isBreak nonempty _ ih
    rw [packFrom_break fits isBreak nonempty, List.forall_mem_cons]
    exact ⟨by simp, ih⟩
  · intro line token rest _ fits goesOn _ ih
    rwa [packFrom_push fits goesOn]

end Steps

section Pack

variable {width : Nat} {tokens : List Token}

theorem flatten_pack (width : Nat) (visible : Visible tokens) :
    (pack width tokens).flatten = tokens :=
  flatten_packFrom Line.sound_empty visible

theorem ne_nil_of_mem_pack (visible : Visible tokens) : ∀ line ∈ pack width tokens, line ≠ [] :=
  ne_nil_of_mem_packFrom Line.sound_empty visible

theorem visible_of_mem_pack (visible : Visible tokens) :
    ∀ line ∈ pack width tokens, Visible line := by
  intro line mem token inside
  rw [← flatten_pack width visible] at visible
  exact visible token (List.mem_flatten.mpr ⟨line, mem, inside⟩)

theorem wrapTokens_of_pos (tokens : List Token) (positive : 1 ≤ width) :
    wrapTokens tokens width = .ok (layout width tokens) := by
  have nonzero : width ≠ 0 := by omega
  rw [wrapTokens, if_neg nonzero]

/-- The layout shows the joins of the lines. -/
theorem layout_eq (visible : Visible tokens) :
    layout width tokens = ['\n'].intercalate ((pack width tokens).map Token.join) := by
  rw [layout, List.map_congr_left]
  intro line mem
  exact lineText_eq (visible_of_mem_pack visible line mem)

end Pack

end Refill
