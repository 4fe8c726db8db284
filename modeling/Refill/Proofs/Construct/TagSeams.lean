import Refill.Proofs.Construct.BreakTag

/-!
# Seams between which break tags stand

What keeps a break tag together are the characters it is made of: a bracket at either end, and
between them letters, a space and a slash (`IsTag.exists_inner`). A seam of a text is uncut if no
tag begins before it and ends behind it. It is, if it has a character behind it that has no place
behind the first one of a tag (`uncut_of_starts`), or a character before it that has no place
before the last one, whatever text without an opening bracket comes between (`uncut_of_ends`).
-/

namespace Refill

open Text

namespace BreakTag

variable {tag front back left right before behind : List Char}

/-! ## The characters of a tag -/

/-- Whether the character can stand in a tag between the brackets. -/
def isInner (c : Char) : Bool :=
  ['b', 'r', ' ', '/'].contains c.toLower

theorem IsTag.exists_inner (isTag : IsTag tag) :
    ∃ inner, tag = '<' :: (inner ++ ['>']) ∧ ∀ c ∈ inner, isInner c := by
  rcases isTag with ⟨name, slash, isName, mem, rfl⟩
  rcases isName.exists_chars with ⟨second, third, rfl, second_eq, third_eq⟩
  refine ⟨second :: third :: slash, by simp, ?_⟩
  simp only [slashes, List.mem_cons, List.not_mem_nil, or_false] at mem
  rw [List.forall_mem_cons, List.forall_mem_cons]
  refine ⟨by simp [isInner, second_eq], by simp [isInner, third_eq], ?_⟩
  have space : isInner ' ' := by decide
  have stroke : isInner '/' := by decide
  rcases mem with rfl | rfl | rfl <;> simp [space, stroke]

/-- A tag that is cut in two has its brackets at the ends of the parts. -/
theorem IsTag.exists_parts (isTag : IsTag (left ++ right)) (leftNonempty : left ≠ [])
    (rightNonempty : right ≠ []) :
    (∃ rest, left = '<' :: rest ∧ ∀ c ∈ rest, isInner c) ∧
      ∃ rest, right = rest ++ ['>'] ∧ ∀ c ∈ rest, isInner c := by
  rcases isTag.exists_inner with ⟨inner, tag_eq, allInner⟩
  rcases List.exists_cons_of_ne_nil leftNonempty with ⟨first, leftRest, rfl⟩
  rcases List.eq_nil_or_concat' right with rfl | ⟨rightRest, last, rfl⟩
  · exact absurd rfl rightNonempty
  rw [List.cons_append, ← List.append_assoc, List.cons.injEq] at tag_eq
  rcases List.append_inj' tag_eq.2 rfl with ⟨inner_eq, last_eq⟩
  subst inner_eq
  rw [List.forall_mem_append] at allInner
  exact ⟨⟨leftRest, by rw [tag_eq.1], allInner.1⟩, ⟨rightRest, by rw [last_eq], allInner.2⟩⟩

/-- No tag stands inside another one. -/
theorem IsTag.eq_of_inside (isTag : IsTag tag) (outerTag : IsTag (front ++ (tag ++ behind))) :
    front = [] ∧ behind = [] := by
  rcases isTag.exists_inner with ⟨inner, tag_eq, _⟩
  have opens : '<' ∈ tag := by simp [tag_eq]
  have closes : '>' ∈ tag := by simp [tag_eq]
  constructor
  · by_contra nonempty
    rcases (outerTag.exists_parts nonempty (by simp [tag_eq])).2 with ⟨rest, rest_eq, allInner⟩
    have mem : '<' ∈ rest ++ ['>'] := by
      rw [← rest_eq]
      exact List.mem_append_left behind opens
    rcases List.mem_append.mp mem with mem | mem
    · exact absurd (allInner '<' mem) (by decide)
    · simp at mem
  · by_contra nonempty
    rw [← List.append_assoc] at outerTag
    rcases (outerTag.exists_parts (by simp [tag_eq]) nonempty).1 with ⟨rest, rest_eq, allInner⟩
    have mem : '>' ∈ '<' :: rest := by
      rw [← rest_eq]
      exact List.mem_append_right front closes
    rcases List.mem_cons.mp mem with same | mem
    · simp at same
    · exact absurd (allInner '>' mem) (by decide)

/-! ## Seams -/

/-- No tag begins before the seam and ends behind it. -/
def Uncut (front back : List Char) : Prop :=
  ∀ left right, IsTag (left ++ right) → left ≠ [] → right ≠ [] → left <:+ front → ¬right <+: back

theorem uncut_of_starts {c : Char} {rest : List Char} (outer : isInner c = false) (other : c ≠ '>') :
    Uncut front (c :: rest) := by
  intro left right isTag leftNonempty rightNonempty _ starts
  rcases (isTag.exists_parts leftNonempty rightNonempty).2 with ⟨inner, rfl, allInner⟩
  cases inner with
  | nil =>
    rw [List.nil_append, List.cons_prefix_cons] at starts
    exact other starts.1.symm
  | cons d inner =>
    rw [List.cons_append, List.cons_prefix_cons] at starts
    have dInner := allInner d (by simp)
    rw [starts.1, outer] at dInner
    cases dInner

theorem uncut_of_ends {mark : Char} {punctuation : List Char} (outer : isInner mark = false)
    (other : mark ≠ '<') (opens : '<' ∉ punctuation) :
    Uncut (before ++ mark :: punctuation) back := by
  intro left right isTag leftNonempty rightNonempty ends _
  rcases (isTag.exists_parts leftNonempty rightNonempty).1 with ⟨inner, rfl, allInner⟩
  rcases List.suffix_or_suffix_of_suffix ends (List.suffix_append before (mark :: punctuation)) with
    short | long
  · rcases List.suffix_cons_iff.mp short with same | shorter
    · exact other (List.cons.inj same).1.symm
    · exact opens (shorter.subset (by simp))
  · have mem : mark ∈ '<' :: inner := long.subset (by simp)
    rcases List.mem_cons.mp mem with same | mem
    · exact other same
    · rw [allInner mark mem] at outer
      cases outer

/-- A tag stands on one side of such a seam. -/
theorem Uncut.occurs (uncut : Uncut front back) (isTag : IsTag tag)
    (text_eq : front ++ back = before ++ (tag ++ behind)) :
    (∃ rest, front = before ++ (tag ++ rest)) ∨
      ∃ rest, before = front ++ rest ∧ back = rest ++ (tag ++ behind) := by
  rcases side_of_append_eq text_eq with ⟨rest, front_eq, _⟩ | behind |
    ⟨onLeft, onRight, rfl, leftNonempty, rightNonempty, front_eq, back_eq⟩
  · exact Or.inl ⟨rest, front_eq⟩
  · exact Or.inr behind
  · exact absurd ⟨behind, back_eq.symm⟩
      (uncut onLeft onRight isTag leftNonempty rightNonempty ⟨before, front_eq.symm⟩)

end BreakTag

end Refill
