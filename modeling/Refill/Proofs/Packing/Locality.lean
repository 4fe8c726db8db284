import Refill.Proofs.Packing.Fewest

/-!
# Packing is local

What comes behind some tokens does not change their lines, but for the last one, which may go
on (`pack_append`). Lines that close before what follows are packed apart from it
(`pack_flatten_append`), and to close they look at no more than the token that comes next. The
last line has no such token, so all that is certain is that it goes on; only behind a break is
it closed, whatever follows.

A break at the very end of the tokens closes no line, since nothing is left for the next one.
`Closes` asks only what would have to begin the next line, so this makes no difference here.
-/

namespace Refill

variable {width : Nat} {front back line rest : List Token}

/-- A packed line is found again with what follows it, and may go on. -/
theorem exists_pack_append (packed : Packed width line) (visible : Visible (line ++ rest)) :
    ∃ more later, pack width (line ++ rest) = (line ++ more) :: later := by
  have greedy := greedy_pack width visible
  have flatten_eq := flatten_pack width visible
  generalize pack width (line ++ rest) = lines at greedy flatten_eq
  cases lines with
  | nil => exact absurd (List.append_eq_nil_iff.mp flatten_eq.symm).1 packed.nonempty
  | cons first later =>
    rw [List.flatten_cons] at flatten_eq
    have alone : Packed width ([] ++ line) := packed
    rcases exists_append_of_ahead greedy.head.nonempty greedy.closes_flatten alone flatten_eq with
      ⟨more, rfl, _⟩
    exact ⟨more, later, rfl⟩

/-- What follows tokens leaves all their lines but the last one, and that may go on. -/
theorem exists_pack_append_of_concat {lines : List (List Token)} {last : List Token}
    (visible : Visible (front ++ back)) (pack_eq : pack width front = lines ++ [last]) :
    ∃ more later, pack width (front ++ back) = lines ++ (last ++ more) :: later := by
  have flatten_eq := flatten_pack width visible.of_append_left
  have greedy := greedy_pack width visible.of_append_left
  rw [pack_eq] at flatten_eq greedy
  rw [List.flatten_append, List.flatten_singleton] at flatten_eq
  subst flatten_eq
  rw [List.append_assoc] at visible ⊢
  rcases List.isChain_append.mp greedy.closes with ⟨closes, _, closesLast⟩
  have before : Greedy width lines :=
    ⟨fun line mem => greedy.packed line (by simp [mem]), closes⟩
  have packedLast := greedy.packed last (by simp)
  rcases exists_pack_append packedLast visible.of_append_right with ⟨more, later, later_eq⟩
  refine ⟨more, later, ?_⟩
  rw [pack_flatten_append visible.of_append_left before, later_eq]
  intro line line_eq
  exact (closesLast line line_eq last rfl).append packedLast.nonempty back

/-- Behind a break, tokens are packed as if they stood alone. -/
theorem pack_append_of_break {tag : Token} (visible : Visible front)
    (last_eq : front.getLast? = some tag) (isBreak : tag.isLineBreak) :
    pack width (front ++ back) = pack width front ++ pack width back := by
  have flatten_eq := flatten_pack width visible
  have greedy := greedy_pack width visible
  generalize pack width front = lines at flatten_eq greedy
  subst flatten_eq
  apply pack_flatten_append visible greedy
  intro line line_eq
  rcases List.getLast?_eq_some_iff.mp line_eq with ⟨others, rfl⟩
  have nonempty := (greedy.packed line (by simp)).nonempty
  rw [List.flatten_append, List.flatten_singleton, List.getLast?_append_of_ne_nil _ nonempty]
    at last_eq
  exact Or.inl ⟨tag, last_eq, isBreak⟩

/-- Packing succeeds, and what follows tokens leaves all their lines but the last one, which it can
only make longer; behind a break it gets lines of its own. -/
theorem pack_append (visible : Visible (front ++ back)) (positive : 1 ≤ width) :
    (∀ tokens ∈ [front, back, front ++ back],
      wrapTokens tokens width = .ok (['\n'].intercalate ((pack width tokens).map lineText))) ∧
    (∀ lines last, pack width front = lines ++ [last] →
      ∃ more later, pack width (front ++ back) = lines ++ (last ++ more) :: later ∧
        lineText last <+: lineText (last ++ more)) ∧
    ∀ tag, front.getLast? = some tag → tag.isLineBreak →
      pack width (front ++ back) = pack width front ++ pack width back := by
  refine ⟨fun tokens _ => wrapTokens_of_pos tokens positive, ?_, ?_⟩
  · intro lines last pack_eq
    rcases exists_pack_append_of_concat visible pack_eq with ⟨more, later, whole_eq⟩
    have mem : last ++ more ∈ pack width (front ++ back) := by simp [whole_eq]
    have shown := visible_of_mem_pack visible _ mem
    refine ⟨more, later, whole_eq, ?_⟩
    rw [lineText_eq shown, lineText_eq shown.of_append_left]
    exact Token.prefix_join_append last more
  · intro tag last_eq isBreak
    exact pack_append_of_break visible.of_append_left last_eq isBreak

/-- A break behind a word, and tokens of which the first one touches it, on lines of six
characters. -/
theorem pack_append_narrow :
    let front : List Token := [⟨.word, "ab".toList, false⟩, ⟨.word, "cd".toList, true⟩,
      ⟨.lineBreak, "<br>".toList, false⟩]
    let back : List Token := [⟨.word, "ef".toList, false⟩, ⟨.atomic, "`g h i`".toList, true⟩]
    Visible (front ++ back) ∧ 1 ≤ 6 ∧
      (∀ tokens ∈ [front, back, front ++ back],
        wrapTokens tokens 6 = .ok (['\n'].intercalate ((pack 6 tokens).map lineText))) ∧
      (∀ lines last, pack 6 front = lines ++ [last] →
        ∃ more later, pack 6 (front ++ back) = lines ++ (last ++ more) :: later ∧
          lineText last <+: lineText (last ++ more)) ∧
      ∀ tag, front.getLast? = some tag → tag.isLineBreak →
        pack 6 (front ++ back) = pack 6 front ++ pack 6 back := by
  intro front back
  have visible : Visible (front ++ back) := by simp [Visible, front, back]
  exact ⟨visible, by decide, pack_append visible (by decide)⟩

end Refill
