import Refill.Proofs.Markdown.Told

/-!
# HTML on a line

Whether a block of HTML opens is told by the line as well (`terminator_of_line`,
`opensElement_of_line`), since a tag that stands alone must end on it (`tag_line`). So is what ends a
paragraph or a table, but for fences and marks of footnotes (`interruptsRow_of_line`).
-/

namespace Refill.Markdown

variable {rest : List Char}

/-! ## Tests of HTML -/

theorem startsWithName_line {name : List Char} (inLine : ∀ c ∈ name, isLineEnd c = false)
    (rest : List Char) : startsWithName name (line rest) = startsWithName name rest := by
  induction name generalizing rest with
  | nil => rfl
  | cons mark name ih =>
    rw [List.forall_mem_cons] at inLine
    cases rest with
    | nil => rfl
    | cons c rest =>
      have later := ih inLine.2 rest
      unfold startsWithName at later ⊢
      cases ends : isLineEnd c with
      | true =>
        have lower : c.toLower = c := by
          rcases isLineEnd_iff.mp ends with rfl | rfl <;> rfl
        have other : c ≠ mark := by
          rintro rfl
          rw [ends] at inLine
          cases inLine.1
        simp [line_of_lineEnd ends, lower, other]
      | false =>
        rw [line_of_inLine ends]
        simp only [List.length_cons, List.take_succ_cons, List.map_cons, List.cons_beq_cons, later]

theorem startsWithName_le {name : List Char} (starts : startsWithName name rest) :
    name.length ≤ rest.length := by
  have same := congrArg List.length (eq_of_beq starts)
  rw [List.length_map, List.length_take] at same
  omega

theorem inLine_of_mem_rawElements :
    ∀ element ∈ rawElements, ∀ c ∈ element.1.toList, isLineEnd c = false := by
  have inLine : rawElements.all fun element => element.1.toList.all (!isLineEnd ·) := by
    decide +kernel
  intro element mem c charMem
  have ends := List.all_eq_true.mp (List.all_eq_true.mp inLine element mem) c charMem
  rwa [Bool.not_eq_true'] at ends

theorem isAlpha_eq_false_of_isLineEnd (c : Char) (ends : isLineEnd c) : c.isAlpha = false := by
  rcases isLineEnd_iff.mp ends with rfl | rfl <;> rfl

theorem blockTerminator_line (rest : List Char) :
    blockTerminator? (line rest) = blockTerminator? rest := by
  have ended : ∀ c, isLineEnd c → (isWhite c || c == '>') := by
    intro c ends
    simp [isWhite, ends]
  have declared : (rest.head? == some '!' && ((line rest).drop 1).head?.any Char.isAlpha) =
      (rest.head? == some '!' && (rest.drop 1).head?.any Char.isAlpha) := by
    cases mark : rest.head? == some '!' with
    | false => rfl
    | true => rw [← drop_line (one_le_line rfl mark), head?_any_line isAlpha_eq_false_of_isLineEnd]
  unfold blockTerminator?
  simp only [isPrefixOf_line (p := "!--".toList) (by decide +kernel),
    isPrefixOf_line (p := "?".toList) (by decide +kernel),
    isPrefixOf_line (p := "![CDATA[".toList) (by decide +kernel), head?_beq_line (m := '!') rfl,
    declared]
  congr 1
  refine List.find?_congr fun element mem => ?_
  rcases element with ⟨name, terminator⟩
  have told := startsWithName_line (inLine_of_mem_rawElements _ mem) rest
  simp only [told]
  cases starts : startsWithName name.toList rest with
  | false => rfl
  | true =>
    have within := startsWithName_le (told.trans starts)
    rw [String.length_toList] at within
    rw [← drop_line within, head?_all_line ended]

theorem isAlphanum_eq_false_of_isLineEnd (c : Char) (ends : isLineEnd c) :
    c.isAlphanum = false := by
  rcases isLineEnd_iff.mp ends with rfl | rfl <;> rfl

theorem opensBlockElement_line (rest : List Char) :
    opensBlockElement (line rest) = opensBlockElement rest := by
  have ended : ∀ c, isLineEnd c → (isWhite c && c != '\x0b' && c != '\x0c' || c == '>') := by
    intro c ends
    rcases isLineEnd_iff.mp ends with rfl | rfl <;> rfl
  -- behind the slash of a closing tag there is still the line
  have tag_eq : ∃ tag, (if rest.head? == some '/' then rest.drop 1 else rest) = tag ∧
      (if (line rest).head? == some '/' then (line rest).drop 1 else line rest) = line tag := by
    refine ⟨_, rfl, ?_⟩
    rw [head?_beq_line (m := '/') rfl]
    split
    · next slash => rw [drop_line (one_le_line rfl slash)]
    · rfl
  rcases tag_eq with ⟨tag, tag_eq, line_eq⟩
  have name := takeWhile_line isAlphanum_eq_false_of_isLineEnd tag
  have within := lengthWhile_le_line isAlphanum_eq_false_of_isLineEnd tag
  rw [lengthWhile_eq] at within
  unfold opensBlockElement
  simp only [tag_eq, line_eq, name, List.length_map, ← drop_line within, head?_all_line ended,
    isPrefixOf_line (p := "/>".toList) (by decide +kernel)]

/-! ## Tags on a line -/

theorem tagBlanks_eq (rest : List Char) :
    tagBlanks? false rest = if isBlankLine rest then none else some (lengthWhile isGap rest) := by
  rw [isBlankLine_eq, ← drop_lengthWhile]
  unfold tagBlanks?
  simp only [Bool.false_eq_true, if_false, Bool.not_false, Bool.true_and, List.isEmpty_iff]
  rcases rest.drop (lengthWhile isGap rest) with _ | ⟨c, behind⟩
  · simp
  · cases ends : isLineEnd c <;> simp [ends]

theorem tagBlanks_line (rest : List Char) : tagBlanks? false (line rest) = tagBlanks? false rest := by
  rw [tagBlanks_eq, tagBlanks_eq, isBlankLine_line, lengthWhile_line isGap_eq_false_of_isLineEnd]

theorem tagBlanks_le {gap : Nat} (gap_eq : tagBlanks? false rest = some gap) :
    gap ≤ (line rest).length := by
  rw [tagBlanks_eq] at gap_eq
  split at gap_eq
  · cases gap_eq
  · cases gap_eq
    exact lengthWhile_le_line isGap_eq_false_of_isLineEnd rest

theorem isBareValue_eq_false_of_isLineEnd (c : Char) (ends : isLineEnd c) :
    isBareValue c = false := by
  rcases isLineEnd_iff.mp ends with rfl | rfl <;> rfl

/-- What stands in a line before a mark is the same in the text, unless the line ends before. -/
theorem takeWhile_ne_line (mark : Char) (rest : List Char) :
    ((rest.takeWhile (· != mark)).any isLineEnd = false ∧
        (line rest).takeWhile (· != mark) = rest.takeWhile (· != mark)) ∨
      ((rest.takeWhile (· != mark)).any isLineEnd = true ∧
        (line rest).takeWhile (· != mark) = line rest) := by
  induction rest with
  | nil => exact Or.inl ⟨rfl, rfl⟩
  | cons c rest ih =>
    by_cases same : c = mark
    · subst same
      left
      refine ⟨by simp, ?_⟩
      cases ends : isLineEnd c with
      | true => simp [line_of_lineEnd ends]
      | false => simp [line_of_inLine ends]
    · cases ends : isLineEnd c with
      | true => exact Or.inr ⟨by simp [same, ends], by simp [line_of_lineEnd ends]⟩
      | false => simpa [line_of_inLine ends, same, ends] using ih

/-- A quoted value ends on its line. -/
theorem attributeValue_line (rest : List Char) :
    attributeValue? false (line rest) = attributeValue? false rest := by
  rcases rest with _ | ⟨c, inner⟩
  · rfl
  cases ends : isLineEnd c with
  | true =>
    rw [line_of_lineEnd ends]
    rcases isLineEnd_iff.mp ends with rfl | rfl <;> rfl
  | false =>
    have bare := lengthWhile_line isBareValue_eq_false_of_isLineEnd (c :: inner)
    rw [line_of_inLine ends] at bare ⊢
    unfold attributeValue?
    simp only [bare]
    split
    · rcases takeWhile_ne_line c inner with ⟨whole, same⟩ | ⟨broken, all⟩
      · have within := (List.takeWhile_prefix (· != c) (l := line inner)).length_le
        rw [same] at within
        have stops := Text.stopsAt_dropWhile (· != c) inner
        have behind := drop_lengthWhile (· != c) inner
        rw [lengthWhile_eq] at behind
        simp only [same, whole, ← drop_line within, behind]
        rcases later_eq : inner.dropWhile (· != c) with _ | ⟨d, later⟩
        · rfl
        · have quote : d = c := by simpa using stops d (by rw [later_eq]; rfl)
          rw [quote, line_of_inLine ends]
          rfl
      · simp only [all, broken, List.drop_length]
        simp
    · rfl

theorem attributeValue_le {length : Nat} (value : attributeValue? false rest = some length) :
    1 ≤ length ∧ length ≤ rest.length := by
  unfold attributeValue? at value
  rcases rest with _ | ⟨c, inner⟩
  · cases value
  simp only at value
  split at value
  · have whole := congrArg List.length (List.takeWhile_append_dropWhile (p := (· != c)) (l := inner))
    have behind := drop_lengthWhile (· != c) inner
    rw [lengthWhile_eq] at behind
    rw [List.length_append] at whole
    split at value
    · cases value
    · next closed =>
      cases value
      simp only [behind, Bool.or_eq_true, not_or, List.isEmpty_iff] at closed
      have left := List.length_pos_iff.mpr closed.1
      rw [List.length_cons]
      omega
  · have within := (List.takeWhile_prefix isBareValue (l := c :: inner)).length_le
    rw [lengthWhile_eq] at value
    split at value
    · cases value
    · cases value
      omega

theorem isAttributeName_eq_false_of_isLineEnd (c : Char) (ends : isLineEnd c) :
    isAttributeName c = false := by
  rcases isLineEnd_iff.mp ends with rfl | rfl <;> rfl

theorem attribute_line (rest : List Char) : attribute? false (line rest) = attribute? false rest := by
  have starts : ∀ c, isLineEnd c → (c.isAlpha || c == '_' || c == ':') = false := by
    intro c ends
    rcases isLineEnd_iff.mp ends with rfl | rfl <;> rfl
  have name := lengthWhile_le_line isAttributeName_eq_false_of_isLineEnd rest
  unfold attribute?
  simp only [head?_any_line starts, lengthWhile_line isAttributeName_eq_false_of_isLineEnd,
    ← drop_line name, tagBlanks_line]
  split
  · rcases gap_eq : tagBlanks? false (rest.drop (lengthWhile isAttributeName rest)) with _ | gap
    · rfl
    have gapped := tagBlanks_le gap_eq
    simp only [← drop_line gapped, head?_beq_line (m := '=') rfl]
    split
    · next equals =>
      have mark := one_le_line rfl equals
      rw [drop_line gapped, drop_line name, List.length_drop, List.length_drop] at mark
      have within : lengthWhile isAttributeName rest + gap + 1 ≤ (line rest).length := by omega
      simp only [← drop_line within, tagBlanks_line]
      rcases behind_eq : tagBlanks? false
        (rest.drop (lengthWhile isAttributeName rest + gap + 1)) with _ | behind
      · rfl
      have later := tagBlanks_le behind_eq
      rw [drop_line within, List.length_drop] at later
      have valued : lengthWhile isAttributeName rest + gap + 1 + behind ≤ (line rest).length := by
        omega
      simp only [← drop_line valued, attributeValue_line]
    · rfl
  · rfl

theorem attribute_le {length : Nat} (found : attribute? false rest = some length) :
    1 ≤ length ∧ length ≤ (line rest).length := by
  rw [← attribute_line] at found
  generalize line rest = rest at found ⊢
  unfold attribute? at found
  split at found
  · next starts =>
    have name : 1 ≤ lengthWhile isAttributeName rest := by
      rcases rest with _ | ⟨c, rest⟩
      · simp at starts
      · have held : isAttributeName c := by
          simp only [List.head?_cons, Option.any_some, Bool.or_eq_true] at starts
          simp only [isAttributeName, Char.isAlphanum, Bool.or_eq_true]
          tauto
        simp [lengthWhile_eq, held]
    have within := (List.takeWhile_prefix isAttributeName (l := rest)).length_le
    rw [← lengthWhile_eq] at within
    simp only at found
    split at found
    · cases found
    · next gap gap_eq =>
      split at found
      · split at found
        · cases found
        · next behind behind_eq =>
          rcases value_eq : attributeValue? false
            (rest.drop (lengthWhile isAttributeName rest + gap + 1 + behind)) with _ | value
          · simp [value_eq] at found
          · have valued := attributeValue_le value_eq
            rw [value_eq, Option.map_some, Option.some.injEq] at found
            rw [List.length_drop] at valued
            omega
      · cases found
        exact ⟨name, within⟩
  · cases found

/-- The bound on the number of attributes does not matter. -/
theorem attributes_fuel {fuel other : Nat} (enough : rest.length < fuel)
    (more : rest.length < other) : attributes? false fuel rest = attributes? false other rest := by
  induction fuel generalizing rest other with
  | zero => omega
  | succ fuel ih =>
    rcases other with _ | other
    · omega
    unfold attributes?
    split
    · rfl
    · next gap gap_eq =>
      simp only
      split
      · rfl
      · split
        · rfl
        · next some_gap =>
          split
          · rfl
          · next length found =>
            rcases attribute_le found with ⟨positive, within⟩
            have shorter : ((rest.drop gap).drop length).length + 1 ≤ rest.length := by
              have whole := line_length_le (rest.drop gap)
              simp only [List.length_drop] at whole ⊢
              omega
            have later : attributes? false fuel ((rest.drop gap).drop length) =
                attributes? false other ((rest.drop gap).drop length) :=
              ih (by omega) (by omega)
            rw [later]

theorem attributes_line (fuel : Nat) (rest : List Char) :
    attributes? false fuel (line rest) = attributes? false fuel rest := by
  induction fuel generalizing rest with
  | zero => rfl
  | succ fuel ih =>
    unfold attributes?
    rw [tagBlanks_line]
    split
    · rfl
    · next gap gap_eq =>
      have within := tagBlanks_le gap_eq
      simp only [← drop_line within, head?_beq_line (m := '/') rfl,
        head?_beq_line (m := '>') rfl, attribute_line]
      split
      · rfl
      · split
        · rfl
        · split
          · rfl
          · next length found =>
            rw [← drop_line (attribute_le found).2, ih]

theorem attributes_le {fuel length : Nat} (found : attributes? false fuel rest = some length) :
    length ≤ (line rest).length := by
  induction fuel generalizing rest length with
  | zero => cases found
  | succ fuel ih =>
    unfold attributes? at found
    split at found
    · cases found
    · next gap gap_eq =>
      have gapped := tagBlanks_le gap_eq
      simp only at found
      split at found
      · cases found
        exact gapped
      · split at found
        · cases found
        · split at found
          · cases found
          · next first first_eq =>
            rcases later_eq : attributes? false fuel ((rest.drop gap).drop first) with _ | later
            · rw [later_eq] at found
              cases found
            · have firstInside := (attribute_le first_eq).2
              have laterInside := ih later_eq
              rw [drop_line firstInside, List.length_drop, drop_line gapped, List.length_drop]
                at laterInside
              rw [drop_line gapped, List.length_drop] at firstInside
              rw [later_eq, Option.map_some, Option.some.injEq] at found
              omega

theorem attributes_line_fuel {name : Nat} (name_le : name ≤ (line rest).length) :
    attributes? false ((line rest).length + 1) (rest.drop name) =
      attributes? false (rest.length + 1) (rest.drop name) := by
  have inside := line_length_le (rest.drop name)
  rw [← attributes_line, ← attributes_line (rest.length + 1)]
  apply attributes_fuel
  · rw [drop_line name_le, List.length_drop]
    omega
  · rw [List.length_drop] at inside
    omega

theorem tag_line (rest : List Char) : tag? false (line rest) = tag? false rest := by
  have nameEnds : ∀ c, isLineEnd c → (c.isAlphanum || c == '-') = false := by
    intro c ends
    rcases isLineEnd_iff.mp ends with rfl | rfl <;> rfl
  have slash_le : (if rest.head? == some '/' then 1 else 0) ≤ (line rest).length := by
    split
    · next slash => exact one_le_line rfl slash
    · exact Nat.zero_le _
  unfold tag?
  simp only [head?_beq_line (m := '/') rfl]
  generalize (if rest.head? == some '/' then 1 else 0) = slash at *
  have name_le := lengthWhile_le_line nameEnds (rest.drop slash)
  simp only [← drop_line slash_le, lengthWhile_line nameEnds, ← drop_line name_le,
    head?_any_line isAlpha_eq_false_of_isLineEnd, attributes_line]
  generalize lengthWhile (fun c => c.isAlphanum || c == '-') (rest.drop slash) = name at *
  rw [drop_line slash_le, List.length_drop] at name_le
  split
  · rw [attributes_line_fuel (by rwa [drop_line slash_le, List.length_drop])]
    generalize attributes_eq : (if rest.head? == some '/' then some 0
      else attributes? false ((rest.drop slash).length + 1) ((rest.drop slash).drop name)) =
        attributes
    rcases attributes with _ | attributes
    · rfl
    have attributes_le : attributes ≤ (line ((rest.drop slash).drop name)).length := by
      split at attributes_eq
      · cases attributes_eq
        exact Nat.zero_le _
      · exact attributes_le attributes_eq
    rw [List.drop_drop, drop_line (by omega), List.length_drop] at attributes_le
    have inner_le : slash + name + attributes ≤ (line rest).length := by omega
    have gap_le := lengthWhile_le_line isGap_eq_false_of_isLineEnd
      (rest.drop (slash + name + attributes))
    simp only [← drop_line inner_le, lengthWhile_line isGap_eq_false_of_isLineEnd]
    rw [drop_line inner_le, List.length_drop] at gap_le
    generalize lengthWhile isGap (rest.drop (slash + name + attributes)) = gap at *
    have gapped_le : slash + name + attributes + gap ≤ (line rest).length := by omega
    simp only [← drop_line gapped_le, head?_beq_line (m := '/') rfl]
    generalize inner_eq : (if (!rest.head? == some '/' &&
      (rest.drop (slash + name + attributes + gap)).head? == some '/') = true then
        slash + name + attributes + gap + 1 else slash + name + attributes + gap) = inner
    have closed_le : inner ≤ (line rest).length := by
      split at inner_eq
      · next selfClosing =>
        rw [Bool.and_eq_true] at selfClosing
        have mark := one_le_line rfl selfClosing.2
        rw [drop_line gapped_le, List.length_drop] at mark
        omega
      · omega
    simp only [← drop_line closed_le, head?_beq_line (m := '>') rfl]
  · rfl

/-- A tag ends with a bracket. -/
theorem tag_le {length : Nat} (found : tag? false rest = some length) :
    length ≤ (line rest).length + 1 := by
  rw [← tag_line] at found
  generalize line rest = rest at found ⊢
  have closed : ∃ inner, length = inner + 2 ∧ (rest.drop inner).head? = some '>' := by
    unfold tag? at found
    grind
  rcases closed with ⟨inner, rfl, closes⟩
  rcases behind : rest.drop inner with _ | ⟨c, later⟩
  · simp [behind] at closes
  · have left := congrArg List.length behind
    rw [List.length_drop, List.length_cons] at left
    omega

theorem isLoneTag_line (starts : rest.head? = some '<') :
    isLoneTag (line rest) = isLoneTag rest := by
  rcases rest with _ | ⟨c, rest⟩
  · rfl
  cases (by simpa using starts : c = '<')
  unfold isLoneTag
  rw [line_of_inLine rfl, List.drop_one, List.tail_cons, List.drop_one, List.tail_cons, tag_line]
  split
  · rfl
  · next length found =>
    have within : length ≤ (line ('<' :: rest)).length := by
      rw [line_of_inLine rfl]
      exact tag_le found
    rw [← line_of_inLine rfl, ← drop_line within, isBlankLine_line]

/-! ## Lines that are the same -/

section Same

variable {other : List Char}

/-- Whether a block of HTML opens that has a terminator. -/
theorem terminator_of_line (line_eq : line rest = line other) :
    (if rest.head? == some '<' then blockTerminator? (rest.drop 1) else none) =
      if other.head? == some '<' then blockTerminator? (other.drop 1) else none := by
  rw [← head_of_line (by decide) line_eq]
  split
  · next starts =>
    exact eq_of_line blockTerminator_line (line_drop_one (by decide) starts line_eq)
  · rfl

/-- Whether a block of HTML opens that has none. -/
theorem opensElement_of_line (line_eq : line rest = line other) :
    (rest.head? == some '<' && (opensBlockElement (rest.drop 1) || isLoneTag rest)) =
      (other.head? == some '<' && (opensBlockElement (other.drop 1) || isLoneTag other)) := by
  have head_eq := head_of_line (c := '<') (by decide) line_eq
  cases starts : rest.head? == some '<' with
  | false => rw [← head_eq, starts, Bool.false_and, Bool.false_and]
  | true =>
    have otherStarts := starts
    rw [head_eq] at otherStarts
    have element_eq :=
      eq_of_line opensBlockElement_line (line_drop_one (by decide) starts line_eq)
    have first : rest.head? = some '<' := by simpa using starts
    have otherFirst : other.head? = some '<' := by simpa using otherStarts
    have tag_eq : isLoneTag rest = isLoneTag other := by
      rw [← isLoneTag_line first, line_eq, isLoneTag_line otherFirst]
    rw [otherStarts, element_eq, tag_eq]

/-- What ends a table or a paragraph is told by the line, the fence and the mark of a footnote. -/
theorem interruptsRow_of_line (line_eq : line rest = line other)
    (fence_eq : fence? rest = fence? other)
    (mark_eq : (footnoteMark? rest).isSome = (footnoteMark? other).isSome)
    (inTable current : Bool) :
    interruptsRow inTable current rest = interruptsRow inTable current other := by
  have ended_eq : (lineEnd? rest).isSome = (lineEnd? other).isSome :=
    eq_of_line (f := fun rest => (lineEnd? rest).isSome) isSome_lineEnd_line line_eq
  have rule_eq : (thematicBreak? rest).isSome = (thematicBreak? other).isSome :=
    eq_of_line (f := fun rest => (thematicBreak? rest).isSome) isSome_thematicBreak_line line_eq
  have heading_eq := eq_of_line opensHeading_line line_eq
  have item_eq := eq_of_line (itemInterrupts_line inTable current) line_eq
  have quote_eq := head_of_line (c := '>') (by decide) line_eq
  have html_eq : (rest.head? == some '<' &&
        ((blockTerminator? (rest.drop 1)).isSome || opensBlockElement (rest.drop 1))) =
      (other.head? == some '<' &&
        ((blockTerminator? (other.drop 1)).isSome || opensBlockElement (other.drop 1))) := by
    rw [← head_of_line (by decide) line_eq]
    cases starts : rest.head? == some '<' with
    | false => rfl
    | true =>
      have behind := line_drop_one (by decide) starts line_eq
      rw [eq_of_line blockTerminator_line behind, eq_of_line opensBlockElement_line behind]
  simp only [interruptsRow, ended_eq, rule_eq, heading_eq, fence_eq, quote_eq, item_eq, mark_eq]
  rw [html_eq]

end Same

end Refill.Markdown
