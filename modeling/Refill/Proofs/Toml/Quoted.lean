import Refill.Toml.Quoted

/-!
# Strings are read back

What is written for a text is read as that text, whatever follows it but another mark
(`read_write`). Between quotes each character is written so that it is read alone
(`escape_cases`); in a string of several lines no three marks stand together before the end.
-/

namespace Refill.Toml.Quoted

variable {c mark : Char} {text more rest : List Char}

/-! ## Escapes -/

theorem unescape_coded {code : Nat} (small : code < 128) (more : List Char) :
    unescape? ('u' :: '0' :: '0' :: hexDigit (code / 16) :: hexDigit (code % 16) :: more) =
      some (Char.ofNat code, 5) := by
  have number_eq : ∀ code < 128,
      hexNumber? 0 ['0', '0', hexDigit (code / 16), hexDigit (code % 16)] = some code ∧
        code.isValidChar := by
    decide
  rcases number_eq code small with ⟨number_eq, valid⟩
  simp [unescape?, coded?, number_eq, valid]

/-- The code is read as the character, and does not hide a line end. -/
structure Stands (code : List Char) (c : Char) : Prop where
  unescape_eq : ∀ more, unescape? (code ++ more) = some (c, code.length)
  visible : ∀ more, hidden? (code ++ more) = none

/-- A character is written as it is, or as a backslash and what stands for it. -/
theorem escape_cases (c : Char) :
    (escape c = [c] ∧ isControl c = false ∧ c ≠ '"' ∧ c ≠ '\\') ∨
      ∃ code, escape c = '\\' :: code ∧ Stands code c := by
  unfold escape
  split
  case h_8 _ _ _ _ _ _ unquoted unslashed =>
    split
    · next control =>
      have small : c.toNat < 128 := by
        simp only [isControl, Bool.or_eq_true, Bool.and_eq_true, decide_eq_true_eq,
          beq_iff_eq] at control
        omega
      refine Or.inr ⟨_, rfl, fun more => ?_, fun more => ?_⟩
      · simpa using unescape_coded small more
      · simp [hidden?, dropLineEnd?]
    · next plain => exact Or.inl ⟨rfl, by simpa using plain, unquoted, unslashed⟩
  all_goals
    refine Or.inr ⟨_, rfl, fun more => rfl, fun more => ?_⟩
    simp [hidden?, dropLineEnd?]

/-! ## Strings on one line -/

theorem exists_escape_eq_cons (c : Char) :
    ∃ first later, escape c = first :: later ∧ first ≠ '"' ∧ first ≠ '\n' ∧ first ≠ '\r' := by
  rcases escape_cases c with ⟨escape_eq, plain, unquoted, _⟩ | ⟨code, escape_eq, _⟩
  · refine ⟨c, [], escape_eq, unquoted, ?_, ?_⟩ <;>
    · rintro rfl
      cases plain
  · exact ⟨'\\', code, escape_eq, by decide, by decide, by decide⟩

theorem readBasic_escape (c : Char) (more : List Char) :
    readBasic (escape c ++ more) =
      (readBasic more).map fun (cs, behind) => (c :: cs, behind) := by
  rcases escape_cases c with ⟨escape_eq, plain, unquoted, unslashed⟩ | ⟨code, escape_eq, stands⟩
  · rw [escape_eq, List.singleton_append, readBasic]
    · simp [plain]
    · simpa using unquoted
    · simpa using unslashed
  · rw [escape_eq, List.cons_append, readBasic, stands.unescape_eq]
    simp only [List.drop_left]

theorem readBasic_write (text rest : List Char) :
    readBasic (text.flatMap escape ++ '"' :: rest) = some (text, rest) := by
  induction text with
  | nil => simp [readBasic]
  | cons c text ih => simp [readBasic_escape, ih]

theorem readLiteral_write (plain : ∀ c ∈ text, c ≠ '\'' ∧ isControl c = false)
    (rest : List Char) : readLiteral (text ++ '\'' :: rest) = some (text, rest) := by
  induction text with
  | nil => simp [readLiteral]
  | cons c text ih =>
    rcases List.forall_mem_cons.mp plain with ⟨⟨unmarked, uncoded⟩, others⟩
    rw [List.cons_append, readLiteral]
    · simp [uncoded, ih others]
    · simpa using unmarked

/-! ## Strings of several lines -/

/-- Of the marks before the end up to two belong to the text. -/
theorem readExtra_replicate {count : Nat} (few : count ≤ 2) (stops : rest.head? ≠ some mark) :
    readExtra mark (List.replicate count mark ++ rest) = (List.replicate count mark, rest) := by
  have unmarked {first : Char} {later : List Char} (rest_eq : rest = first :: later) :
      first ≠ mark := by
    rintro rfl
    simp [rest_eq] at stops
  match count, few with
  | 0, _ | 1, _ | 2, _ =>
    rcases rest with _ | ⟨first, _ | ⟨second, later⟩⟩ <;>
      simp_all [readExtra, List.replicate]

/-- A reader of strings of several lines ends at three marks and passes one that stands alone or
beside one other. -/
structure EndsAtThree (mark : Char) (read : List Char → Option (List Char × List Char)) : Prop where
  ends : ∀ rest, read (mark :: mark :: mark :: rest) = some (readExtra mark rest)
  passes : ∀ more, (∀ later, more ≠ mark :: mark :: later) →
    read (mark :: more) = (read more).map fun (cs, behind) => (mark :: cs, behind)

namespace EndsAtThree

variable {read : List Char → Option (List Char × List Char)} (reader : EndsAtThree mark read)

include reader

theorem read_marks {count : Nat} (few : count ≤ 2) (other : c ≠ mark) (more : List Char) :
    read (List.replicate count mark ++ c :: more) =
      (read (c :: more)).map fun (cs, behind) => (List.replicate count mark ++ cs, behind) := by
  match count, few with
  | 0, _ => simp
  | 1, _ =>
    rw [List.replicate_one, List.singleton_append, reader.passes]
    · rfl
    · simp [other]
  | 2, _ =>
    have first := reader.passes (mark :: c :: more) (by simp [other])
    have second := reader.passes (c :: more) (by simp [other])
    simp only [List.replicate, List.cons_append, List.nil_append, first, second, Option.map_map]
    rfl

theorem read_end {count : Nat} (few : count ≤ 2) (stops : rest.head? ≠ some mark) :
    read (List.replicate count mark ++ mark :: mark :: mark :: rest) =
      some (List.replicate count mark, rest) := by
  have moved : List.replicate count mark ++ mark :: mark :: mark :: rest =
      mark :: mark :: mark :: (List.replicate count mark ++ rest) := by
    match count, few with
    | 0, _ | 1, _ | 2, _ => rfl
  rw [moved, reader.ends, readExtra_replicate few stops]

end EndsAtThree

theorem endsAtThree_readBasicLines : EndsAtThree '"' readBasicLines where
  ends rest := by rw [readBasicLines]
  passes more alone := by
    rw [readBasicLines]
    · simp [isPlainInLines, isControl]
    · intro later _ marks
      exact alone later marks
    · simp

theorem endsAtThree_readLiteralLines : EndsAtThree '\'' readLiteralLines where
  ends rest := by rw [readLiteralLines]
  passes more alone := by
    rw [readLiteralLines]
    · simp [isPlainInLines, isControl]
    · intro later _ marks
      exact alone later marks

theorem readBasicLines_escape (c : Char) (more : List Char) :
    readBasicLines (escape c ++ more) =
      (readBasicLines more).map fun (cs, behind) => (c :: cs, behind) := by
  rcases escape_cases c with ⟨escape_eq, plain, unquoted, unslashed⟩ | ⟨code, escape_eq, stands⟩
  · rw [escape_eq, List.singleton_append, readBasicLines]
    · simp [isPlainInLines, plain]
    · simp [unquoted]
    · simpa using unslashed
  · rw [escape_eq, List.cons_append, readBasicLines, stands.visible, stands.unescape_eq]
    simp only [List.drop_left]

theorem readBasicLines_write {quotes : Nat} (few : quotes ≤ 2) (text : List Char)
    (stops : rest.head? ≠ some '"') :
    readBasicLines (List.replicate quotes '"' ++
        (escapeLines quotes text ++ '"' :: '"' :: '"' :: rest)) =
      some (List.replicate quotes '"' ++ text, rest) := by
  have reader := endsAtThree_readBasicLines
  -- the marks right before the rest of the text are carried along; there are never three
  induction text generalizing quotes with
  | nil => simpa [escapeLines] using reader.read_end few stops
  | cons c text ih =>
    have fresh := ih (Nat.zero_le 2)
    simp only [List.replicate_zero, List.nil_append] at fresh
    rw [escapeLines]
    split
    · next newline =>
      subst newline
      rw [List.cons_append, reader.read_marks few (by decide), readBasicLines]
      · simp [isPlainInLines, fresh]
      · simp
      · simp
    · split
      · next marked =>
        subst marked
        split
        · next room =>
          have more := ih (Nat.succ_le_of_lt room)
          simpa [List.replicate_succ', List.append_assoc] using more
        · next full =>
          have unescaped : unescape? ('"' :: (escapeLines 0 text ++ '"' :: '"' :: '"' :: rest)) =
              some ('"', 1) := rfl
          have shown (more : List Char) : hidden? ('"' :: more) = none := by
            simp [hidden?, dropLineEnd?]
          simp only [List.cons_append]
          rw [reader.read_marks few (by decide), readBasicLines, shown, unescaped]
          simp [fresh]
      · next unmarked =>
        have step := readBasicLines_escape c (escapeLines 0 text ++ '"' :: '"' :: '"' :: rest)
        rcases exists_escape_eq_cons c with ⟨first, later, escape_eq, unquoted, _⟩
        rw [escape_eq, List.cons_append, fresh] at step
        simp only [escape_eq, List.cons_append, List.append_assoc]
        rw [reader.read_marks few unquoted, step]
        rfl

theorem le_longestRun (mark : Char) (run : Nat) (text : List Char) :
    run ≤ longestRun mark run text := by
  induction text generalizing run with
  | nil => exact Nat.le_refl _
  | cons c text ih =>
    rw [longestRun]
    split
    · exact Nat.le_of_succ_le (ih (run + 1))
    · exact Nat.le_max_left _ _

theorem readLiteralLines_write {marks : Nat} (plain : ∀ c ∈ text, needsEscape c = false)
    (few : longestRun '\'' marks text ≤ 2) (stops : rest.head? ≠ some '\'') :
    readLiteralLines (List.replicate marks '\'' ++ (text ++ '\'' :: '\'' :: '\'' :: rest)) =
      some (List.replicate marks '\'' ++ text, rest) := by
  have reader := endsAtThree_readLiteralLines
  have room := Nat.le_trans (le_longestRun '\'' marks text) few
  induction text generalizing marks with
  | nil => simpa using reader.read_end room stops
  | cons c text ih =>
    rcases List.forall_mem_cons.mp plain with ⟨uncoded, others⟩
    rw [longestRun] at few
    split at few
    · next marked =>
      subst marked
      have more := ih others few (Nat.le_trans (le_longestRun _ _ _) few)
      simpa [List.replicate_succ', List.append_assoc] using more
    · next unmarked =>
      have fewLater : longestRun '\'' 0 text ≤ 2 := by omega
      have fresh := ih others fewLater (Nat.zero_le 2)
      have shown (behind : List Char) : isPlainInLines c behind := by
        simp only [needsEscape, Bool.and_eq_false_iff, bne_eq_false_iff_eq] at uncoded
        rcases uncoded with uncoded | rfl <;> simp [isPlainInLines, *]
      simp only [List.replicate_zero, List.nil_append] at fresh
      rw [List.cons_append, reader.read_marks room unmarked, readLiteralLines]
      · simp [shown, fresh]
      · intro later head_eq
        exact absurd head_eq unmarked

/-! ## All forms -/

/-- The line end behind the opening mark is dropped, and nothing of the text. -/
theorem dropFirstLineEnd_write {body : List Char}
    (begins : text.contains '\n' = false →
      ∃ first later, body = first :: later ∧ first ≠ '\n' ∧ first ≠ '\r') :
    dropFirstLineEnd (firstLineEnd text ++ body) = body := by
  rw [firstLineEnd]
  split
  · rfl
  · next unbroken =>
    rcases begins (by simpa using unbroken) with ⟨first, later, rfl, unfed, unreturned⟩
    simp [dropFirstLineEnd, dropLineEnd?, unfed, unreturned]

theorem exists_escapeLines_eq_cons (text more : List Char) (unbroken : text.contains '\n' = false) :
    ∃ first later, escapeLines 0 text ++ '"' :: more = first :: later ∧
      first ≠ '\n' ∧ first ≠ '\r' := by
  cases text with
  | nil => exact ⟨'"', more, rfl, by decide, by decide⟩
  | cons c text =>
    have unfed : c ≠ '\n' := by
      rintro rfl
      simp at unbroken
    by_cases marked : c = '"'
    · exact ⟨'"', escapeLines 1 text ++ '"' :: more, by simp [escapeLines, marked], by decide,
        by decide⟩
    · rcases exists_escape_eq_cons c with ⟨first, later, escape_eq, _, inner⟩
      exact ⟨first, later ++ (escapeLines 0 text ++ '"' :: more),
        by simp [escapeLines, unfed, marked, escape_eq], inner⟩

theorem read_basic (alone : ∀ later, more ≠ '"' :: '"' :: later) :
    read ('"' :: more) = readBasic more := by
  rw [read]
  exact alone

theorem read_literal (alone : ∀ later, more ≠ '\'' :: '\'' :: later) :
    read ('\'' :: more) = readLiteral more := by
  rw [read]
  exact alone

theorem writeAs_lines (text : List Char) :
    writeAs text .basicLines =
        ['"', '"', '"'] ++ firstLineEnd text ++ escapeLines 0 text ++ ['"', '"', '"'] ∧
      writeAs text .literalLines =
        ['\'', '\'', '\''] ++ firstLineEnd text ++ text ++ ['\'', '\'', '\''] :=
  ⟨rfl, rfl⟩

theorem read_writeAs_basic (text : List Char) (stops : rest.head? ≠ some '"') :
    read (writeAs text .basic ++ rest) = some (text, rest) := by
  have opened : writeAs text .basic ++ rest = '"' :: (text.flatMap escape ++ '"' :: rest) :=
    List.append_assoc ('"' :: text.flatMap escape) ['"'] rest
  rw [opened, read_basic, readBasic_write]
  intro later marks
  cases text with
  | nil =>
    simp only [List.flatMap_nil, List.nil_append, List.cons.injEq, true_and] at marks
    simp [marks] at stops
  | cons c text =>
    rcases exists_escape_eq_cons c with ⟨first, code, escape_eq, unquoted, _⟩
    simp [escape_eq, unquoted] at marks

theorem read_writeAs_literal (plain : ∀ c ∈ text, c ≠ '\'' ∧ isControl c = false)
    (stops : rest.head? ≠ some '\'') :
    read (writeAs text .literal ++ rest) = some (text, rest) := by
  have opened : writeAs text .literal ++ rest = '\'' :: (text ++ '\'' :: rest) :=
    List.append_assoc ('\'' :: text) ['\''] rest
  rw [opened, read_literal, readLiteral_write plain]
  intro later marks
  cases text with
  | nil =>
    simp only [List.nil_append, List.cons.injEq, true_and] at marks
    simp [marks] at stops
  | cons c text => exact (plain c (by simp)).1 (List.cons.inj marks).1

theorem read_writeAs_basicLines (text : List Char) (stops : rest.head? ≠ some '"') :
    read (writeAs text .basicLines ++ rest) = some (text, rest) := by
  have opened : writeAs text .basicLines ++ rest =
      '"' :: '"' :: '"' ::
        (firstLineEnd text ++ (escapeLines 0 text ++ '"' :: '"' :: '"' :: rest)) := by
    simp [writeAs_lines]
  have body := readBasicLines_write (Nat.zero_le 2) text stops
  rw [opened, read, dropFirstLineEnd_write (exists_escapeLines_eq_cons text _)]
  simpa using body

theorem read_writeAs_literalLines (plain : ∀ c ∈ text, needsEscape c = false)
    (few : longestRun '\'' 0 text ≤ 2) (stops : rest.head? ≠ some '\'') :
    read (writeAs text .literalLines ++ rest) = some (text, rest) := by
  have opened : writeAs text .literalLines ++ rest =
      '\'' :: '\'' :: '\'' :: (firstLineEnd text ++ (text ++ '\'' :: '\'' :: '\'' :: rest)) := by
    simp [writeAs_lines]
  have body := readLiteralLines_write plain few stops
  rw [opened, read, dropFirstLineEnd_write]
  · simpa using body
  · intro unbroken
    cases text with
    | nil => exact ⟨'\'', _, rfl, by decide, by decide⟩
    | cons c text =>
      refine ⟨c, _, rfl, ?_, ?_⟩
      · rintro rfl
        simp at unbroken
      · rintro rfl
        have coded := plain '\r' (by simp)
        cases coded

theorem ne_of_longestRun_eq_zero (none : longestRun mark 0 text = 0) : ∀ c ∈ text, c ≠ mark := by
  induction text with
  | nil => simp
  | cons c text ih =>
    rw [longestRun] at none
    split at none
    · have run := le_longestRun mark (0 + 1) text
      omega
    · next unmarked => exact List.forall_mem_cons.mpr ⟨unmarked, ih (by omega)⟩

/-- What is written for a text is read as the text. -/
theorem read_write (text : List Char) (unquoted : rest.head? ≠ some '"')
    (unmarked : rest.head? ≠ some '\'') : read (write text ++ rest) = some (text, rest) := by
  rw [write, form]
  split
  · exact read_writeAs_basic text unquoted
  · split
    · next plain =>
      simp only [Bool.and_eq_true, Bool.not_eq_true', List.any_eq_false, decide_eq_true_eq,
        List.contains_eq_mem, decide_eq_false_iff_not] at plain
      rcases plain with ⟨⟨uncoded, lone⟩, unbroken⟩
      refine read_writeAs_literal (fun c member => ⟨?_, ?_⟩) unmarked
      · exact ne_of_longestRun_eq_zero lone c member
      · have unfed : c ≠ '\n' := fun same => unbroken (same ▸ member)
        simpa [needsEscape, unfed] using uncoded c member
    · split
      · exact read_writeAs_basicLines text unquoted
      · split
        · next plain =>
          simp only [Bool.and_eq_true, Bool.not_eq_true', List.any_eq_false, decide_eq_true_eq,
            Bool.not_eq_true] at plain
          exact read_writeAs_literalLines plain.1 plain.2 unmarked
        · split
          · exact read_writeAs_basicLines text unquoted
          · exact read_writeAs_basic text unquoted

end Refill.Toml.Quoted
