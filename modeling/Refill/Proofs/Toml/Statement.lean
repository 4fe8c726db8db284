import Refill.Proofs.Toml.Literal
import Refill.Proofs.Toml.Quoted
import Refill.Toml.Statement

/-!
# Pairs are read back

A text is read as a value in front of all that may follow a value (`Reads`). So are a string that
has been written and a number. A line with a bare key and such a text is one statement
(`readStatements_pair`).
-/

namespace Refill.Toml

variable {c : Char} {depth fuel : Nat} {key text rest : List Char} {value : Value}

/-! ## Between the statements -/

/-- The characters before which nothing is skipped. -/
def isSolid (c : Char) : Bool :=
  !" \t\r\n#".toList.contains c

theorem isSolid_of_holds {holds : Char → Bool} (here : holds c)
    (fails : " \t\r\n#".toList.any holds = false) : isSolid c := by
  simpa only [isSolid, List.contains_eq_mem, Bool.not_eq_true', decide_eq_false_iff_not] using
    not_mem_of_holds here fails

theorem dropLineEnd_solid (solid : isSolid c) : Quoted.dropLineEnd? (c :: rest) = none := by
  rw [Quoted.dropLineEnd?]
  all_goals
    rintro _ ⟨⟩
    cases solid

theorem skipComment_solid (solid : isSolid c) : skipComment? (c :: rest) = some (c :: rest) := by
  rw [skipComment?]
  rintro _ ⟨⟩
  cases solid

theorem skipBlanks_indented (solid : isSolid c) (width : Nat) (rest : List Char) :
    skipBlanks (List.replicate width ' ' ++ c :: rest) = c :: rest := by
  apply Text.dropWhile_front
  · intro blank member
    simp [List.eq_of_mem_replicate member]
  · apply Text.stopsAt_cons
    simp only [isSolid] at solid
    simp_all

theorem skipFiller_indented (solid : isSolid c) (fuel width : Nat) (rest : List Char) :
    skipFiller? (fuel + 1) (List.replicate width ' ' ++ c :: rest) = some (c :: rest) := by
  rw [skipFiller?, skipBlanks_indented solid, skipComment_solid solid]
  simp [dropLineEnd_solid solid]

theorem skipLines_indented (solid : isSolid c) (width : Nat) (rest : List Char) :
    skipLines? (List.replicate width ' ' ++ c :: rest) = some (c :: rest) :=
  skipFiller_indented solid _ width rest

theorem skipLines_solid (solid : isSolid c) (rest : List Char) :
    skipLines? (c :: rest) = some (c :: rest) :=
  skipLines_indented solid 0 rest

theorem skipLines_newline (text : List Char) : skipLines? ('\n' :: text) = skipLines? text :=
  rfl

/-! ## Values -/

/-- The text is read as the value wherever a value may end. -/
structure Reads (depth : Nat) (text : List Char) (value : Value) : Prop where
  begins : ∃ first later, text = first :: later ∧ isSolid first ∧ first ≠ ']'
  readValue_eq : ∀ stop ∈ [',', ']', '\n'], ∀ rest,
    readValue depth (text ++ stop :: rest) = some (value, stop :: rest)

theorem Quoted.exists_write_eq_cons (text : List Char) :
    ∃ mark later, write text = mark :: later ∧ (mark = '"' ∨ mark = '\'') := by
  rw [write]
  cases form text with
  | basic | basicLines => exact ⟨'"', _, rfl, Or.inl rfl⟩
  | literal | literalLines => exact ⟨'\'', _, rfl, Or.inr rfl⟩

theorem reads_string (depth : Nat) (text : List Char) :
    Reads depth (Quoted.write text) (.string text) := by
  rcases Quoted.exists_write_eq_cons text with ⟨mark, later, write_eq, marked⟩
  constructor
  · exact ⟨mark, later, write_eq, by rcases marked with rfl | rfl <;> decide⟩
  · intro stop member rest
    have unmarked : stop ≠ '"' ∧ stop ≠ '\'' := by
      revert stop
      simp
    have read_eq : Quoted.read (Quoted.write text ++ stop :: rest) = some (text, stop :: rest) :=
      Quoted.read_write text (by simpa using unmarked.1) (by simpa using unmarked.2)
    rw [write_eq, List.cons_append] at read_eq ⊢
    rcases marked with rfl | rfl <;> simp [readValue, read_eq]

theorem reads_integer (depth : Nat) {number : Nat} (held : number < Nat.pow 2 128) :
    Reads depth (Nat.toDigits 10 number) (.integer number) := by
  rcases List.exists_cons_of_ne_nil (Nat.toDigits_ne_nil (n := number) (b := 10)) with
    ⟨first, later, digits_eq⟩
  have digit : first.isDigit := Literal.digital_toDigits number first (by simp [digits_eq])
  constructor
  · refine ⟨first, later, digits_eq, ?_, ne_of_holds digit (by decide)⟩
    exact isSolid_of_holds digit rfl
  · intro stop member rest
    have ends : Literal.isEnd stop ∧ stop ≠ ' ' := by
      revert stop
      simp [Literal.isEnd]
    have read_eq := Literal.read_toDigits held ends.1 ends.2 rest
    rw [digits_eq, List.cons_append] at read_eq ⊢
    rw [readValue, read_eq]
    all_goals exact fun _ same => ne_of_holds digit (by decide) (List.cons.inj same).1

/-! ## Arrays -/

theorem Reads.skipLines_indented (reads : Reads depth text value) (width : Nat)
    (rest : List Char) :
    skipLines? (List.replicate width ' ' ++ (text ++ rest)) = some (text ++ rest) := by
  rcases reads.begins with ⟨first, later, rfl, solid, _⟩
  exact Toml.skipLines_indented solid width (later ++ rest)

theorem readElements_end (found : skipLines? text = some (']' :: rest)) :
    readElements (readValue depth) (fuel + 1) text = some ([], rest) := by
  rw [readElements, found]
  rfl

theorem readElements_comma {before : List Char} (reads : Reads depth text value)
    (found : skipLines? before = some (text ++ ',' :: rest)) :
    readElements (readValue depth) (fuel + 1) before =
      (readElements (readValue depth) fuel rest).map fun (values, rest) =>
        (value :: values, rest) := by
  have value_eq := reads.readValue_eq ',' (by simp) rest
  rcases reads.begins with ⟨first, later, rfl, _, opens⟩
  rw [List.cons_append] at found value_eq
  rw [readElements, found]
  simp [opens, value_eq, skipLines_solid (c := ',') rfl]

theorem readElements_last {before : List Char} (reads : Reads depth text value)
    (found : skipLines? before = some (text ++ ']' :: rest)) :
    readElements (readValue depth) (fuel + 1) before = some ([value], rest) := by
  have value_eq := reads.readValue_eq ']' (by simp) rest
  rcases reads.begins with ⟨first, later, rfl, _, opens⟩
  rw [List.cons_append] at found value_eq
  rw [readElements, found]
  simp [opens, value_eq, skipLines_solid (c := ']') rfl]

/-! ## Pairs -/

theorem readKey_bare (filled : key ≠ []) (bare : key.all isBareKey)
    (stops : Text.StopsAt isBareKey rest) : readKey (key ++ rest) = some (key, rest) := by
  rcases List.exists_cons_of_ne_nil filled with ⟨first, later, rfl⟩
  have begins : isBareKey first := List.all_eq_true.mp bare first (by simp)
  rw [List.cons_append, readKey, ← List.cons_append,
    Text.takeWhile_front (List.all_eq_true.mp bare) stops]
  · simp
  all_goals exact fun _ same => ne_of_holds begins (by decide) (List.cons.inj same).1

theorem readPath_bare (filled : key ≠ []) (bare : key.all isBareKey) (fuel : Nat)
    (rest : List Char) :
    readPath (fuel + 1) (key ++ ' ' :: '=' :: rest) = some ([key], '=' :: rest) := by
  have equals : skipBlanks (' ' :: '=' :: rest) = '=' :: rest := skipBlanks_indented rfl 1 rest
  rw [readPath, readKey_bare filled bare (Text.stopsAt_cons rfl)]
  simp [equals]

theorem readPair_bare (filled : key ≠ []) (bare : key.all isBareKey)
    (reads : Reads depth text value) (rest : List Char) :
    readPair (readValue depth) (key ++ ' ' :: '=' :: ' ' :: (text ++ '\n' :: rest)) =
      some (([key], value), '\n' :: rest) := by
  have value_eq := reads.readValue_eq '\n' (by simp) rest
  rcases reads.begins with ⟨first, later, text_eq, solid, _⟩
  have unblank : skipBlanks (' ' :: (text ++ '\n' :: rest)) = text ++ '\n' :: rest := by
    rw [text_eq]
    exact skipBlanks_indented solid 1 (later ++ '\n' :: rest)
  rw [readPair, readPath_bare filled bare]
  simp [unblank, value_eq]

theorem readStatement_pair (filled : key ≠ []) (bare : key.all isBareKey)
    (reads : Reads depthLimit text value) (rest : List Char) :
    readStatement (key ++ ' ' :: '=' :: ' ' :: (text ++ '\n' :: rest)) =
      some (.pair [key] value, '\n' :: rest) := by
  have pair := readPair_bare filled bare reads rest
  rcases List.exists_cons_of_ne_nil filled with ⟨first, later, rfl⟩
  have begins : isBareKey first := List.all_eq_true.mp bare first (by simp)
  rw [List.cons_append] at pair ⊢
  rw [readStatement, pair]
  · rfl
  all_goals exact fun _ same => ne_of_holds begins (by decide) (List.cons.inj same).1

/-- A line with a bare key and the text of a value is one statement. -/
theorem readStatements_pair (filled : key ≠ []) (bare : key.all isBareKey)
    (reads : Reads depthLimit text value) (fuel : Nat) (rest : List Char) :
    readStatements (fuel + 1) (key ++ ' ' :: '=' :: ' ' :: (text ++ '\n' :: rest)) =
      (readStatements fuel rest).map (.pair [key] value :: ·) := by
  have statement := readStatement_pair filled bare reads rest
  have lineEnd : skipLineEnd? ('\n' :: rest) = some rest := rfl
  rcases List.exists_cons_of_ne_nil filled with ⟨first, later, rfl⟩
  have begins : isSolid first :=
    isSolid_of_holds (List.all_eq_true.mp bare first (by simp)) rfl
  rw [List.cons_append] at statement ⊢
  rw [readStatements, skipLines_solid begins]
  simp [statement, lineEnd]

end Refill.Toml
