import Refill.Proofs.Files.Written
import Refill.Proofs.Toml.Statement
import Refill.Settings

/-!
# Saved settings are loaded again

The text of settings is read as the same settings (`ofText_text`): each of the two lines is one
statement, whichever layout the array has. What has been saved is what is found there, so it is
loaded as it was (`load_save`).
-/

namespace Refill.Settings

open Toml

variable {depth : Nat}

/-! ## The array -/

theorem elementText_eq (element : List Char) :
    elementText element = List.replicate 4 ' ' ++ Quoted.write element ++ [',', '\n'] :=
  rfl

/-- From the line end on, the elements of an array with each on a line of its own. -/
theorem readElements_lines (elements : List (List Char)) (extra : Nat) (rest : List Char) :
    readElements (readValue depth) (extra + elements.length + 1)
        ('\n' :: (elements.flatMap elementText ++ ']' :: rest)) =
      some (elements.map .string, rest) := by
  induction elements with
  | nil => exact readElements_end ((skipLines_newline _).trans (skipLines_solid rfl rest))
  | cons element elements ih =>
    have reads := reads_string depth element
    have found : skipLines? ('\n' :: ((element :: elements).flatMap elementText ++ ']' :: rest)) =
        some (Quoted.write element ++
          ',' :: '\n' :: (elements.flatMap elementText ++ ']' :: rest)) := by
      rw [skipLines_newline, List.flatMap_cons, elementText_eq]
      simpa only [List.append_assoc, List.cons_append, List.nil_append] using
        reads.skipLines_indented 4 _
    rw [List.length_cons, ← Nat.add_assoc, readElements_comma reads found, ih]
    rfl

theorem length_le_flatMap (elements : List (List Char)) :
    elements.length ≤ (elements.flatMap elementText).length := by
  induction elements with
  | nil => simp
  | cons element elements ih =>
    have filled : 0 < (elementText element).length := by simp [elementText_eq]
    rw [List.flatMap_cons, List.length_append, List.length_cons]
    omega

theorem readElements_array (depth : Nat) (elements : List (List Char)) (rest : List Char) :
    ∃ inside, arrayText elements ++ rest = '[' :: inside ∧
      readElements (readValue depth) (inside.length + 1) inside =
        some (elements.map .string, rest) := by
  match elements with
  | [] => exact ⟨']' :: rest, rfl, readElements_end (skipLines_solid rfl rest)⟩
  | [element] =>
    have reads := reads_string depth element
    exact ⟨Quoted.write element ++ ']' :: rest, by simp [arrayText],
      readElements_last reads (reads.skipLines_indented 0 (']' :: rest))⟩
  | first :: second :: others =>
    refine ⟨'\n' :: ((first :: second :: others).flatMap elementText ++ ']' :: rest), ?_, ?_⟩
    · simp [arrayText]
    · have enough := length_le_flatMap (first :: second :: others)
      obtain ⟨extra, length_eq⟩ : ∃ extra,
          ('\n' :: ((first :: second :: others).flatMap elementText ++ ']' :: rest)).length =
            extra + (first :: second :: others).length := by
        apply Nat.exists_eq_add_of_le'
        simp only [List.length_cons, List.length_append] at enough ⊢
        omega
      rw [length_eq]
      exact readElements_lines (first :: second :: others) extra rest

theorem reads_array (depth : Nat) (elements : List (List Char)) :
    Reads (depth + 1) (arrayText elements) (.array (elements.map .string)) := by
  constructor
  · refine ⟨'[', (arrayText elements).tail, ?_, rfl, by decide⟩
    match elements with
    | [] | [_] | _ :: _ :: _ => rfl
  · intro stop _ rest
    rcases readElements_array depth elements (stop :: rest) with
      ⟨inside, text_eq, elements_eq⟩
    rw [text_eq, readValue, elements_eq]
    rfl

/-! ## The text -/

theorem readStatements_text (settings : Settings) (held : settings.lineLength < lineLengthBound)
    (fuel : Nat) :
    readStatements (fuel + 3) settings.text =
      some [.pair [lineLengthKey] (.integer settings.lineLength),
        .pair [excludeKey] (.array (settings.exclude.map .string))] := by
  have text_eq : settings.text =
      lineLengthKey ++ ' ' :: '=' :: ' ' :: (Nat.toDigits 10 settings.lineLength ++
        '\n' :: (excludeKey ++ ' ' :: '=' :: ' ' :: (arrayText settings.exclude ++ ['\n']))) := by
    simp [text]
  have small : lineLengthBound < Nat.pow 2 128 := by decide
  have number := reads_integer depthLimit (Nat.lt_trans held small)
  have array := reads_array 79 settings.exclude
  rw [text_eq, readStatements_pair (by decide) rfl number,
    readStatements_pair (by decide) rfl array]
  rfl

theorem read_text (settings : Settings) (held : settings.lineLength < lineLengthBound) :
    Toml.read settings.text =
      some [(lineLengthKey, .integer settings.lineLength),
        (excludeKey, .array (settings.exclude.map .string))] := by
  obtain ⟨fuel, length_eq⟩ : ∃ fuel, settings.text.length + 1 = fuel + 3 := by
    refine ⟨settings.text.length - 2, ?_⟩
    simp only [text, List.length_append, List.length_cons]
    omega
  have unmarked : dropByteOrderMark settings.text = settings.text := rfl
  rw [Toml.read, unmarked, length_eq, readStatements_text settings held]
  rfl

theorem lineLengthOf_eq {table : Table} {number : Nat}
    (value_eq : table.value? lineLengthKey = some (.integer number))
    (held : number < lineLengthBound) : lineLengthOf? table = some number := by
  have fits : decide (0 ≤ (number : Int)) && decide ((number : Int) < lineLengthBound) := by
    rw [Bool.and_eq_true, decide_eq_true_eq, decide_eq_true_eq]
    omega
  rw [lineLengthOf?, value_eq]
  exact if_pos fits

theorem excludeOf_eq {table : Table} {elements : List (List Char)}
    (value_eq : table.value? excludeKey = some (.array (elements.map .string))) :
    excludeOf? table = some elements := by
  rw [excludeOf?, value_eq]
  clear value_eq
  induction elements with
  | nil => rfl
  | cons element elements ih => simp_all [stringOf?]

/-- The text of settings is read as the settings. -/
theorem ofText_text (settings : Settings) (held : settings.lineLength < lineLengthBound) :
    ofText? settings.text = some settings := by
  refine Option.bind_eq_some_iff.mpr ⟨_, read_text settings held, ?_⟩
  refine Option.bind_eq_some_iff.mpr ⟨_, lineLengthOf_eq rfl held, ?_⟩
  exact Option.bind_eq_some_iff.mpr ⟨_, excludeOf_eq rfl, rfl⟩

/-! ## The file -/

theorem load_of_entry {files : FileSystem} {path : Path} {settings : Settings}
    (found : files.entry path = .ok (.file (encodeText settings.text)))
    (positive : 1 ≤ settings.lineLength) (held : settings.lineLength < lineLengthBound) :
    load files path = .ok (some settings) := by
  have somewhere : files.leadsSomewhere path := by
    rw [FileSystem.leadsSomewhere, found]
    rfl
  rw [load, FileSystem.readText_of_file found, decodeText_encodeText]
  simp [somewhere, ofText_text settings held]
  omega

/-- Whatever the file held before, the settings that have been saved are those that are loaded. -/
theorem load_save {settings : Settings} (positive : 1 ≤ settings.lineLength)
    (held : settings.lineLength < lineLengthBound) {files later : FileSystem} {path : Path}
    (saved : settings.save files path = (later, none)) :
    load later path = .ok (some settings) := by
  rw [save] at saved
  split at saved
  · cases saved
  · next ready _ =>
    split at saved
    · cases saved
    · next written write_eq =>
      cases saved
      exact load_of_entry (FileSystem.entry_of_write write_eq) positive held

/-- The largest line length, and patterns for every form of string. -/
def motley : Settings where
  lineLength := Nat.pow 2 64 - 1
  exclude := ["".toList, "\"quoted\"".toList, "back\\slash's".toList, "two\nlines".toList,
    "'''\"\"\"\"\r\n\x00\x7fé".toList]

/-- A directory where other settings stand. -/
def used : FileSystem where
  root := .file "c.toml".toList "exclude = 1".toUTF8 .empty
  workingDirectory := []

theorem load_save_motley :
    1 ≤ motley.lineLength ∧ motley.lineLength < lineLengthBound ∧
      (motley.save used "c.toml".toList).2 = none ∧
      load (motley.save used "c.toml".toList).1 "c.toml".toList = .ok (some motley) := by
  have saved : (motley.save used "c.toml".toList).2 = none := rfl
  exact ⟨by decide, by decide, saved, load_save (by decide) (by decide) (Prod.ext rfl saved)⟩

end Refill.Settings
