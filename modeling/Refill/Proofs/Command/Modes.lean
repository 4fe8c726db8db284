import Refill.Proofs.Command.Revision

/-!
# The modes agree

On the same files the modes do the same work: a check reports what writing changes, and printing
shows what would be written (`modes_agree`). They also succeed together.
-/

namespace Refill.Command

def runIn (mode : Mode) (surroundings : Surroundings) (options : Options) : Report :=
  run surroundings { options with mode }

/-- What the modes do with the same revisions. -/
structure Agreement (surroundings : Surroundings) (options : Options)
    (revisions : List Revision) : Prop where
  check_files : (runIn .check surroundings options).files = surroundings.files
  print_files : (runIn .print surroundings options).files = surroundings.files
  check_output : (runIn .check surroundings options).output =
    (revisions.filter Revision.changes).flatMap Revision.notice
  check_exitCode : (runIn .check surroundings options).exitCode =
    if revisions.any Revision.changes then 1 else 0
  write_output : (runIn .write surroundings options).output = []
  write_exitCode : (runIn .write surroundings options).exitCode = 0
  written : ∀ revision ∈ revisions, revision.changes →
    ∃ location, surroundings.files.LeadsTo revision.path location ∧
      (runIn .write surroundings options).files.root.face? location =
        some (.file (encodeText revision.after))
  frame : ∀ location,
    (∀ revision ∈ revisions, revision.changes →
      ¬surroundings.files.LeadsTo revision.path location) →
      (runIn .write surroundings options).files.root.face? location =
        surroundings.files.root.face? location
  print_output : (runIn .print surroundings options).output = revisions.flatMap Revision.after
  print_exitCode : (runIn .print surroundings options).exitCode = 0
  /-- A single file is printed as standard input with its content is. -/
  input_output : ∀ revision input, revisions = [revision] →
    decodeText? input = some revision.before →
      (runIn .print { surroundings with input } { options with paths := [] }).output =
        (runIn .print surroundings options).output

section

variable {mode : Mode} {surroundings : Surroundings} {options : Options} {settings : Settings}

theorem loadSettings_eq_ok_iff {named : Option Path} :
    loadSettings surroundings named = .ok settings ↔
      ∃ found, Settings.load surroundings.files (settingsPath surroundings.environment named) =
          .ok found ∧ settings = found.getD {} ∧ (found = none → named = none) := by
  rw [loadSettings]
  cases loaded : Settings.load surroundings.files
      (settingsPath surroundings.environment named) with
  | error error => simp
  | ok found =>
    cases found with
    | some other => simp [eq_comm]
    | none => cases named <;> simp [eq_comm]

theorem run_eq_processFiles (options : Options) {collected : List Path}
    (loaded : loadSettings surroundings options.settingsPath = .ok settings)
    (filled : options.paths ≠ [])
    (collected_eq : surroundings.files.collect options.paths = .ok collected) :
    run surroundings options =
      processFiles options.mode settings (options.width settings) surroundings.files
        collected := by
  simp [run, loaded, filled, collected_eq]

theorem exists_of_run_eq_ok (options : Options) {flagged : Bool} (filled : options.paths ≠ [])
    (succeeds : (run surroundings options).verdict = .ok flagged) :
    ∃ settings collected, loadSettings surroundings options.settingsPath = .ok settings ∧
      surroundings.files.collect options.paths = .ok collected := by
  rw [run] at succeeds
  cases loaded : loadSettings surroundings options.settingsPath with
  | error failure => simp [loaded, Report.failed] at succeeds
  | ok settings =>
    cases collected_eq : surroundings.files.collect options.paths with
    | error error => simp [loaded, filled, collected_eq, Report.failed] at succeeds
    | ok collected => exact ⟨settings, collected, rfl, rfl⟩

/-- A run that succeeds has made a revision of every file. -/
theorem exists_revises {width : Nat} {files : FileSystem} {paths : List Path} {flagged : Bool}
    (distinct : Distinct files paths)
    (succeeds : (processFiles mode settings width files paths).verdict = .ok flagged) :
    ∃ revisions, Revises settings width files paths revisions := by
  rcases revises_or_unusable settings width files paths with
    revises | ⟨front, path, back, revisions, rfl, revises, included, unusable⟩
  · exact revises
  · rcases processFiles_unusable mode revises distinct included unusable with ⟨failure, failed⟩
    rw [failed] at succeeds
    cases succeeds

theorem processInput_output (surroundings : Surroundings) {width : Nat} {revision : Revision}
    (decoded : decodeText? surroundings.input = some revision.before)
    (after : Document.refill revision.before width = .ok revision.after) :
    (processInput .print width surroundings).output = revision.after := by
  simp [processInput, decoded, after]

theorem width_eq {found : Option Settings} :
    options.width (found.getD {}) =
      (options.lineLength.or (found.map Settings.lineLength)).getD 88 := by
  cases length_eq : options.lineLength <;> cases found <;> simp [Options.width, length_eq]

/-- If the command succeeds with some paths in some mode, it does so in all modes, and they agree on the
revisions of the files that are not excluded. -/
theorem modes_agree (filled : options.paths ≠ [])
    (succeeds : ∃ mode flagged, (runIn mode surroundings options).verdict = .ok flagged)
    (distinct : ∀ collected, surroundings.files.collect options.paths = .ok collected →
      Distinct surroundings.files collected) :
    ∃ found collected revisions,
      Settings.load surroundings.files
        (settingsPath surroundings.environment options.settingsPath) = .ok found ∧
      surroundings.files.collect options.paths = .ok collected ∧
      Revises (found.getD {}) ((options.lineLength.or (found.map Settings.lineLength)).getD 88)
        surroundings.files collected revisions ∧
      Agreement surroundings options revisions := by
  rcases succeeds with ⟨mode, flagged, succeeds⟩
  have found_settings := exists_of_run_eq_ok { options with mode } filled succeeds
  rcases found_settings with ⟨settings, collected, loaded, collected_eq⟩
  have run_eq (mode : Mode) : runIn mode surroundings options =
      processFiles mode settings (options.width settings) surroundings.files collected :=
    run_eq_processFiles { options with mode } loaded filled collected_eq
  have apart := distinct collected collected_eq
  rw [run_eq] at succeeds
  rcases exists_revises apart succeeds with ⟨revisions, revises⟩
  rcases loadSettings_eq_ok_iff.mp loaded with ⟨found, load_eq, rfl, _⟩
  have effect (mode : Mode) := processFiles_effect mode revises apart
  simp only [← run_eq] at effect
  have input_eq (revision : Revision) (input : ByteArray) (single : revisions = [revision])
      (decoded : decodeText? input = some revision.before) :
      (runIn .print { surroundings with input } { options with paths := [] }).output =
        revision.after := by
    have refilled := revises.after revision (by simp [single])
    have same : loadSettings { surroundings with input } options.settingsPath =
        .ok (found.getD {}) := loaded
    simp only [runIn, run, same]
    exact processInput_output { surroundings with input } decoded refilled
  refine ⟨found, collected, revisions, load_eq, collected_eq, width_eq ▸ revises, ?_⟩
  exact {
    check_files := (effect .check).2.1.untouched (by simp)
    print_files := (effect .print).2.1.untouched (by simp)
    check_output := (effect .check).2.1.output_eq
    check_exitCode := by
      rw [Report.exitCode, (effect .check).1]
      cases revisions.any Revision.changes <;> rfl
    write_output := (effect .write).2.1.output_eq
    write_exitCode := by
      rw [Report.exitCode, (effect .write).1]
      rfl
    written := (effect .write).2.1.written rfl
    frame := fun location untouched => by
      apply (effect .write).2.1.frame
      rintro ⟨_, revision, mem, changes, leadsTo⟩
      exact untouched revision mem changes leadsTo
    print_output := (effect .print).2.1.output_eq
    print_exitCode := by
      rw [Report.exitCode, (effect .print).1]
      rfl
    input_output := fun revision input single decoded => by
      rw [input_eq revision input single decoded, (effect .print).2.1.output_eq]
      simp [single, printed] }

end

theorem eq_ok_of_toOption {ε α : Type} {result : Except ε α} {value : α}
    (value_eq : result.toOption = some value) : result = .ok value := by
  cases result with
  | error error => cases value_eq
  | ok other =>
    cases value_eq
    rfl

/-- Two files, and settings that exclude the second one. -/
def twoFiles : Surroundings where
  files := {
    root := .file "c.toml".toList (encodeText "exclude = ['b*']\n".toList)
      (.file "b.md".toList (encodeText "x\ny\n".toList)
        (.file "a.md".toList (encodeText "one\ntwo\n".toList) .empty))
    workingDirectory := [] }
  environment := ⟨[], none⟩
  input := .empty

def bothPaths : Options where
  paths := ["a.md".toList, "b.md".toList]
  settingsPath := some "c.toml".toList

theorem distinct_twoFiles : Distinct twoFiles.files bothPaths.paths := by
  have first : twoFiles.files.LeadsTo "a.md".toList ["a.md".toList] :=
    ⟨rfl, FileSystem.walk_eq_ok_iff.mp rfl⟩
  have second : twoFiles.files.LeadsTo "b.md".toList ["b.md".toList] :=
    ⟨rfl, FileSystem.walk_eq_ok_iff.mp rfl⟩
  refine List.pairwise_pair.mpr fun location one other => ?_
  have same := (first.unique one).trans (other.unique second)
  revert same
  decide

theorem modes_agree_twoFiles :
    bothPaths.paths ≠ [] ∧
      (∃ mode flagged, (runIn mode twoFiles bothPaths).verdict = .ok flagged) ∧
      (∀ collected, twoFiles.files.collect bothPaths.paths = .ok collected →
        Distinct twoFiles.files collected) ∧
      ∃ found collected revisions,
        Settings.load twoFiles.files
          (settingsPath twoFiles.environment bothPaths.settingsPath) = .ok found ∧
        twoFiles.files.collect bothPaths.paths = .ok collected ∧
        Revises (found.getD {}) ((bothPaths.lineLength.or (found.map Settings.lineLength)).getD 88)
          twoFiles.files collected revisions ∧
        Agreement twoFiles bothPaths revisions := by
  have filled : bothPaths.paths ≠ [] := by decide
  have succeeds : ∃ mode flagged, (runIn mode twoFiles bothPaths).verdict = .ok flagged :=
    ⟨.check, true, eq_ok_of_toOption (by decide +kernel)⟩
  have distinct : ∀ collected, twoFiles.files.collect bothPaths.paths = .ok collected →
      Distinct twoFiles.files collected := by
    intro collected collected_eq
    have found : twoFiles.files.collect bothPaths.paths = .ok bothPaths.paths :=
      eq_ok_of_toOption (by decide +kernel)
    rw [found] at collected_eq
    cases collected_eq
    exact distinct_twoFiles
  exact ⟨filled, succeeds, distinct, modes_agree filled succeeds distinct⟩

end Refill.Command
