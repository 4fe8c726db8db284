import Refill.Proofs.Command.Modes

/-!
# Runs that fail

A run fails before anything happens if its settings cannot be loaded or a path leads nowhere; later on
it fails at the first file that cannot be used, and has done with the files before that one what a
run over them does (`failed_run`).
-/

namespace Refill.Command

/-- Why the settings of a run cannot be loaded. -/
inductive Unloadable (surroundings : Surroundings) (named : Option Path) : Prop
  | missing (isNamed : named.isSome)
      (nowhere : surroundings.files.leadsSomewhere
        (settingsPath surroundings.environment named) = false)
  | unreadable {fault : Fault}
      (somewhere : surroundings.files.leadsSomewhere (settingsPath surroundings.environment named))
      (failed : surroundings.files.readText (settingsPath surroundings.environment named) =
        .error fault)
  | malformed {text : List Char}
      (read : surroundings.files.readText (settingsPath surroundings.environment named) = .ok text)
      (refused : Settings.ofText? text = none)
  | zeroLineLength {text : List Char} {settings : Settings}
      (read : surroundings.files.readText (settingsPath surroundings.environment named) = .ok text)
      (understood : Settings.ofText? text = some settings) (zero : settings.lineLength = 0)

/-- Of the files this is the first one that cannot be used and is not excluded. -/
structure FailsAt (settings : Settings) (width : Nat) (files : FileSystem)
    (collected front : List Path) (path : Path) (back : List Path) : Prop where
  collected_eq : collected = front ++ path :: back
  usable : ∀ earlier ∈ front, settings.isExcluded earlier ∨ ¬Unusable width files earlier
  included : settings.isExcluded path = false
  unusable : Unusable width files path

/-- The run has ended behind the first files, with the effect of a run over these that succeeds, and
the other files are as they were. -/
structure Stopped (options : Options) (settings : Settings) (files : FileSystem)
    (front rest : List Path) (report : Report) : Prop where
  exitCode : report.exitCode = 2
  effect : ∃ revisions, Revises settings (options.width settings) files front revisions ∧
    Effect options.mode revisions files report.files report.output
  succeeds : ∃ flagged, processFiles options.mode settings (options.width settings) files front =
    { output := report.output, files := report.files, verdict := .ok flagged }
  untouched : ∀ path ∈ rest, ∀ location, files.LeadsTo path location →
    report.files.root.face? location = files.root.face? location

section

variable {surroundings : Surroundings} {options : Options} {files : FileSystem}

theorem leadsSomewhere_of_readText {path : Path} {text : List Char}
    (read : files.readText path = .ok text) : files.leadsSomewhere path := by
  rw [FileSystem.leadsSomewhere]
  cases found : files.entry path with
  | error fault =>
    rw [FileSystem.readText, found] at read
    cases read
  | ok entry => rfl

theorem loadSettings_eq_error_iff {named : Option Path} :
    (∃ failure, loadSettings surroundings named = .error failure) ↔
      Unloadable surroundings named := by
  constructor
  · rintro ⟨failure, failed⟩
    rw [loadSettings, Settings.load] at failed
    cases somewhere : surroundings.files.leadsSomewhere
        (settingsPath surroundings.environment named) with
    | false =>
      cases isNamed : named.isSome with
      | false => simp [somewhere, isNamed] at failed
      | true => exact .missing isNamed somewhere
    | true =>
      cases read : surroundings.files.readText
          (settingsPath surroundings.environment named) with
      | error fault => exact .unreadable somewhere read
      | ok text =>
        cases understood : Settings.ofText? text with
        | none => exact .malformed read understood
        | some settings =>
          by_cases zero : settings.lineLength = 0
          · exact .zeroLineLength read understood zero
          · simp [somewhere, read, understood, zero] at failed
  · intro unloadable
    rw [loadSettings, Settings.load]
    cases unloadable with
    | missing isNamed nowhere => simp [nowhere, isNamed]
    | unreadable somewhere failed => simp [somewhere, failed]
    | malformed read refused => simp [leadsSomewhere_of_readText read, read, refused]
    | zeroLineLength read understood zero =>
      simp [leadsSomewhere_of_readText read, read, understood, zero]

theorem exists_loadSettings {named : Option Path} (loadable : ¬Unloadable surroundings named) :
    ∃ settings, loadSettings surroundings named = .ok settings := by
  rw [← loadSettings_eq_error_iff] at loadable
  cases loaded : loadSettings surroundings named with
  | error failure => exact absurd ⟨failure, loaded⟩ loadable
  | ok settings => exact ⟨settings, rfl⟩

theorem exists_failure {report : Report} (ended : report.exitCode = 2) :
    ∃ failure, report.verdict = .error failure := by
  rw [Report.exitCode] at ended
  split at ended
  · cases ended
  · cases ended
  · next failure failed => exact ⟨failure, failed⟩

/-- Files are collected just if every path leads somewhere. -/
theorem exists_collect_iff {paths : List Path} :
    (∃ collected, files.collect paths = .ok collected) ↔
      ∀ path ∈ paths, files.leadsSomewhere path := by
  induction paths with
  | nil => simp [FileSystem.collect]
  | cons path paths ih =>
    rw [List.forall_mem_cons, ← ih, FileSystem.collect, FileSystem.expandPath,
      FileSystem.leadsSomewhere]
    cases files.entry path with
    | error fault => simp [bind, Except.bind, Except.toOption]
    | ok entry =>
      cases entry <;> cases files.collect paths <;>
        simp [bind, Except.bind, pure, Except.pure, Except.toOption]

theorem exists_revises_of_usable {settings : Settings} {width : Nat} {paths : List Path}
    (usable : ∀ path ∈ paths, settings.isExcluded path ∨ ¬Unusable width files path) :
    ∃ revisions, Revises settings width files paths revisions := by
  rcases revises_or_unusable settings width files paths with
    revises | ⟨front, path, back, _, rfl, _, included, unusable⟩
  · exact revises
  · rcases usable path (by simp) with excluded | notUnusable
    · rw [included] at excluded
      cases excluded
    · exact absurd unusable notUnusable

theorem exists_failsAt {settings : Settings} {mode : Mode} {width : Nat} {collected : List Path}
    {failure : Failure} (distinct : Distinct files collected)
    (failed : (processFiles mode settings width files collected).verdict = .error failure) :
    ∃ front path back, FailsAt settings width files collected front path back := by
  rcases revises_or_unusable settings width files collected with
    ⟨revisions, revises⟩ | ⟨front, path, back, revisions, rfl, revises, included, unusable⟩
  · rw [(processFiles_effect mode revises distinct).1] at failed
    cases failed
  · exact ⟨front, path, back, rfl, fun earlier mem => revises.usable mem, included, unusable⟩

theorem FailsAt.stopped {settings : Settings} {collected front back : List Path} {path : Path}
    (fails : FailsAt settings (options.width settings) files collected front path back)
    (distinct : Distinct files collected) :
    Stopped options settings files front (path :: back)
      (processFiles options.mode settings (options.width settings) files collected) := by
  rcases fails with ⟨rfl, usable, included, unusable⟩
  rcases List.pairwise_append.mp distinct with ⟨distinctFront, _, apart⟩
  rcases exists_revises_of_usable usable with ⟨revisions, revises⟩
  rcases processFiles_effect options.mode revises distinctFront with ⟨verdict_eq, effect, _⟩
  rcases processFiles_unusable options.mode revises distinct included unusable with
    ⟨failure, failed⟩
  rw [failed]
  refine ⟨rfl, ⟨revisions, revises, effect⟩,
    ⟨options.mode = .check && revisions.any Revision.changes, ?_⟩, ?_⟩
  · rw [← verdict_eq]
  · intro later mem location leadsTo
    refine effect.face_of_apart leadsTo fun revision revisionMem => ?_
    exact apart revision.path (revises.path_mem revisionMem) later mem location

/-- A run that has not begun leaves everything as it was. -/
theorem run_of_refused
    (refused : Unloadable surroundings options.settingsPath ∨
      ∃ path ∈ options.paths, surroundings.files.leadsSomewhere path = false) :
    ∃ failure, run surroundings options = .failed surroundings.files failure := by
  rw [run]
  cases loaded : loadSettings surroundings options.settingsPath with
  | error failure => exact ⟨failure, rfl⟩
  | ok settings =>
    rcases refused with unloadable | ⟨path, mem, nowhere⟩
    · rcases loadSettings_eq_error_iff.mpr unloadable with ⟨failure, failed⟩
      rw [loaded] at failed
      cases failed
    · have filled : options.paths ≠ [] := List.ne_nil_of_mem mem
      cases collected_eq : surroundings.files.collect options.paths with
      | error error => exact ⟨.access error, by simp [filled]⟩
      | ok collected =>
        have leads := exists_collect_iff.mp ⟨collected, collected_eq⟩ path mem
        rw [nowhere] at leads
        cases leads

/-- A run ends with a failure, and prints and changes nothing, if its settings cannot be loaded or a
path leads nowhere. Otherwise it ends, in every mode, at the first file that cannot be used. -/
theorem failed_run {arguments : List (List Char)}
    (parsed : Options.ofArguments arguments = .ok options) :
    ((Unloadable surroundings options.settingsPath ∨
        ∃ path ∈ options.paths, surroundings.files.leadsSomewhere path = false) →
      (execute surroundings arguments).exitCode = 2 ∧
        (execute surroundings arguments).output = [] ∧
        (execute surroundings arguments).files = surroundings.files) ∧
    (¬Unloadable surroundings options.settingsPath →
      (∀ path ∈ options.paths, surroundings.files.leadsSomewhere path) →
      ∃ settings collected, loadSettings surroundings options.settingsPath = .ok settings ∧
        surroundings.files.collect options.paths = .ok collected ∧
        (Distinct surroundings.files collected →
          (options.paths ≠ [] → (execute surroundings arguments).exitCode = 2 →
            ∃ front path back, FailsAt settings (options.width settings) surroundings.files
              collected front path back) ∧
          ∀ front path back, FailsAt settings (options.width settings) surroundings.files
            collected front path back →
              Stopped options settings surroundings.files front (path :: back)
                (execute surroundings arguments))) := by
  have executed : execute surroundings arguments = run surroundings options := by
    rw [execute, parsed]
  rw [executed]
  constructor
  · intro refused
    rcases run_of_refused refused with ⟨failure, failed⟩
    rw [failed]
    exact ⟨rfl, rfl, rfl⟩
  · intro loadable leads
    rcases exists_loadSettings loadable with ⟨settings, loaded⟩
    rcases exists_collect_iff.mpr leads with ⟨collected, collected_eq⟩
    refine ⟨settings, collected, loaded, collected_eq, fun distinct => ⟨?_, ?_⟩⟩
    · intro filled ended
      rw [run_eq_processFiles options loaded filled collected_eq] at ended
      rcases exists_failure ended with ⟨failure, failed⟩
      exact exists_failsAt distinct failed
    · intro front path back fails
      have filled : options.paths ≠ [] := by
        intro empty
        rw [empty] at collected_eq
        cases collected_eq
        simpa using fails.collected_eq
      rw [run_eq_processFiles options loaded filled collected_eq]
      exact fails.stopped distinct

end

/-- Three files, the second of which is no text. -/
def brokenFile : Surroundings where
  files := {
    root := .file "a.md".toList (encodeText "one\ntwo\n".toList)
      (.file "b.md".toList ⟨#[0xff]⟩ (.file "c.md".toList (encodeText "x\ny\n".toList) .empty))
    workingDirectory := [] }
  environment := ⟨[], none⟩
  input := .empty

def threePaths : Options where
  paths := ["a.md".toList, "b.md".toList, "c.md".toList]
  mode := .write

theorem distinct_brokenFile : Distinct brokenFile.files threePaths.paths := by
  have leads (name : Name) (checked : FileSystem.checkPath name = .ok ())
      (walked : FileSystem.walk brokenFile.files.root [] (Path.steps name) = .ok [name])
      (relative : brokenFile.files.start name = []) : brokenFile.files.LeadsTo name [name] :=
    ⟨checked, by rw [relative]; exact FileSystem.walk_eq_ok_iff.mp walked⟩
  have apart {first second : Name} (differ : first ≠ second)
      (one : brokenFile.files.LeadsTo first [first])
      (other : brokenFile.files.LeadsTo second [second]) :
      ∀ location, brokenFile.files.LeadsTo first location →
        ¬brokenFile.files.LeadsTo second location := by
    intro location leadsTo otherLeads
    have same := (one.unique leadsTo).trans (otherLeads.unique other)
    exact differ (List.cons.inj same).1
  have first := leads "a.md".toList rfl rfl rfl
  have second := leads "b.md".toList rfl rfl rfl
  have third := leads "c.md".toList rfl rfl rfl
  simp only [Distinct, threePaths, List.pairwise_cons, List.forall_mem_cons, List.not_mem_nil,
    false_imp_iff, implies_true, List.Pairwise.nil, and_true]
  exact ⟨⟨apart (by decide) first second, apart (by decide) first third⟩,
    apart (by decide) second third⟩

theorem failed_run_brokenFile :
    Options.ofArguments ["-w".toList, "a.md".toList, "b.md".toList, "c.md".toList] =
        .ok threePaths ∧
      Stopped threePaths {} brokenFile.files ["a.md".toList] ["b.md".toList, "c.md".toList]
        (execute brokenFile ["-w".toList, "a.md".toList, "b.md".toList, "c.md".toList]) := by
  have parsed : Options.ofArguments ["-w".toList, "a.md".toList, "b.md".toList, "c.md".toList] =
      .ok threePaths := eq_ok_of_toOption (by decide +kernel)
  refine ⟨parsed, ?_⟩
  have loaded : loadSettings brokenFile threePaths.settingsPath = .ok {} :=
    eq_ok_of_toOption (by decide +kernel)
  have collected_eq : brokenFile.files.collect threePaths.paths = .ok threePaths.paths :=
    eq_ok_of_toOption (by decide +kernel)
  have loadable : ¬Unloadable brokenFile threePaths.settingsPath := by
    rw [← loadSettings_eq_error_iff, loaded]
    simp
  have leads := exists_collect_iff.mp ⟨_, collected_eq⟩
  rcases (failed_run parsed).2 loadable leads with ⟨settings, collected, found, same, ends⟩
  rw [loaded] at found
  rw [collected_eq] at same
  cases found
  cases same
  have read : brokenFile.files.textAt "a.md".toList = .ok "one\ntwo\n".toList :=
    eq_ok_of_toOption (by decide +kernel)
  have usable : ¬Unusable (threePaths.width {}) brokenFile.files "a.md".toList := by
    intro unusable
    have refused := unusable.ne_ok read
    rw [Document.refill, if_neg (by decide)] at refused
    cases refused
  refine (ends distinct_brokenFile).2 ["a.md".toList] "b.md".toList ["c.md".toList] ?_
  refine ⟨rfl, ?_, rfl, ?_⟩
  · intro earlier mem
    cases List.mem_singleton.mp mem
    exact Or.inr usable
  · have undecoded : decodeText? ⟨#[0xff]⟩ = none := by decide +kernel
    refine .notText ?_ undecoded
    rfl

end Refill.Command
