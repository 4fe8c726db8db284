import Refill.Command.Run
import Refill.Proofs.Files.Written

/-!
# What a run does to files

A run makes a `Revision` of each file that it may use. What becomes of the revisions depends on the mode
(`Effect`): they are printed, reported or written, and nothing else happens
(`processFiles_effect`). The first file that cannot be used ends the run, with the effect of
those before it (`processFiles_unusable`).
-/

namespace Refill.Command

/-- A file with its text before and after it is refilled. -/
structure Revision where
  path : Path
  before : List Char
  after : List Char

namespace Revision

def changes (revision : Revision) : Bool :=
  revision.after != revision.before

/-- The line that a check prints for the file. -/
def notice (revision : Revision) : List Char :=
  "would reflow ".toList ++ revision.path ++ ['\n']

end Revision

def printed (mode : Mode) (revisions : List Revision) : List Char :=
  match mode with
  | .print => revisions.flatMap Revision.after
  | .check => (revisions.filter Revision.changes).flatMap Revision.notice
  | .write => []

/-- Whether the mode writes a file at the location. -/
def Touches (mode : Mode) (revisions : List Revision) (files : FileSystem) (location : Location) :
    Prop :=
  mode = .write ∧ ∃ revision ∈ revisions, revision.changes ∧ files.LeadsTo revision.path location

/-- What becomes of the revisions in a mode. -/
structure Effect (mode : Mode) (revisions : List Revision) (files later : FileSystem)
    (output : List Char) : Prop where
  output_eq : output = printed mode revisions
  /-- Only writing changes files. -/
  untouched : mode ≠ .write → later = files
  written : mode = .write → ∀ revision ∈ revisions, revision.changes →
    ∃ location, files.LeadsTo revision.path location ∧
      later.root.face? location = some (.file (encodeText revision.after))
  /-- Nothing changes at other locations. -/
  frame : ∀ location, ¬Touches mode revisions files location →
    later.root.face? location = files.root.face? location

/-- No two of the paths lead to one file. -/
def Distinct (files : FileSystem) (paths : List Path) : Prop :=
  paths.Pairwise fun first second =>
    ∀ location, files.LeadsTo first location → ¬files.LeadsTo second location

/-- The revisions of the files that are not excluded, in order. -/
structure Revises (settings : Settings) (width : Nat) (files : FileSystem) (paths : List Path)
    (revisions : List Revision) : Prop where
  paths_eq : revisions.map Revision.path = paths.filter (!settings.isExcluded ·)
  before : ∀ revision ∈ revisions, files.textAt revision.path = .ok revision.before
  after : ∀ revision ∈ revisions, Document.refill revision.before width = .ok revision.after

inductive Unusable (width : Nat) (files : FileSystem) (path : Path) : Prop
  | unreadable (nowhere : ∀ content, files.entry path ≠ .ok (.file content))
  | notText {content : ByteArray} (found : files.entry path = .ok (.file content))
      (undecoded : decodeText? content = none)
  | zeroWidth (zero : width = 0)

section

variable {mode : Mode} {settings : Settings} {width : Nat} {files later : FileSystem}
variable {path : Path} {paths : List Path} {revision : Revision} {revisions : List Revision}

/-! ## One file -/

theorem refill_of_pos (positive : width ≠ 0) (text : List Char) :
    ∃ refilled, Document.refill text width = .ok refilled := by
  rw [Document.refill, if_neg positive]
  exact ⟨_, rfl⟩

theorem unusable_or_revision (width : Nat) (files : FileSystem) (path : Path) :
    Unusable width files path ∨ ∃ before after, files.textAt path = .ok before ∧
      Document.refill before width = .ok after := by
  by_cases zero : width = 0
  · exact Or.inl (.zeroWidth zero)
  by_cases nowhere : ∀ content, files.entry path ≠ .ok (.file content)
  · exact Or.inl (.unreadable nowhere)
  · simp only [ne_eq, not_forall, not_not] at nowhere
    rcases nowhere with ⟨content, found⟩
    cases decoded : decodeText? content with
    | none => exact Or.inl (.notText found decoded)
    | some text =>
      rcases refill_of_pos zero text with ⟨refilled, refill_eq⟩
      exact Or.inr ⟨text, refilled, FileSystem.textAt_eq_ok_iff.mpr ⟨content, found, decoded⟩,
        refill_eq⟩

theorem Unusable.ne_ok (unusable : Unusable width files path) {text : List Char}
    (read : files.textAt path = .ok text) : Document.refill text width = .error .zeroWidth := by
  rcases FileSystem.textAt_eq_ok_iff.mp read with ⟨content, found, decoded⟩
  cases unusable with
  | unreadable nowhere => exact absurd found (nowhere content)
  | notText other undecoded =>
    rw [found] at other
    cases other
    rw [decoded] at undecoded
    cases undecoded
  | zeroWidth zero => rw [Document.refill, if_pos zero]

theorem processFile_unusable (mode : Mode) (included : settings.isExcluded path = false)
    (unusable : Unusable width files path) :
    ∃ failure, processFile mode settings width files path = .error (.within path failure) := by
  cases read : files.textAt path with
  | error error =>
    refine ⟨.access error, ?_⟩
    simp [processFile, outcome, included, read, Except.mapError, Except.bind, bind]
  | ok text =>
    refine ⟨.wrap .zeroWidth, ?_⟩
    simp [processFile, outcome, included, read, unusable.ne_ok read, Except.mapError, Except.bind,
      bind]

theorem processFile_excluded (excluded : settings.isExcluded path) :
    processFile mode settings width files path = .ok { output := [], files } := by
  cases mode <;> simp [processFile, outcome, excluded, Except.bind, settle, Except.mapError]

theorem outcome_revision (included : settings.isExcluded revision.path = false)
    (before : files.textAt revision.path = .ok revision.before)
    (after : Document.refill revision.before width = .ok revision.after) :
    outcome settings width files revision.path =
      .ok (if revision.changes then .changed revision.after else .unchanged revision.after) := by
  by_cases same : revision.after = revision.before
  · simp [outcome, included, before, after, Except.mapError, bind, Except.bind, pure, Except.pure,
      Revision.changes, same]
  · simp [outcome, included, before, after, Except.mapError, bind, Except.bind, pure, Except.pure,
      Revision.changes, same]

/-- Where nothing has to be written, the files stay as they are. -/
theorem Effect.still {revisions : List Revision} (files : FileSystem)
    (idle : mode = .write → ∀ revision ∈ revisions, revision.changes = false) :
    Effect mode revisions files files (printed mode revisions) where
  output_eq := rfl
  untouched _ := rfl
  written writes revision mem changes := by
    rw [idle writes revision mem] at changes
    cases changes
  frame _ _ := rfl

theorem Effect.rewrite {location : Location} (changes : revision.changes)
    (leadsTo : files.LeadsTo revision.path location)
    (written : files.Written later location (encodeText revision.after)) :
    Effect .write [revision] files later [] where
  output_eq := rfl
  untouched other := absurd rfl other
  written := by
    intro _ other mem _
    cases List.mem_singleton.mp mem
    exact ⟨location, leadsTo, by simp [written.face]⟩
  frame := by
    intro other untouched
    rw [written.face, if_neg]
    rintro rfl
    exact untouched ⟨rfl, revision, by simp, changes, leadsTo⟩

theorem printed_singleton (mode : Mode) (revision : Revision) :
    printed mode [revision] =
      match mode with
      | .print => revision.after
      | .check => if revision.changes then revision.notice else []
      | .write => [] := by
  cases mode <;> cases changes : revision.changes <;> simp [printed, changes]

/-- A file that may be used has the effect of its revision. -/
theorem processFile_revision (mode : Mode)
    (included : settings.isExcluded revision.path = false)
    (before : files.textAt revision.path = .ok revision.before)
    (after : Document.refill revision.before width = .ok revision.after) :
    ∃ deed, processFile mode settings width files revision.path = .ok deed ∧
      Effect mode [revision] files deed.files deed.output ∧
      deed.flagged = (mode = .check && revision.changes) ∧ files.Alike deed.files := by
  rw [processFile, outcome_revision included before after, Except.bind]
  by_cases writes : mode = .write ∧ revision.changes
  · rcases writes with ⟨rfl, changes⟩
    rcases FileSystem.exists_setText before revision.after with
      ⟨later, location, set_eq, leadsTo, written, alike⟩
    refine ⟨{ files := later }, ?_, .rewrite changes leadsTo written, by simp, alike⟩
    simp [settle, changes, set_eq, Except.mapError, bind, Except.bind, pure, Except.pure]
  · have idle : mode = .write → ∀ other ∈ [revision], other.changes = false := by
      simpa using writes
    refine ⟨⟨printed mode [revision], files, mode = .check && revision.changes⟩, ?_,
      .still files idle, rfl, .refl files⟩
    rw [printed_singleton]
    cases changes : revision.changes with
    | false => cases mode <;> rfl
    | true =>
      cases mode with
      | print | check => rfl
      | write => exact absurd ⟨rfl, changes⟩ writes

/-! ## Several files -/

theorem Touches.iff_of_alike (alike : files.Alike later) {location : Location} :
    Touches mode revisions later location ↔ Touches mode revisions files location := by
  simp only [Touches, alike.leadsTo_iff]

theorem printed_append (mode : Mode) (first rest : List Revision) :
    printed mode (first ++ rest) = printed mode first ++ printed mode rest := by
  cases mode <;> simp [printed]

/-- The effects on different files add up. -/
theorem Effect.append {first rest : List Revision} {last : FileSystem} {front back : List Char}
    (left : Effect mode first files later front) (right : Effect mode rest later last back)
    (alike : files.Alike later)
    (apart : ∀ one ∈ first, ∀ other ∈ rest, ∀ location,
      files.LeadsTo one.path location → ¬files.LeadsTo other.path location) :
    Effect mode (first ++ rest) files last (front ++ back) where
  output_eq := by rw [left.output_eq, right.output_eq, printed_append]
  untouched idle := by rw [right.untouched idle, left.untouched idle]
  written := by
    intro writes revision mem changes
    rcases List.mem_append.mp mem with mem | mem
    · rcases left.written writes revision mem changes with ⟨location, leadsTo, face_eq⟩
      refine ⟨location, leadsTo, ?_⟩
      rw [right.frame location, face_eq]
      rw [Touches.iff_of_alike alike]
      rintro ⟨_, other, otherMem, _, otherLeads⟩
      exact apart revision mem other otherMem location leadsTo otherLeads
    · rcases right.written writes revision mem changes with ⟨location, leadsTo, face_eq⟩
      exact ⟨location, alike.leadsTo_iff.mp leadsTo, face_eq⟩
  frame := by
    intro location untouched
    rw [right.frame location, left.frame location]
    · rintro ⟨writes, revision, mem, touched⟩
      exact untouched ⟨writes, revision, List.mem_append_left rest mem, touched⟩
    · rw [Touches.iff_of_alike alike]
      rintro ⟨writes, revision, mem, touched⟩
      exact untouched ⟨writes, revision, List.mem_append_right first mem, touched⟩

theorem Revises.nil (settings : Settings) (width : Nat) (files : FileSystem) :
    Revises settings width files [] [] :=
  ⟨rfl, by simp, by simp⟩

theorem Revises.skip (excluded : settings.isExcluded path)
    (revises : Revises settings width files paths revisions) :
    Revises settings width files (path :: paths) revisions where
  paths_eq := by rw [revises.paths_eq, List.filter_cons_of_neg (by simp [excluded])]
  before := revises.before
  after := revises.after

theorem Revises.cons (revision : Revision) (included : settings.isExcluded revision.path = false)
    (before : files.textAt revision.path = .ok revision.before)
    (after : Document.refill revision.before width = .ok revision.after)
    (revises : Revises settings width files paths revisions) :
    Revises settings width files (revision.path :: paths) (revision :: revisions) where
  paths_eq := by
    rw [List.map_cons, revises.paths_eq, List.filter_cons_of_pos (by simp [included])]
  before := List.forall_mem_cons.mpr ⟨before, revises.before⟩
  after := List.forall_mem_cons.mpr ⟨after, revises.after⟩

theorem Revises.cons_cases (revises : Revises settings width files (path :: paths) revisions) :
    (settings.isExcluded path ∧ Revises settings width files paths revisions) ∨
      ∃ revision others, settings.isExcluded path = false ∧ revisions = revision :: others ∧
        revision.path = path ∧ Revises settings width files paths others := by
  have paths_eq := revises.paths_eq
  cases excluded : settings.isExcluded path with
  | true =>
    rw [List.filter_cons_of_neg (by simp [excluded])] at paths_eq
    exact Or.inl ⟨rfl, paths_eq, revises.before, revises.after⟩
  | false =>
    rw [List.filter_cons_of_pos (by simp [excluded])] at paths_eq
    cases revisions with
    | nil => cases paths_eq
    | cons revision others =>
      simp only [List.map_cons, List.cons.injEq] at paths_eq
      exact Or.inr ⟨revision, others, rfl, rfl, paths_eq.1, paths_eq.2,
        fun other mem => revises.before other (List.mem_cons_of_mem revision mem),
        fun other mem => revises.after other (List.mem_cons_of_mem revision mem)⟩

theorem Revises.path_mem (revises : Revises settings width files paths revisions)
    (mem : revision ∈ revisions) : revision.path ∈ paths := by
  have pathMem : revision.path ∈ revisions.map Revision.path := List.mem_map_of_mem mem
  rw [revises.paths_eq] at pathMem
  exact (List.mem_filter.mp pathMem).1

/-- What has a revision can be used. -/
theorem Revises.usable (revises : Revises settings width files paths revisions)
    (mem : path ∈ paths) : settings.isExcluded path ∨ ¬Unusable width files path := by
  cases excluded : settings.isExcluded path with
  | true => exact Or.inl rfl
  | false =>
    have kept : path ∈ revisions.map Revision.path := by
      rw [revises.paths_eq]
      exact List.mem_filter.mpr ⟨mem, by simp [excluded]⟩
    rcases List.mem_map.mp kept with ⟨revision, revisionMem, rfl⟩
    refine Or.inr fun unusable => ?_
    have refused := unusable.ne_ok (revises.before revision revisionMem)
    rw [revises.after revision revisionMem] at refused
    cases refused

theorem Revises.moved (revises : Revises settings width files paths revisions)
    (alike : files.Alike later)
    (same : ∀ path ∈ paths, ∀ location, files.LeadsTo path location →
      later.root.face? location = files.root.face? location) :
    Revises settings width later paths revisions where
  paths_eq := revises.paths_eq
  before := by
    intro revision mem
    rcases FileSystem.textAt_eq_ok_iff.mp (revises.before revision mem) with
      ⟨content, found, decoded⟩
    refine FileSystem.textAt_eq_ok_iff.mpr ⟨content, ?_, decoded⟩
    exact (alike.entry_file_iff (same revision.path (revises.path_mem mem))).mpr found
  after := revises.after

theorem Distinct.moved (distinct : Distinct files paths) (alike : files.Alike later) :
    Distinct later paths := by
  refine List.Pairwise.imp ?_ distinct
  intro first second apart location leadsTo other
  exact apart location (alike.leadsTo_iff.mp leadsTo) (alike.leadsTo_iff.mp other)

/-- What a mode does to some files leaves alone the file to which another path leads. -/
theorem Effect.face_of_apart {output : List Char}
    (effect : Effect mode revisions files later output) {location : Location}
    (leadsTo : files.LeadsTo path location)
    (apart : ∀ revision ∈ revisions, files.LeadsTo revision.path location →
      ¬files.LeadsTo path location) :
    later.root.face? location = files.root.face? location := by
  apply effect.frame
  rintro ⟨_, revision, mem, _, touched⟩
  exact apart revision mem touched leadsTo

/-- A run in which every file can be used has the effect of its revisions. -/
theorem processFiles_effect (mode : Mode)
    (revises : Revises settings width files paths revisions) (distinct : Distinct files paths) :
    (processFiles mode settings width files paths).verdict =
        .ok (mode = .check && revisions.any Revision.changes) ∧
      Effect mode revisions files (processFiles mode settings width files paths).files
        (processFiles mode settings width files paths).output ∧
      files.Alike (processFiles mode settings width files paths).files := by
  induction paths generalizing files revisions with
  | nil =>
    have empty : revisions = [] := by simpa using revises.paths_eq
    subst empty
    have effect : Effect mode [] files files (printed mode []) := .still files (by simp)
    have nothing : printed mode [] = [] := by cases mode <;> rfl
    rw [nothing] at effect
    exact ⟨by simp [processFiles], effect, .refl files⟩
  | cons path paths ih =>
    rcases List.pairwise_cons.mp distinct with ⟨apart, distinctRest⟩
    rcases revises.cons_cases with ⟨excluded, rest⟩ | ⟨revision, others, included, rfl, rfl, rest⟩
    · rcases ih rest distinctRest with ⟨verdict_eq, effect, alike⟩
      simp only [processFiles, processFile_excluded excluded, Report.after]
      exact ⟨by simp [verdict_eq, Except.map], by simpa using effect, alike⟩
    · rcases processFile_revision mode included (revises.before revision (by simp))
        (revises.after revision (by simp)) with ⟨deed, deed_eq, first, flagged_eq, alike⟩
      have same : ∀ path ∈ paths, ∀ location, files.LeadsTo path location →
          deed.files.root.face? location = files.root.face? location := by
        intro other mem location leadsTo
        refine first.face_of_apart leadsTo fun one oneMem oneLeads => ?_
        cases List.mem_singleton.mp oneMem
        exact apart other mem location oneLeads
      rcases ih (rest.moved alike same) (Distinct.moved distinctRest alike) with
        ⟨verdict_eq, effect, later⟩
      simp only [processFiles, deed_eq, Report.after]
      refine ⟨?_, first.append effect alike ?_, alike.trans later⟩
      · rw [verdict_eq, flagged_eq]
        cases mode <;> simp [Except.map]
      · intro one oneMem other otherMem
        cases List.mem_singleton.mp oneMem
        exact apart other.path (rest.path_mem otherMem)

/-! ## Files that cannot be used -/

theorem Report.after_nothing (report : Report) : Report.after [] false report = report := by
  cases report with
  | mk output files verdict => cases verdict <;> simp [Report.after, Except.map]

theorem processFiles_append {front : List Path} {flagged : Bool} (back : List Path)
    (verdict_eq : (processFiles mode settings width files front).verdict = .ok flagged) :
    processFiles mode settings width files (front ++ back) =
      .after (processFiles mode settings width files front).output flagged
        (processFiles mode settings width (processFiles mode settings width files front).files
          back) := by
  induction front generalizing files flagged with
  | nil =>
    cases verdict_eq
    exact (Report.after_nothing _).symm
  | cons path front ih =>
    simp only [List.cons_append, processFiles] at verdict_eq ⊢
    cases deed_eq : processFile mode settings width files path with
    | error failure => simp [deed_eq, Report.failed] at verdict_eq
    | ok deed =>
      simp only [deed_eq] at verdict_eq ⊢
      cases inner : (processFiles mode settings width deed.files front).verdict with
      | error failure => simp [Report.after, inner, Except.map] at verdict_eq
      | ok later =>
        simp only [Report.after, inner, Except.map, Except.ok.injEq] at verdict_eq
        rw [ih inner]
        cases rest : (processFiles mode settings width
            (processFiles mode settings width deed.files front).files back).verdict <;>
          simp [Report.after, rest, Except.map, ← verdict_eq, Bool.or_assoc]

theorem Unusable.moved (unusable : Unusable width files path) (alike : files.Alike later)
    (same : ∀ location, files.LeadsTo path location →
      later.root.face? location = files.root.face? location) : Unusable width later path := by
  cases unusable with
  | unreadable nowhere =>
    exact .unreadable fun content found => nowhere content ((alike.entry_file_iff same).mp found)
  | notText found undecoded => exact .notText ((alike.entry_file_iff same).mpr found) undecoded
  | zeroWidth zero => exact .zeroWidth zero

/-- The first file that cannot be used ends the run, which has the effect of the files before it. -/
theorem processFiles_unusable (mode : Mode) {front back : List Path}
    (revises : Revises settings width files front revisions)
    (distinct : Distinct files (front ++ path :: back))
    (included : settings.isExcluded path = false) (unusable : Unusable width files path) :
    ∃ failure, processFiles mode settings width files (front ++ path :: back) =
      { output := (processFiles mode settings width files front).output
        files := (processFiles mode settings width files front).files
        verdict := .error (.within path failure) } := by
  rcases List.pairwise_append.mp distinct with ⟨distinctFront, _, apart⟩
  rcases processFiles_effect mode revises distinctFront with ⟨verdict_eq, effect, alike⟩
  have same (location : Location) (leadsTo : files.LeadsTo path location) :
      (processFiles mode settings width files front).files.root.face? location =
        files.root.face? location := by
    refine effect.face_of_apart leadsTo fun revision mem => ?_
    exact apart revision.path (revises.path_mem mem) path (by simp) location
  rcases processFile_unusable mode included (unusable.moved alike same) with
    ⟨failure, failed⟩
  refine ⟨failure, ?_⟩
  rw [processFiles_append _ verdict_eq]
  simp [processFiles, failed, Report.after, Report.failed, Except.map]

/-- Either every file that is not excluded can be used, or there is a first one that cannot. -/
theorem revises_or_unusable (settings : Settings) (width : Nat) (files : FileSystem)
    (paths : List Path) :
    (∃ revisions, Revises settings width files paths revisions) ∨
      ∃ front path back revisions, paths = front ++ path :: back ∧
        Revises settings width files front revisions ∧ settings.isExcluded path = false ∧
        Unusable width files path := by
  induction paths with
  | nil => exact Or.inl ⟨[], .nil settings width files⟩
  | cons path paths ih =>
    cases excluded : settings.isExcluded path with
    | true =>
      rcases ih with ⟨revisions, revises⟩ | ⟨front, other, back, revisions, rfl, revises, unusable⟩
      · exact Or.inl ⟨revisions, revises.skip excluded⟩
      · exact Or.inr ⟨path :: front, other, back, revisions, rfl, revises.skip excluded, unusable⟩
    | false =>
      rcases unusable_or_revision width files path with unusable | ⟨before, after, read, refilled⟩
      · exact Or.inr ⟨[], path, paths, [], rfl, .nil settings width files, excluded, unusable⟩
      · let revision : Revision := ⟨path, before, after⟩
        rcases ih with
          ⟨revisions, revises⟩ | ⟨front, other, back, revisions, rfl, revises, unusable⟩
        · exact Or.inl ⟨_, .cons revision excluded read refilled revises⟩
        · have more := Revises.cons revision excluded read refilled revises
          exact Or.inr ⟨path :: front, other, back, _, rfl, more, unusable⟩

end

end Refill.Command
