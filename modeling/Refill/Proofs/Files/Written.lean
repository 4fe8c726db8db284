import Mathlib.Tactic.ByContra
import Refill.Files.Access
import Refill.Proofs.Files.Walk

/-!
# Reading and writing files

A text is read at the location to which its path leads (`textAt_eq_ok_iff`), and a file is written
there: nothing else changes (`write_spec`). What can be read can be written
(`exists_setText`), and a file is found where it has been written (`entry_of_write`).
-/

namespace Refill

theorem decodeText_encodeText (text : List Char) : decodeText? (encodeText text) = some text := by
  have valid : (String.ofList text).toUTF8.IsValidUTF8 := (String.ofList text).isValidUTF8
  have decoded : String.fromUTF8 (String.ofList text).toUTF8 valid = String.ofList text := rfl
  rw [decodeText?, encodeText, String.fromUTF8?, dif_pos valid, decoded]
  simp

namespace FileSystem

variable {files later : FileSystem} {path : Path} {location : Location}

/-- The path may be used and leads to the location. -/
structure LeadsTo (files : FileSystem) (path : Path) (location : Location) : Prop where
  checked : checkPath path = .ok ()
  leads : Leads files.root (files.start path) path.steps location

theorem LeadsTo.unique {other : Location} (first : files.LeadsTo path location)
    (second : files.LeadsTo path other) : location = other := by
  have walked := walk_eq_ok_iff.mpr first.leads
  rw [walk_eq_ok_iff.mpr second.leads] at walked
  exact (Except.ok.inj walked).symm

/-- The same files at the same locations, apart from this one, where the content now stands. -/
structure Written (before after : FileSystem) (location : Location) (content : ByteArray) :
    Prop where
  workingDirectory : after.workingDirectory = before.workingDirectory
  face : ∀ other, after.root.face? other =
    if other = location then some (.file content) else before.root.face? other

theorem LeadsTo.keeps (working : later.workingDirectory = files.workingDirectory)
    (keeps : Keeps files.root later.root) (leadsTo : files.LeadsTo path location) :
    later.LeadsTo path location where
  checked := leadsTo.checked
  leads := by
    rw [start, working]
    exact leadsTo.leads.keeps keeps

/-! ## Reading -/

theorem entry_eq (files : FileSystem) (path : Path) (checked : checkPath path = .ok ())
    (leads : Leads files.root (files.start path) path.steps location) :
    files.entry path =
      match files.root.lookup location with
      | none => .error .notFound
      | some (.file content) =>
          if path.endsInSlash then .error .notDirectory else .ok (.file content)
      | some (.directory inside) => .ok (.directory inside) := by
  rw [entry, checked, walk_eq_ok_iff.mpr leads]
  rfl

theorem exists_of_entry {entry : Entry} (entry_eq : files.entry path = .ok entry) :
    ∃ location, files.LeadsTo path location := by
  rw [FileSystem.entry] at entry_eq
  cases checked : checkPath path with
  | error fault =>
    rw [checked] at entry_eq
    cases entry_eq
  | ok _ =>
    cases walked : walk files.root (files.start path) path.steps with
    | error fault =>
      rw [checked, walked] at entry_eq
      cases entry_eq
    | ok location => exact ⟨location, checked, walk_eq_ok_iff.mp walked⟩

theorem entry_eq_file_iff {content : ByteArray} :
    files.entry path = .ok (.file content) ↔
      ∃ location, files.LeadsTo path location ∧
        files.root.face? location = some (.file content) ∧ path.endsInSlash = false := by
  constructor
  · intro found
    rcases exists_of_entry found with ⟨location, leadsTo⟩
    refine ⟨location, leadsTo, ?_⟩
    rw [entry_eq files path leadsTo.checked leadsTo.leads] at found
    rw [Directory.face_eq_file_iff]
    split at found
    · cases found
    · next inside same =>
      split at found
      · cases found
      · next opens =>
        cases found
        exact ⟨same, by simpa using opens⟩
    · cases found
  · rintro ⟨location, leadsTo, face_eq, unslashed⟩
    rw [entry_eq files path leadsTo.checked leadsTo.leads, Directory.face_eq_file_iff.mp face_eq]
    simp [unslashed]

theorem entry_eq_directory_iff {inside : Directory} :
    files.entry path = .ok (.directory inside) ↔
      ∃ location, files.LeadsTo path location ∧
        files.root.lookup location = some (.directory inside) := by
  constructor
  · intro found
    rcases exists_of_entry found with ⟨location, leadsTo⟩
    refine ⟨location, leadsTo, ?_⟩
    rw [entry_eq files path leadsTo.checked leadsTo.leads] at found
    split at found
    · cases found
    · split at found <;> cases found
    · next lookup_eq =>
      cases found
      exact lookup_eq
  · rintro ⟨location, leadsTo, lookup_eq⟩
    rw [entry_eq files path leadsTo.checked leadsTo.leads, lookup_eq]

theorem readText_of_directory {inside : Directory}
    (found : files.entry path = .ok (.directory inside)) :
    files.readText path = .error .isDirectory := by
  rw [readText, found]
  rfl

theorem readText_of_file {content : ByteArray} (found : files.entry path = .ok (.file content)) :
    files.readText path = (decodeText? content).elim (.error .notText) .ok := by
  rw [readText, found]
  cases decoded : decodeText? content <;> simp [bind, Except.bind, decoded]

theorem textAt_eq_ok_iff {text : List Char} :
    files.textAt path = .ok text ↔
      ∃ content, files.entry path = .ok (.file content) ∧ decodeText? content = some text := by
  rw [textAt, leadsSomewhere]
  cases found : files.entry path with
  | error fault => simp [Except.toOption]
  | ok entry =>
    cases entry with
    | directory inside => simp [readText_of_directory found, Except.toOption, Except.mapError]
    | file content =>
      rw [readText_of_file found]
      cases decoded : decodeText? content <;>
        simp [Except.toOption, Except.mapError, decoded]

/-! ## Writing -/

theorem any_isDirectory_iff {root inside : Directory} {parent : Location}
    (lookup_eq : root.lookup parent = some (.directory inside)) (name : Name) :
    (inside.entry? name).any Entry.isDirectory ↔
      root.face? (parent ++ [name]) = some .directory := by
  rw [Directory.face?, Directory.lookup_concat lookup_eq]
  cases inside.entry? name with
  | none => simp
  | some entry => cases entry <;> simp [Entry.face, Entry.isDirectory]

theorem target_eq_ok_iff :
    files.target path = .ok location ↔
      checkPath path = .ok () ∧ path.endsInSlash = false ∧
        ∃ front name parent, path.steps = front ++ [.enter name] ∧
          Leads files.root (files.start path) front parent ∧
          files.root.face? parent = some .directory ∧ name.isTooLong = false ∧
          location = parent ++ [name] ∧ files.root.face? location ≠ some .directory := by
  constructor
  · intro found
    rw [target] at found
    cases checked : checkPath path with
    | error fault =>
      rw [checked] at found
      cases found
    | ok _ =>
      rw [checked] at found
      simp only [bind, Except.bind] at found
      split at found
      · next name last_eq =>
        rcases List.getLast?_eq_some_iff.mp last_eq with ⟨front, steps_eq⟩
        rw [steps_eq, List.dropLast_concat] at found
        cases walked : walk files.root (files.start path) front with
        | error fault => simp [walked] at found
        | ok parent =>
          have leads := walk_eq_ok_iff.mp walked
          simp only [walked] at found
          split at found
          · cases found
          · cases found
          · next inside lookup_eq =>
            split at found
            · cases found
            · next unslashed =>
              split at found
              · cases found
              · next short =>
                split at found
                · cases found
                · next free =>
                  cases found
                  rw [any_isDirectory_iff lookup_eq] at free
                  exact ⟨rfl, by simpa using unslashed, front, name, parent, steps_eq, leads,
                    Directory.face_eq_directory_iff.mpr ⟨inside, lookup_eq⟩,
                    by simpa using short, rfl, free⟩
      · cases walked : walk files.root (files.start path) path.steps <;>
          simp [walked] at found
  · rintro ⟨checked, unslashed, front, name, parent, steps_eq, leads, held, short, rfl, free⟩
    rcases Directory.face_eq_directory_iff.mp held with ⟨inside, lookup_eq⟩
    rw [target, checked, steps_eq, List.getLast?_concat, List.dropLast_concat,
      walk_eq_ok_iff.mpr leads]
    simp [bind, Except.bind, lookup_eq, unslashed, short, any_isDirectory_iff lookup_eq, free]

theorem steps_ne_nil {path : Path} (filled : path ≠ []) (relative : path.isAbsolute = false) :
    path.steps ≠ [] := by
  cases path with
  | nil => exact absurd rfl filled
  | cons c rest =>
    have inner : c ≠ '/' := by
      rintro rfl
      cases relative
    simp only [Path.steps, Path.pieces, if_neg inner, ne_eq, List.map_eq_nil_iff]
    split <;> simp

/-- A file that can be read can be written. -/
theorem target_of_file {content : ByteArray} (leadsTo : files.LeadsTo path location)
    (face_eq : files.root.face? location = some (.file content))
    (unslashed : path.endsInSlash = false) : files.target path = .ok location := by
  have leads := leadsTo.leads
  have notDirectory : files.root.face? location ≠ some .directory := by simp [face_eq]
  rw [target_eq_ok_iff]
  refine ⟨leadsTo.checked, unslashed, ?_⟩
  rcases List.eq_nil_or_concat path.steps with steps_eq | ⟨front, last, steps_eq⟩
  · -- without steps an absolute path leads to the root, and there is no other path like that
    rw [steps_eq] at leads
    cases leads
    have absolute : path.isAbsolute := by
      by_contra relative
      refine steps_ne_nil ?_ (by simpa using relative) steps_eq
      rintro rfl
      cases leadsTo.checked
    rw [start, if_pos absolute] at notDirectory
    exact absurd (Directory.face_nil _) notDirectory
  · rw [List.concat_eq_append] at steps_eq
    rw [steps_eq] at leads
    cases last with
    | stay =>
      exact absurd (leads.target_directory List.getLast?_concat fun _ => nofun) notDirectory
    | up =>
      exact absurd (leads.target_directory List.getLast?_concat fun _ => nofun) notDirectory
    | enter name =>
      rcases Leads.concat_iff.mp leads with ⟨parent, before, held, short, _, rfl⟩
      exact ⟨front, name, parent, steps_eq, before, held, short, rfl, notDirectory⟩

theorem takes_of_target (target_eq : files.target path = .ok location) :
    files.root.Takes location := by
  rcases target_eq_ok_iff.mp target_eq with ⟨_, _, _, name, parent, _, _, held, _, rfl, free⟩
  exact ⟨by simp, by simpa using held, free⟩

/-- Writing changes what stands at the target and nothing else. -/
theorem write_spec {content : ByteArray} (write_eq : files.write path content = .ok later) :
    ∃ location, files.target path = .ok location ∧ files.Written later location content := by
  rw [write] at write_eq
  cases target_eq : files.target path with
  | error fault =>
    rw [target_eq] at write_eq
    cases write_eq
  | ok location =>
    rw [target_eq] at write_eq
    cases write_eq
    have takes := takes_of_target target_eq
    exact ⟨location, rfl, rfl, fun other => Directory.face_insert takes _ other⟩

namespace Written

variable {content : ByteArray} (written : files.Written later location content)

include written

theorem keeps (free : files.root.face? location ≠ some .directory) :
    Keeps files.root later.root := by
  intro other
  rw [written.face]
  split
  · next same =>
    subst same
    exact ⟨by simp, fun directory => absurd directory free⟩
  · exact ⟨id, id⟩

theorem kept (filled : files.root.face? location ≠ none) : Keeps later.root files.root := by
  intro other
  rw [written.face]
  split
  · next same =>
    subst same
    exact ⟨fun _ => filled, by simp⟩
  · exact ⟨id, id⟩

end Written

/-- What has been written is found there. -/
theorem entry_of_write {content : ByteArray} (write_eq : files.write path content = .ok later) :
    later.entry path = .ok (.file content) := by
  rcases write_spec write_eq with ⟨location, target_eq, written⟩
  rcases target_eq_ok_iff.mp target_eq with
    ⟨checked, unslashed, front, name, parent, steps_eq, leads, held, short, location_eq, free⟩
  have keeps := written.keeps free
  have standing : later.root.face? location = some (.file content) := by simp [written.face]
  refine entry_eq_file_iff.mpr ⟨location, ⟨checked, ?_⟩, standing, unslashed⟩
  rw [steps_eq, Leads.concat_iff]
  refine ⟨parent, ?_, (keeps parent).2 held, short, ?_, location_eq⟩
  · rw [start, written.workingDirectory]
    exact leads.keeps keeps
  · rw [← location_eq, standing]
    simp

/-! ## File systems with the same files -/

/-- The same directories, and files at the same locations. -/
structure Alike (files other : FileSystem) : Prop where
  workingDirectory : other.workingDirectory = files.workingDirectory
  keeps : Keeps files.root other.root
  kept : Keeps other.root files.root

namespace Alike

variable {first second third : FileSystem}

theorem refl (files : FileSystem) : files.Alike files :=
  ⟨rfl, fun _ => ⟨id, id⟩, fun _ => ⟨id, id⟩⟩

theorem trans (left : first.Alike second) (right : second.Alike third) : first.Alike third where
  workingDirectory := right.workingDirectory.trans left.workingDirectory
  keeps location :=
    ⟨(right.keeps location).1 ∘ (left.keeps location).1,
      (right.keeps location).2 ∘ (left.keeps location).2⟩
  kept location :=
    ⟨(left.kept location).1 ∘ (right.kept location).1,
      (left.kept location).2 ∘ (right.kept location).2⟩

theorem symm (alike : first.Alike second) : second.Alike first where
  workingDirectory := alike.workingDirectory.symm
  keeps := alike.kept
  kept := alike.keeps

theorem leadsTo_iff (alike : first.Alike second) :
    second.LeadsTo path location ↔ first.LeadsTo path location :=
  ⟨.keeps alike.workingDirectory.symm alike.kept, .keeps alike.workingDirectory alike.keeps⟩

/-- The same file is read if it is the same at the location to which its path leads. -/
theorem entry_file_iff (alike : first.Alike second)
    (same : ∀ location, first.LeadsTo path location →
      second.root.face? location = first.root.face? location) {content : ByteArray} :
    second.entry path = .ok (.file content) ↔ first.entry path = .ok (.file content) := by
  simp only [entry_eq_file_iff, alike.leadsTo_iff]
  constructor
  · rintro ⟨location, leadsTo, face_eq, unslashed⟩
    exact ⟨location, leadsTo, same location leadsTo ▸ face_eq, unslashed⟩
  · rintro ⟨location, leadsTo, face_eq, unslashed⟩
    exact ⟨location, leadsTo, (same location leadsTo).trans face_eq, unslashed⟩

end Alike

/-- A text that can be read can be replaced by another one. -/
theorem exists_setText {text : List Char} (read : files.textAt path = .ok text)
    (other : List Char) :
    ∃ later location, files.setText path other = .ok later ∧ files.LeadsTo path location ∧
      files.Written later location (encodeText other) ∧ files.Alike later := by
  rcases textAt_eq_ok_iff.mp read with ⟨content, found, _⟩
  rcases entry_eq_file_iff.mp found with ⟨location, leadsTo, face_eq, unslashed⟩
  have target_eq := target_of_file leadsTo face_eq unslashed
  have write_eq : files.write path (encodeText other) =
      .ok { files with root := files.root.insert (.file (encodeText other)) location } := by
    rw [write, target_eq]
    rfl
  rcases write_spec write_eq with ⟨place, place_eq, written⟩
  rw [target_eq] at place_eq
  cases place_eq
  refine ⟨_, location, by rw [setText, write_eq]; rfl, leadsTo, written, rfl, ?_, ?_⟩
  · exact written.keeps (by simp [face_eq])
  · exact written.kept (by simp [face_eq])

end FileSystem

end Refill
