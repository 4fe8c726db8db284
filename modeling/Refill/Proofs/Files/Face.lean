import Refill.Files.FileSystem

/-!
# What stands at a location

A directory tree is known by its faces: what stands at each location, with the content of the files.
To put a file into a directory changes the face at its location and no other (`face_insert`).
-/

namespace Refill

/-- What can be seen of an entry from outside. -/
inductive Face where
  | file (content : ByteArray)
  | directory

def Entry.face : Entry → Face
  | file content => .file content
  | directory _ => .directory

namespace Directory

/-- What stands at a location, if anything does. -/
def face? (root : Directory) (location : Location) : Option Face :=
  (root.lookup location).map Entry.face

variable {root : Directory} {location : Location} {name : Name}

@[simp]
theorem face_nil (root : Directory) : root.face? [] = some .directory := rfl

theorem face_eq_directory_iff :
    root.face? location = some .directory ↔
      ∃ inside, root.lookup location = some (.directory inside) := by
  unfold face?
  cases root.lookup location with
  | none => simp
  | some entry => cases entry <;> simp [Entry.face]

theorem face_eq_file_iff {content : ByteArray} :
    root.face? location = some (.file content) ↔ root.lookup location = some (.file content) := by
  unfold face?
  cases root.lookup location with
  | none => simp
  | some entry => cases entry <;> simp [Entry.face]

theorem entry_consAs (entry : Entry) (name other : Name) (rest : Directory) :
    Directory.entry? other (entry.consAs name rest) =
      if name = other then some entry else rest.entry? other := by
  cases entry <;> rfl

theorem entry_put (root : Directory) (entry : Entry) (name other : Name) :
    Directory.entry? other (root.put name entry) =
      if name = other then some entry else root.entry? other := by
  induction root with
  | empty => exact entry_consAs entry name other empty
  | file first content rest ih =>
    simp only [put]
    split
    · next same =>
      subst same
      rw [entry_consAs]
      split <;> simp_all [ entry?]
    · next differs =>
      simp only [ entry?, ih]
      grind
  | subdirectory first inside rest _ ih =>
    simp only [put]
    split
    · next same =>
      subst same
      rw [entry_consAs]
      split <;> simp_all [ entry?]
    · next differs =>
      simp only [ entry?, ih]
      grind

theorem face_cons (root : Directory) (name : Name) (location : Location) :
    root.face? (name :: location) =
      match root.entry? name with
      | some (.directory inside) => inside.face? location
      | some (.file content) => if location.isEmpty then some (.file content) else none
      | none => none := by
  simp only [face?, lookup]
  cases root.entry? name with
  | none => rfl
  | some entry =>
    cases entry with
    | directory inside => rfl
    | file content => dsimp only; split <;> rfl

theorem face_put_cons (root : Directory) (entry : Entry) {name other : Name}
    (differs : name ≠ other)
    (location : Location) :
    (root.put name entry).face? (other :: location) = root.face? (other :: location) := by
  rw [face_cons, face_cons, entry_put, if_neg differs]

/-- A file can be put at the location: a directory holds it, and no directory stands there. -/
structure Takes (root : Directory) (location : Location) : Prop where
  nonempty : location ≠ []
  held : root.face? location.dropLast = some .directory
  free : root.face? location ≠ some .directory

theorem face_insert {root : Directory} {location : Location} (takes : root.Takes location)
    (content : ByteArray) (other : Location) :
    (root.insert (.file content) location).face? other =
      if other = location then some (.file content) else root.face? other := by
  induction location generalizing root other with
  | nil => exact absurd rfl takes.nonempty
  | cons name names ih =>
    cases other with
    | nil => simp
    | cons first others =>
      by_cases same : name = first
      · subst same
        cases names with
        | nil =>
          have nothing (filled : others ≠ []) : root.face? (name :: others) = none := by
            have free := takes.free
            rw [face_cons] at free ⊢
            split <;> simp_all
          simp only [insert, face_cons, entry_put, if_pos]
          rw [← face_cons]
          cases others with
          | nil => simp
          | cons second later => simp [nothing]
        | cons second names =>
          have held := takes.held
          rw [List.dropLast_cons_cons, face_cons] at held
          cases entry_eq : root.entry? name with
          | none => simp [entry_eq] at held
          | some entry =>
            cases entry with
            | file found => simp [entry_eq] at held
            | directory inside =>
              have free := takes.free
              rw [face_cons] at free
              simp only [entry_eq] at held free
              have inner : inside.Takes (second :: names) := ⟨by simp, held, free⟩
              have changed := ih inner others
              simp only [insert, entry_eq, face_cons, entry_put, if_pos, changed]
              simp
      · have later : (first :: others) ≠ name :: names := by simp [Ne.symm same]
        rw [if_neg later]
        cases names with
        | nil => exact face_put_cons root _ same others
        | cons second names =>
          simp only [insert]
          split
          · exact face_put_cons root _ same others
          · rfl

/-! ## Parts of a location -/

theorem lookup_append (root : Directory) (front back : Location) :
    root.lookup (front ++ back) =
      match root.lookup front with
      | some (.directory inside) => inside.lookup back
      | some (.file content) => if back.isEmpty then some (.file content) else none
      | none => none := by
  induction front generalizing root with
  | nil => rfl
  | cons name front ih =>
    simp only [List.cons_append, lookup]
    cases root.entry? name with
    | none => rfl
    | some entry =>
      cases entry with
      | directory inside => exact ih inside
      | file content =>
        cases front <;> cases back <;> rfl

theorem lookup_concat {inside : Directory}
    (lookup_eq : root.lookup location = some (.directory inside))
    (name : Name) : root.lookup (location ++ [name]) = inside.entry? name := by
  rw [lookup_append, lookup_eq]
  simp only [lookup]
  cases inside.entry? name with
  | none => rfl
  | some entry => cases entry <;> rfl

/-- Only directories stand on the way to a location. -/
theorem face_dropLast (filled : root.face? location ≠ none) :
    root.face? location.dropLast = some .directory := by
  rcases List.eq_nil_or_concat location with rfl | ⟨front, name, rfl⟩
  · rfl
  · rw [List.concat_eq_append, List.dropLast_concat]
    rw [List.concat_eq_append, face?, lookup_append] at filled
    rw [face_eq_directory_iff]
    cases found : root.lookup front with
    | none => simp [found] at filled
    | some entry =>
      cases entry with
      | file content => simp [found] at filled
      | directory inside => exact ⟨inside, rfl⟩

end Directory

end Refill
