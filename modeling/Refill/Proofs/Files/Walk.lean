import Refill.Proofs.Files.Face

/-!
# Where a path leads

Where a path leads depends on the faces on the way only (`walk_eq_ok_iff`), and it goes on leading there
in a tree that keeps what stands in it (`Leads.keeps`).
-/

namespace Refill

open Refill.Path (Step)

/-- The steps lead from one location to another. -/
inductive Leads (root : Directory) : Location → List Step → Location → Prop
  | here (origin : Location) : Leads root origin [] origin
  | stay {origin target : Location} {steps : List Step}
      (inside : root.face? origin = some .directory) (later : Leads root origin steps target) :
      Leads root origin (.stay :: steps) target
  | up {origin target : Location} {steps : List Step}
      (inside : root.face? origin = some .directory)
      (later : Leads root origin.dropLast steps target) : Leads root origin (.up :: steps) target
  | enter {origin target : Location} {steps : List Step} {name : Name}
      (inside : root.face? origin = some .directory) (short : name.isTooLong = false)
      (found : root.face? (origin ++ [name]) ≠ none)
      (later : Leads root (origin ++ [name]) steps target) :
      Leads root origin (.enter name :: steps) target

/-- What stands in the first tree stands in the second, apart from the content of files. -/
def Keeps (root other : Directory) : Prop :=
  ∀ location, (root.face? location ≠ none → other.face? location ≠ none) ∧
    (root.face? location = some .directory → other.face? location = some .directory)

theorem Leads.keeps {root other : Directory} (keeps : Keeps root other) {origin target : Location}
    {steps : List Step} (leads : Leads root origin steps target) :
    Leads other origin steps target := by
  induction leads with
  | here origin => exact .here origin
  | stay inside _ ih => exact .stay ((keeps _).2 inside) ih
  | up inside _ ih => exact .up ((keeps _).2 inside) ih
  | enter inside short found _ ih => exact .enter ((keeps _).2 inside) short ((keeps _).1 found) ih

/-- What is found on the way to a location stands in a directory. -/
theorem Leads.target_directory {root : Directory} {origin target : Location} {steps : List Step}
    (leads : Leads root origin steps target) {last : Step} (last_eq : steps.getLast? = some last)
    (outward : ∀ name, last ≠ .enter name) : root.face? target = some .directory := by
  induction leads with
  | here origin => cases last_eq
  | @stay origin target steps inside later ih =>
    cases steps with
    | nil =>
      cases later
      exact inside
    | cons step steps => exact ih (by simpa using last_eq)
  | @up origin target steps inside later ih =>
    cases steps with
    | nil =>
      cases later
      exact Directory.face_dropLast (by simp [inside])
    | cons step steps => exact ih (by simpa using last_eq)
  | @enter origin target steps name inside short found later ih =>
    cases steps with
    | nil =>
      cases last_eq
      exact absurd rfl (outward name)
    | cons step steps => exact ih (by simpa using last_eq)

theorem Leads.cons_iff {root : Directory} {origin target : Location} {step : Step}
    {steps : List Step} :
    Leads root origin (step :: steps) target ↔
      root.face? origin = some .directory ∧
        match step with
        | .stay => Leads root origin steps target
        | .up => Leads root origin.dropLast steps target
        | .enter name => name.isTooLong = false ∧ root.face? (origin ++ [name]) ≠ none ∧
            Leads root (origin ++ [name]) steps target := by
  constructor
  · intro leads
    cases leads with
    | stay inside later => exact ⟨inside, later⟩
    | up inside later => exact ⟨inside, later⟩
    | enter inside short found later => exact ⟨inside, short, found, later⟩
  · rintro ⟨inside, rest⟩
    cases step with
    | stay => exact .stay inside rest
    | up => exact .up inside rest
    | enter name => exact .enter inside rest.1 rest.2.1 rest.2.2

theorem Leads.concat_iff {root : Directory} {origin target : Location} {steps : List Step}
    {name : Name} :
    Leads root origin (steps ++ [.enter name]) target ↔
      ∃ parent, Leads root origin steps parent ∧ root.face? parent = some .directory ∧
        name.isTooLong = false ∧ root.face? (parent ++ [name]) ≠ none ∧ target = parent ++ [name] := by
  constructor
  · intro leads
    induction steps generalizing origin with
    | nil =>
      cases leads with
      | enter inside short found later =>
        cases later
        exact ⟨origin, .here origin, inside, short, found, rfl⟩
    | cons step steps ih =>
      cases leads with
      | stay inside later =>
        rcases ih later with ⟨parent, front, rest⟩
        exact ⟨parent, .stay inside front, rest⟩
      | up inside later =>
        rcases ih later with ⟨parent, front, rest⟩
        exact ⟨parent, .up inside front, rest⟩
      | enter inside short found later =>
        rcases ih later with ⟨parent, front, rest⟩
        exact ⟨parent, .enter inside short found front, rest⟩
  · rintro ⟨parent, front, inside, short, found, rfl⟩
    induction front with
    | here origin => exact .enter inside short found (.here _)
    | stay first _ ih => exact .stay first (ih inside found)
    | up first _ ih => exact .up first (ih inside found)
    | enter first firstShort firstFound _ ih =>
      exact .enter first firstShort firstFound (ih inside found)

namespace FileSystem

theorem walk_cons_eq_ok_iff {root : Directory} {origin target : Location} {step : Step}
    {steps : List Step} :
    walk root origin (step :: steps) = .ok target ↔
      root.face? origin = some .directory ∧
        match step with
        | .stay => walk root origin steps = .ok target
        | .up => walk root origin.dropLast steps = .ok target
        | .enter name => name.isTooLong = false ∧ root.face? (origin ++ [name]) ≠ none ∧
            walk root (origin ++ [name]) steps = .ok target := by
  rw [walk, Directory.face?]
  cases found : root.lookup origin with
  | none => simp
  | some entry =>
    cases entry with
    | file content => simp [Entry.face]
    | directory inside =>
      cases step with
      | stay => simp [Entry.face]
      | up => simp [Entry.face]
      | enter name =>
        dsimp only
        rw [Directory.face?, Directory.lookup_concat found name]
        cases long : name.isTooLong with
        | true => simp
        | false => cases inside.entry? name <;> simp [Entry.face]

theorem walk_eq_ok_iff {root : Directory} {origin target : Location} {steps : List Step} :
    walk root origin steps = .ok target ↔ Leads root origin steps target := by
  induction steps generalizing origin with
  | nil =>
    rw [walk, Except.ok.injEq]
    constructor
    · rintro rfl
      exact .here origin
    · intro leads
      cases leads
      rfl
  | cons step steps ih => cases step <;> simp only [walk_cons_eq_ok_iff, Leads.cons_iff, ih]

end FileSystem

end Refill
